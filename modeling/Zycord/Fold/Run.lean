import Zycord.Core.Reference
import Zycord.Core.Validate
import Zycord.Fold.Apply

/-!
# Runs of the fold

A chain is a list of applied blocks, newest first, with the state they lead to from genesis:
`Run` grows it block by block at consecutive heights. `produce` computes runs
(`run_of_produce`); a small one, under the reference primitives, is executed at the end.
-/

namespace Zycord.Fold

open List Prod

/-- Applied blocks with their results, the newest first. -/
abbrev ChainLog := List (Block × Result)

section

variable [Crypto]

/-- A chain grown by applying blocks at heights 0, 1, 2, ... from genesis. -/
inductive Run (p : Params) : ChainLog → State → Prop where
  | genesis : Run p [] State.new
  | apply {log : ChainLog} {s s' : State} {b : Block} {r : Result} (h : Run p log s)
      (hheight : b.header.height.toNat = log.length) (happly : applyBlock s b p = (.ok r, s')) :
      Run p ((b, r) :: log) s'

variable {p : Params} {log : ChainLog} {s : State}

variable {b : Block} {r : Result} {newer : ChainLog} {e : Block × Result}

theorem Run.of_cons (h : Run p ((b, r) :: log) s) :
    ∃ s₀, Run p log s₀ ∧ b.header.height.toNat = log.length ∧ applyBlock s₀ b p = (.ok r, s) := by
  cases h with
  | apply h hheight happly => exact ⟨_, h, hheight, happly⟩

/-- A run passes through the states of its older blocks. -/
theorem Run.of_append (h : Run p (newer ++ log) s) : ∃ s₀, Run p log s₀ := by
  induction newer generalizing s with
  | nil => exact ⟨s, h⟩
  | cons e newer ih =>
    obtain ⟨s₁, h₁, -⟩ := Run.of_cons h
    exact ih h₁

theorem Run.height_eq (h : Run p (newer ++ (b, r) :: log) s) :
    b.header.height.toNat = log.length := by
  obtain ⟨s₀, h₀⟩ := h.of_append
  obtain ⟨-, -, hheight, -⟩ := h₀.of_cons
  exact hheight

theorem Run.height_lt (h : Run p log s) (he : e ∈ log) : e.1.header.height.toNat < log.length := by
  obtain ⟨newer, older, rfl⟩ := append_of_mem he
  rw [h.height_eq, length_append, length_cons]
  omega

theorem Run.applied (h : Run p log s) (he : e ∈ log) :
    ∃ s₀ s₁, BlockOK s₀ e.1 p ∧ applyBlock s₀ e.1 p = (.ok e.2, s₁) := by
  obtain ⟨newer, older, rfl⟩ := append_of_mem he
  obtain ⟨s₁, h₁⟩ := h.of_append
  obtain ⟨s₀, -, -, happly⟩ := h₁.of_cons
  exact ⟨s₀, s₁, (apply_eq_ok happly).1, happly⟩

theorem Run.le_height (h : Run p (newer ++ log) s) (he : e ∈ newer) :
    log.length ≤ e.1.header.height.toNat := by
  obtain ⟨left, right, rfl⟩ := append_of_mem he
  rw [append_assoc, cons_append] at h
  rw [h.height_eq, length_append]
  omega

theorem Run.state_unique {s' : State} (h : Run p log s) (h' : Run p log s') : s = s' := by
  induction h generalizing s' with
  | genesis =>
    cases h'
    rfl
  | apply hrun _ happly ih =>
    obtain ⟨s₀, hrun₀, -, happly₀⟩ := h'.of_cons
    rw [← ih hrun₀, happly] at happly₀
    exact congrArg snd happly₀

/-! ## Producing chains -/

/-- Fill in the roots of a header for its certificates on a state, as a producer does. -/
def assemble (s : State) (p : Params) (h : Header) (certs : List Certificate) : Block :=
  let b : Block := ⟨h, certs, []⟩
  let h := { h with certRoot := b.computeCertRoot p, citesRoot := b.computeCitesRoot p }
  if p.isEpochBoundary h.height then
    match (apply s ⟨h, certs, []⟩ p false).1 with
    | .ok r => ⟨{ h with stateRoot := r.stateRoot }, certs, []⟩
    | .error _ => ⟨h, certs, []⟩
  else ⟨h, certs, []⟩

/-- Produce and apply blocks over headers and certificates, the newest first. -/
def produce (p : Params) : List (Header × List Certificate) → Option (ChainLog × State)
  | [] => some ([], State.new)
  | x :: older =>
    match produce p older with
    | none => none
    | some (log, s) =>
      let b := assemble s p x.1 x.2
      match applyBlock s b p with
      | (.ok r, s') =>
        if b.header.height.toNat = log.length then some ((b, r) :: log, s') else none
      | (.error _, _) => none

/-- What is produced is a run. -/
theorem run_of_produce {items : List (Header × List Certificate)}
    (h : produce p items = some (log, s)) : Run p log s := by
  induction items generalizing log s with
  | nil =>
    obtain ⟨rfl, rfl⟩ := h
    exact .genesis
  | cons x older ih =>
    unfold produce at h
    split at h
    · simp at h
    · rename_i log₀ s₀ holder
      dsimp only at h
      split at h
      · rename_i r s' happly
        split at h
        · rename_i hheight
          obtain ⟨rfl, rfl⟩ := h
          exact (ih holder).apply hheight happly
        · simp at h
      · simp at h

end

/-! ## An executed chain -/

namespace Sample

open Reference

attribute [local instance] Reference.crypto

/-- Small parameters that pass the check. -/
def params : Params where
  name := "sample"
  chainID := 7
  maxReads := 8
  maxWrites := 8
  maxSigs := 4
  maxMovesPerTransfer := 4
  maxRetireAddrs := 4
  ttlMax := 100
  seqGasTargetGenesis := 1000
  parGasRatio := 10
  maxCertsPerBlockGenesis := 4
  blockByteLimitGenesis := 100000
  maxSigsPerBlockGenesis := 16
  certListCapacity := 4
  blockByteCapacity := 100000
  seqGasCapacity := 1000
  maxCitesPerBlock := 1
  ceilingGrowthDivisor := 8
  ceilingDecayDivisor := 8
  healthGateBps := 500
  gasSeqPerRead := 1
  gasSeqPerWrite := 1
  gasSeqPerRegistryInsert := 1
  gasSeqPerSeenInsert := 1
  gasParPerSig := 1
  gasParPerByte := 1
  gasParPerDeriveUnit := 1
  initialSeqBaseFee := 1
  initialParBaseFee := 1
  minBaseFee := 1
  baseFeeMaxChangeDenominator := 8
  skipFee := 1
  genesisEmission := ⟨1000000, by decide⟩
  tailEmission := ⟨1000000, by decide⟩
  emissionDecayDivisor := 2
  coinbaseMaturity := 1
  treasuryShareBps := 1000
  targetBlockSeconds := 1
  epochLength := 100
  difficultyWindow := 1
  difficultyClampFactor := 1
  medianTimeBlocks := 1
  futureTimeLimitSeconds := 1
  undoDepth := 1
  powEngine := "sample"
  randomXKeyInterval := 1000
  randomXKeyLag := 1
  genesisTarget := 1
  maxTarget := 1
  genesisTime := 1
  h1Bond := 1
  h1VM := 1
  h2PoS := 1

theorem params_validate : params.validate = .ok () := by decide +kernel

/-- A key for a number. -/
def key (n : ℕ) : PubKey := digest n

/-- An account for a number. -/
def user (n : ℕ) : Address := addressFromPubKey Crypto.addrVersionPersistent (key n)

/-- A header, before its roots are filled in. -/
def header (height : UInt64) (payee : Address) : Header where
  version := headerVersion
  height := height
  parentID := if height = 0 then params.consensusRoot else digest 1
  time := 0
  certRoot := 0
  citesRoot := 0
  stateRoot := 0
  emissionAddr := payee
  pow := ⟨0, 0, 0⟩
  target := 1
  powHash := 0

/-- A certificate of a program, deposited by `owner` and signed by the given keys. -/
def certificate (prog : Program) (seq : UInt64) (owner : Address) (deposit : ℕ)
    (keys : List PubKey) : Certificate :=
  let sets := (Validity.deriveCert prog params.chainID seq owner).toOption.getD ([], [])
  { chainID := params.chainID
    seq := seq
    program := prog
    reads := sets.1
    writes := sets.2
    sigs := keys.map fun k => ⟨k, k, 0⟩
    deposit := ⟨nativeBalanceSlot owner, .ofNat deposit, nativeBalanceSlot owner⟩
    ttl := 10
    feeBid := ⟨.ofNat 2, 1, .ofNat 2, 1⟩ }

/-- A payment of the first user to the second. -/
def payment : Certificate :=
  certificate (.transfer [⟨nativeAsset, user 1, user 2, .ofNat 5⟩]) 0 (user 1) 5000 [key 1]

/-- Three blocks, after which the first user has a matured reward to spend. -/
def funding : List (Header × List Certificate) :=
  [(header 2 (user 1), []), (header 1 (user 1), []), (header 0 0, [])]

/-- A genesis block with a wrong state root. -/
def badGenesis : Block :=
  let b := assemble State.new params (header 0 0) []
  { b with header := { b.header with stateRoot := 0 } }

/-- Three empty blocks and a block with a payment, which is applied. -/
theorem payment_applies :
    ∃ log s b r s', Run params log s ∧ b.header.height.toNat = log.length ∧
      applyBlock s b params = (.ok r, s') ∧ (∀ e ∈ log, e.1.certs = []) ∧ b.certs = [payment] ∧
      (r.outcomes.map fun o => (o.id, o.outcome)) = [(payment.id, .applied)] ∧ log.length = 3 := by
  have hproduce : ∃ x, produce params ((header 3 (user 1), [payment]) :: funding) = some x ∧
      (x.1.map fun e => (e.1.certs, e.2.outcomes.map fun o => (o.id, o.outcome))) =
        [([payment], [(payment.id, Outcome.applied)]), ([], []), ([], []), ([], [])] := by
    decide +kernel
  obtain ⟨⟨log, s'⟩, hx, hlog⟩ := hproduce
  obtain ⟨⟨b, r⟩, log, rfl⟩ := exists_cons_of_ne_nil (l := log) (by rintro rfl; simp at hlog)
  obtain ⟨s, hrun, hheight, happly⟩ := (run_of_produce hx).of_cons
  simp only [map_cons, cons.injEq, mk.injEq] at hlog
  refine ⟨log, s, b, r, s', hrun, hheight, happly, fun e he => ?_, hlog.1.1, hlog.1.2, ?_⟩
  · have hmem := mem_map_of_mem (f := fun e : Block × Result =>
      (e.1.certs, e.2.outcomes.map fun o => (o.id, o.outcome))) he
    rw [hlog.2] at hmem
    simp only [mem_cons, not_mem_nil, or_false, or_self, mk.injEq] at hmem
    exact hmem.1
  · simpa using congrArg length hlog.2

end Sample

end Zycord.Fold
