import Zycord.Fold.Conservation
import Zycord.Lib.Ring

/-!
# The coinbase maturity ring

The ring cells of a state are a function of the chain that led to it: `Run.ring_cells` computes
them from the log with `ringEntry`. A turn of the ring therefore releases the reward of the block
one maturity below and nothing else; `coinbase_maturity_exact` says what the ring holds after
every block of a run and what the block releases.
-/

namespace Zycord.Fold

open List Nat Option U256 Validity
open Journal (Footprint Writes)

section

variable [Crypto] {p : Params} {s s' : State} {b : Block} {r : Result} {log : ChainLog}

/-- The two cells of a place in the ring. -/
def ringCells (s : State) (index : UInt64) : U256 × U256 :=
  (s.get (pendingCoinbaseAddrSlot index), s.get (pendingCoinbaseAmountSlot index))

omit [Crypto] in
/-- The ring entry of a reward; a zero reward leaves no entry. -/
def pendingReward (payee : Address) (reward : U256) : U256 × U256 :=
  if reward = 0 then (0, 0) else (.fromBytes payee, reward)

omit [Crypto] in
/-- What a block puts into the ring. -/
def pendingEntry (e : Block × Result) : U256 × U256 :=
  pendingReward e.1.header.emissionAddr e.2.minerReward

/-! ## One turn -/

/-- Storing a reward changes one cell of the ring. -/
theorem ring_cells_store (hwd : WordsDistinct) (index i : UInt64) (payee : Address) (reward : U256)
    (j : Journal) :
    ringCells (storePending index payee reward j).s i =
      if index = i then pendingReward payee reward else ringCells j.s i := by
  by_cases hi : index = i
  · subst hi
    have hne : pendingCoinbaseAmountSlot index ≠ pendingCoinbaseAddrSlot index := fun heq =>
      WordLabel.noConfusion ((hwd.protocol_slot_eq_iff (l := .coinbaseAmount index)
        (m := .coinbaseAddr index) trivial trivial).mp heq)
    by_cases hzero : reward = 0
    · simp [ringCells, storePending, pendingReward, hzero, State.get_set_of_ne _ _ hne]
    · have hz : reward.isZero = false := by simpa [← is_zero_iff] using hzero
      simp [ringCells, storePending, pendingReward, hzero, hz, State.get_set_of_ne _ _ hne]
  · have hkeep : ∀ l : WordLabel, l.Plain → l ∉ ringLabels index →
        (storePending index payee reward j).s.get (protocolSlot l) = j.s.get (protocolSlot l) :=
      fun l => get_label_of_writes hwd (store_pending_labels index payee reward)
        (ring_labels_plain index)
    rw [if_neg hi]
    exact Prod.ext (hkeep (.coinbaseAddr i) trivial (by simp [ringLabels, Ne.symm hi]))
      (hkeep (.coinbaseAmount i) trivial (by simp [ringLabels, Ne.symm hi]))

/-- Until the ring is rolled its entries are those of the state the block started from. -/
theorem RewardTrace.ring_cells (tr : RewardTrace s b p) (hwd : WordsDistinct) (i : UInt64) :
    ringCells tr.σ₂.j.s i = ringCells s i := by
  have hkeep : ∀ l : WordLabel, l.Plain → l ∉ recordLabels (b.header.height % p.epochLength) →
      l ∉ [.beaconEpoch, .beaconHeight, .beaconEntropy, .seqGasTarget, .citedCount] →
      l ∉ feeLabels → tr.σ₂.j.s.get (protocolSlot l) = s.get (protocolSlot l) := by
    intro l hl hrec hopen hfee
    rw [tr.get_label hwd hl hrec, get_opened_label hwd hl hopen fun _ => hfee]
  exact Prod.ext
    (hkeep (.coinbaseAddr i) trivial (by simp [recordLabels]) (by simp) (by simp [feeLabels]))
    (hkeep (.coinbaseAmount i) trivial (by simp [recordLabels]) (by simp) (by simp [feeLabels]))

theorem BlockTrace.ring_cells_closed (tr : BlockTrace s b p) (hwd : WordsDistinct) (i : UInt64) :
    ringCells tr.closed.s i = if ringIndex b.header p = i then
        pendingReward b.header.emissionAddr tr.σ₂.res.minerReward
      else ringCells s i := by
  have hfees : ∀ l : WordLabel, l.Plain → l ∉ feeLabels →
      tr.closed.s.get (protocolSlot l) = tr.σ₃.j.s.get (protocolSlot l) :=
    fun l => get_label_of_writes hwd (update_base_fees_labels _ _ _ _) fee_labels_plain
  have hclosed : ringCells tr.closed.s i = ringCells tr.σ₃.j.s i :=
    Prod.ext (hfees (.coinbaseAddr i) trivial (by simp [feeLabels]))
      (hfees (.coinbaseAmount i) trivial (by simp [feeLabels]))
  have hmid : ringCells tr.mid.s i = ringCells tr.σ₂.j.s i :=
    Prod.ext (tr.get_mid_label hwd (l := .coinbaseAddr i) trivial)
      (tr.get_mid_label hwd (l := .coinbaseAmount i) trivial)
  rw [hclosed, tr.ring.j, ring_cells_store hwd, hmid, tr.ring_cells hwd]

variable {tr : BlockTrace s b p}

theorem BlockTrace.Yields.miner_reward_eq (hy : tr.Yields r s') :
    r.minerReward = tr.σ₂.res.minerReward := by
  rw [hy.res, tr.ring.res]

/-! ## The ring along a run -/

theorem Run.height_get (h : Run p log s) {i : ℕ} (hi : i < log.length) :
    log[i].1.header.height.toNat = log.length - 1 - i := by
  induction h generalizing i with
  | genesis => simp at hi
  | apply h hheight happly ih =>
    cases i with
    | zero => simpa using hheight
    | succ i =>
      have hi' : i < _ := lt_of_succ_lt_succ hi
      rw [getElem_cons_succ, ih hi', length_cons]
      omega

/-- The ring is what storing the rewards of the chain one after another leaves in it. -/
theorem Run.ring_cells (hwd : WordsDistinct) (h : Run p log s) (i : UInt64) :
    ringCells s i = ringEntry p.coinbaseMaturity.toNat (0, 0) (log.map pendingEntry) i.toNat := by
  induction h with
  | genesis => rfl
  | @apply log s s' b r h hheight happly ih =>
    obtain ⟨tr, hy⟩ := block_trace happly
    have hindex : (ringIndex b.header p).toNat = log.length % p.coinbaseMaturity.toNat := by
      rw [ringIndex, UInt64.toNat_mod, hheight]
    rw [hy.state, tr.ring_cells_closed hwd, ← hy.miner_reward_eq, ih, map_cons, ringEntry,
      length_map, ← hindex]
    simp only [UInt64.toNat_inj]
    rfl

theorem CertRun.of_nil {fs fp tips tips' : U256} {σ σ' : FoldState}
    (h : CertRun p fs fp [] σ tips σ' tips') : σ' = σ ∧ tips' = tips := by
  cases h
  exact ⟨rfl, rfl⟩

/-- A non-zero reward is only paid to a user address. -/
theorem BlockTrace.user_of_reward (hy : tr.Yields r s') (hne : r.minerReward ≠ 0) :
    isUserAddress b.header.emissionAddr = true := by
  by_cases hzero : b.header.height = 0
  · refine absurd ?_ hne
    have hcerts : b.certs = [] := by
      have hgenesis := tr.ok.genesis
      simp only [checkGenesisShape, hzero, ne_eq, not_true_eq_false, if_false, Except.seq_eq_ok,
        invalidIf, reject_if_eq_ok, not_not] at hgenesis
      exact List.length_eq_zero_iff.mp hgenesis.1
    have htips : tr.tips = 0 := by
      have hrun := tr.certs
      rw [hcerts] at hrun
      exact hrun.of_nil.2
    have hgross := tr.reward.gross_eq
    have hemission : (p.emission b.header.height).toNat = 0 := by simp [Params.emission, hzero]
    rw [htips, U256.to_nat_zero] at hgross
    rw [hy.miner_reward_eq, tr.reward.res]
    refine U256.ext ?_
    rw [U256.to_nat_sat_sub, U256.to_nat_zero]
    omega
  · have haddr := tr.ok.emissionAddr
    simpa [checkEmissionAddr, invalidIf, hzero] using haddr

/-! ## What a block releases -/

/-- The ring entry a block finds at its own height. -/
def dueEntry (p : Params) (log : ChainLog) : U256 × U256 :=
  (log.map pendingEntry).getD (p.coinbaseMaturity.toNat - 1) (0, 0)

section

variable (hp : p.Valid) (hwd : WordsDistinct) (h : Run p log s)
  (hheight : b.header.height.toNat = log.length)

include hp hwd h hheight

theorem Run.ring_cells_due : ringCells s (ringIndex b.header p) = dueEntry p log := by
  have hindex : (ringIndex b.header p).toNat =
      (log.map pendingEntry).length % p.coinbaseMaturity.toNat := by
    rw [ringIndex, UInt64.toNat_mod, hheight, List.length_map]
  rw [h.ring_cells hwd, hindex, ring_entry_next hp.coinbaseMaturity_pos]
  rfl

theorem BlockTrace.released (tr : BlockTrace s b p) :
    maturedCell b.header p tr.σ₂.j.s = nativeBalanceSlot (dueEntry p log).1.bytes32 ∧
      tr.matured = (if tr.σ₁.j.s.isSpent (dueEntry p log).1.bytes32 then 0
        else (dueEntry p log).2) ∧
      tr.unpaid =
        if tr.σ₁.j.s.isSpent (dueEntry p log).1.bytes32 then (dueEntry p log).2 else 0 := by
  have hdue : ringCells tr.σ₂.j.s (ringIndex b.header p) = dueEntry p log :=
    (tr.ring_cells hwd _).trans (h.ring_cells_due hp hwd hheight)
  have hcell : maturedCell b.header p tr.σ₂.j.s = nativeBalanceSlot (dueEntry p log).1.bytes32 :=
    congrArg (fun e : U256 × U256 => nativeBalanceSlot e.1.bytes32) hdue
  have hamount : maturedAmount b.header p tr.σ₂.j.s = (dueEntry p log).2 := congrArg Prod.snd hdue
  have hpaid := tr.ring.paid.paid_eq
  rw [tr.is_spent_eq, hcell, hamount] at hpaid
  exact ⟨hcell, hpaid⟩

/-- What the end of a block does with the reward that is due, starting from the state its
certificates left: nothing while no block is old enough; then the whole reward of the block one
maturity below is paid to its payout address, or burned when that address is burned. `forfeit` is
what the burst valve burns in between. -/
def ReleasesDue (p : Params) (log : ChainLog) (σ : FoldState) (forfeit : U256) (r : Result)
    (s' : State) : Prop :=
  match log[p.coinbaseMaturity.toNat - 1]? with
  | none =>
    r.matured = 0 ∧ r.burned.toNat = σ.res.burned.toNat + forfeit.toNat ∧
      ∀ slot : Slot, slot.addr ≠ protocolAddress → s'.get slot = σ.j.s.get slot
  | some (b₀, r₀) =>
    if σ.j.s.isSpent b₀.header.emissionAddr then
      r.matured = 0 ∧ r.burned.toNat = σ.res.burned.toNat + forfeit.toNat + r₀.minerReward.toNat ∧
        ∀ slot : Slot, slot.addr ≠ protocolAddress → s'.get slot = σ.j.s.get slot
    else
      r.matured = r₀.minerReward ∧ r.burned.toNat = σ.res.burned.toNat + forfeit.toNat ∧
        ∀ slot : Slot, slot.addr ≠ protocolAddress → (s'.get slot).toNat = (σ.j.s.get slot).toNat +
            if slot = nativeBalanceSlot b₀.header.emissionAddr then r₀.minerReward.toNat else 0

/-- A block releases the reward that came due and stores its own. -/
theorem BlockTrace.releases_due (hy : tr.Yields r s') :
    ReleasesDue p log tr.σ₁
      (burstForfeit p (currentSeqGasTarget s p b.header.height) tr.σ₁.res.seqGasUsed tr.gross) r
      s' := by
  obtain ⟨hcell, hmatured, hunpaid⟩ := tr.released hp hwd h hheight
  have hreward : tr.σ₂.res.burned.toNat = tr.σ₁.res.burned.toNat + (burstForfeit p
    (currentSeqGasTarget s p b.header.height) tr.σ₁.res.seqGasUsed tr.gross).toNat :=
      tr.reward.burned
  have hring := tr.ring.burned
  have hresult : r.matured = tr.matured := by rw [hy.res]
  have hget : ∀ slot : Slot, slot.addr ≠ protocolAddress → (s'.get slot).toNat =
      (tr.σ₁.j.s.get slot).toNat +
        if slot = nativeBalanceSlot (dueEntry p log).1.bytes32 then tr.matured.toNat else 0 := by
    intro slot haddr
    rw [hy.state, tr.get_closed haddr, hcell]
  -- an entry of zero is paid to nobody
  have hnone : dueEntry p log = (0, 0) → tr.matured = 0 ∧ tr.unpaid = 0 ∧
      ∀ slot : Slot, slot.addr ≠ protocolAddress → s'.get slot = tr.σ₁.j.s.get slot := by
    intro hdue
    rw [hdue, ite_self] at hmatured hunpaid
    refine ⟨hmatured, hunpaid, fun slot haddr => ext ?_⟩
    rw [hget slot haddr, hmatured, to_nat_zero, ite_self, add_zero]
  have hentry : dueEntry p log =
      ((log[p.coinbaseMaturity.toNat - 1]?).map pendingEntry).getD (0, 0) := by
    rw [dueEntry, getD_eq_getElem?_getD, getElem?_map]
  unfold ReleasesDue
  rw [hresult, hy.burned_eq]
  cases hlog : log[p.coinbaseMaturity.toNat - 1]? with
  | none =>
    rw [hlog] at hentry
    obtain ⟨hm, hu, hkeep⟩ := hnone hentry
    rw [hu, to_nat_zero] at hring
    exact ⟨hm, by omega, hkeep⟩
  | some e =>
    obtain ⟨b₀, r₀⟩ := e
    rw [hlog, map_some, getD_some, pendingEntry, pendingReward] at hentry
    dsimp only at hentry ⊢
    by_cases hzero : r₀.minerReward = 0
    · rw [if_pos hzero] at hentry
      obtain ⟨hm, hu, hkeep⟩ := hnone hentry
      rw [hu, to_nat_zero] at hring
      rw [hzero, to_nat_zero]
      split
      · exact ⟨hm, by omega, hkeep⟩
      · exact ⟨hm, by omega, fun slot haddr => by rw [hkeep slot haddr, ite_self, add_zero]⟩
    · rw [if_neg hzero] at hentry
      have hpayee : (dueEntry p log).1.bytes32 = b₀.header.emissionAddr := by
        rw [hentry, bytes32_from_bytes]
      have hamount : (dueEntry p log).2 = r₀.minerReward := by rw [hentry]
      rw [hpayee, hamount] at hmatured hunpaid
      rw [hpayee] at hget
      split_ifs with hspent
      · rw [if_pos hspent] at hmatured hunpaid
        rw [hunpaid] at hring
        refine ⟨hmatured, by omega, fun slot haddr => ext ?_⟩
        rw [hget slot haddr, hmatured, to_nat_zero, ite_self, add_zero]
      · rw [if_neg hspent] at hmatured hunpaid
        rw [hunpaid, to_nat_zero] at hring
        exact ⟨hmatured, by omega, fun slot haddr => hmatured ▸ hget slot haddr⟩

end

/-- Coinbase maturity is exact along every run under accepted parameters. After a block, the ring
holds the entries of the newest blocks, one maturity of them, at the indices of their heights, and
nothing else. The block itself releases the reward of the block one maturity below: it is paid to
that block's payout address or, when the address is burned at that point, burned; no other reward
is released. -/
theorem coinbase_maturity_exact (hwd : WordsDistinct) (hp : p.validate = .ok ())
    (hrun : Run p log s) (hheight : b.header.height.toNat = log.length)
    (happly : applyBlock s b p = (.ok r, s')) :
    (∀ e ∈ ((b, r) :: log).take p.coinbaseMaturity.toNat,
      ringCells s' (e.1.header.height % p.coinbaseMaturity) = pendingEntry e) ∧
    (∀ index, (∀ e ∈ ((b, r) :: log).take p.coinbaseMaturity.toNat,
      e.1.header.height % p.coinbaseMaturity ≠ index) → ringCells s' index = (0, 0)) ∧
    (∀ e, log[p.coinbaseMaturity.toNat - 1]? = some e →
      e.1.header.height.toNat + p.coinbaseMaturity.toNat = b.header.height.toNat) ∧
    ∀ tips σ, applyCerts p (openedFees b.header p s).1 (openedFees b.header p s).2
        (foldOrder (carry b.certs)) ⟨opened b.header p s, Result.empty⟩ = (.ok tips, σ) →
      ∀ gross : U256, gross.toNat + (treasuryShare p b.header.height).toNat =
          (p.emission b.header.height).toNat + tips.toNat →
        ReleasesDue p log σ (burstForfeit p (currentSeqGasTarget s p b.header.height)
          σ.res.seqGasUsed gross) r s' ∧
        ∀ a, s'.isSpent a = σ.j.s.isSpent a := by
  have hvalid := Params.valid_of_validate hp
  have hnext : Run p ((b, r) :: log) s' := hrun.apply hheight happly
  have hcells := hnext.ring_cells hwd
  obtain ⟨tr, hy⟩ := block_trace happly
  -- position `i` of the chain is stored at the index of its height
  have hindex : ∀ i (hi : i < ((b, r) :: log).length),
      (((b, r) :: log)[i].1.header.height % p.coinbaseMaturity).toNat =
        (((b, r) :: log).length - 1 - i) % p.coinbaseMaturity.toNat := by
    intro i hi
    rw [UInt64.toNat_mod, hnext.height_get hi]
  refine ⟨fun e he => ?_, fun index habsent => ?_, fun e he => ?_,
    fun tips σ hcerts gross hgross => ?_⟩
  · obtain ⟨i, hi, rfl⟩ := List.mem_take_iff_getElem.mp he
    rw [hcells, hindex i (by omega)]
    rw [← List.length_map pendingEntry]
    refine ring_entry_get ?_ (by omega)
    rw [List.getElem?_map, List.getElem?_eq_getElem (by omega), Option.map_some]
  · rw [hcells]
    refine ring_entry_of_absent hvalid.coinbaseMaturity_pos fun i hi hlt heq => ?_
    rw [List.length_map] at hi heq
    refine habsent _ (List.mem_take_iff_getElem.mpr ⟨i, by omega, rfl⟩) (UInt64.toNat_inj.mp ?_)
    rw [hindex i hi, heq]
  · obtain ⟨hi, rfl⟩ := List.getElem?_eq_some_iff.mp he
    rw [hrun.height_get hi]
    have hpos := hvalid.coinbaseMaturity_pos
    omega
  · obtain ⟨rfl, rfl⟩ : tr.tips = tips ∧ tr.σ₁ = σ := by
      have hsame := tr.run.symm.trans hcerts
      simpa using hsame
    obtain rfl : tr.gross = gross := U256.ext (by have := tr.reward.gross_eq; omega)
    exact ⟨tr.releases_due hvalid hwd hrun hheight hy,
      fun a => by rw [hy.state, tr.is_spent_closed]⟩

end

section Sample

open Sample

attribute [local instance] Reference.crypto

/-- The block of the executed chain that carries a payment leaves its own reward in the ring and
releases the one of the block below. -/
theorem sample_coinbase_maturity_exact :
    ∃ log s b r s', Run params log s ∧ b.header.height.toNat = log.length ∧
      applyBlock s b params = (.ok r, s') ∧ b.certs = [payment] ∧
      ringCells s' (b.header.height % params.coinbaseMaturity) = pendingEntry (b, r) ∧
      ∀ tips σ, applyCerts params (openedFees b.header params s).1 (openedFees b.header params s).2
          (foldOrder (carry b.certs)) ⟨opened b.header params s, Result.empty⟩ = (.ok tips, σ) →
        ∀ gross : U256, gross.toNat + (treasuryShare params b.header.height).toNat =
            (params.emission b.header.height).toNat + tips.toNat →
          ReleasesDue params log σ (burstForfeit params
            (currentSeqGasTarget s params b.header.height) σ.res.seqGasUsed gross) r s' := by
  obtain ⟨log, s, b, r, s', hrun, hheight, happly, -, hcerts, -⟩ := payment_applies
  obtain ⟨hring, -, -, hrelease⟩ :=
    coinbase_maturity_exact Reference.words_distinct params_validate hrun hheight happly
  have hmem : (b, r) ∈ ((b, r) :: log).take params.coinbaseMaturity.toNat := mem_cons_self
  exact ⟨log, s, b, r, s', hrun, hheight, happly, hcerts, hring (b, r) hmem,
    fun tips σ hrun gross hgross => (hrelease tips σ hrun gross hgross).1⟩

end Sample

end Zycord.Fold
