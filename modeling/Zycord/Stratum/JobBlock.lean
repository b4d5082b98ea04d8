import Zycord.Fold.Coinbase
import Zycord.Stratum.Session

/-!
# The blocks of jobs

A job is a template of the assembler with the login's payout written over the node's own, after the
roots were filled in (`newJob` in `node/stratum/conn.go`). The fold keeps the payout of a block in
the state, in the entry of the coinbase ring at its height, so a state root that was filled in for
one payout is not that of another (`dry_run_ring`). `job_block_accepted_iff` says which job blocks
are accepted: those between epoch boundaries, those that pay to the node's own address, and those
that pay nothing.
-/

namespace Zycord.Stratum

open Except Fold Miner

section

variable [Crypto] {p : Params} {s : State} {b : Block} {payout : Address} {m : Producer}
  {v : View}

/-! ## The block of a share -/

/-- A template as a share turns it into a block: paid to the login's address, under a proof of
work. -/
def sealedJob (b : Block) (payout : Address) (nonce extraNonce : UInt32) (powHash : Hash) : Block :=
  let job := stampPayout b payout
  { job with header := { sealNonce job.header nonce extraNonce with powHash } }

omit [Crypto] in
/-- A resolved payout is a user address. -/
theorem resolve_payout_user {fallback : Address} {login : String}
    (h : resolvePayout fallback login = .ok payout)
    (hfallback : fallback ≠ 0 → isUserAddress fallback = true) : isUserAddress payout = true := by
  unfold resolvePayout at h
  dsimp only at h
  split at h
  · split at h
    · cases h
    · rename_i hne
      obtain rfl := ok.inj h
      exact hfallback hne
  · unfold parseAddress at h
    split at h
    · cases h
    · split at h
      · cases h
      · split at h
        · cases h
        · rename_i hversion
          obtain rfl := ok.inj h
          simp only [ne_eq, not_not] at hversion
          simp [isUserAddress, hversion]

omit [Crypto] in
theorem same_rules_sealed_job (nonce extraNonce : UInt32) (powHash : Hash) :
    SameRules p (stampPayout b payout).header
      (sealedJob b payout nonce extraNonce powHash).header :=
  ⟨rfl, rfl, rfl, rfl, rfl, rfl, rfl, rfl, fun _ => rfl⟩

/-- A sealed job is accepted when it folds to its own root. -/
theorem sealed_job_accepted_iff (nonce extraNonce : UInt32) (powHash : Hash) :
    (∃ r s', applyBlock s (sealedJob b payout nonce extraNonce powHash) p = (.ok r, s')) ↔
      (∃ r, sealOutcomes s (stampPayout b payout) p = .ok r) ∧
        (p.isEpochBoundary b.header.height = true →
          sealStateRoot s (stampPayout b payout) p = .ok b.header.stateRoot) := by
  have hcerts : (sealedJob b payout nonce extraNonce powHash).certs =
      (stampPayout b payout).certs := rfl
  have hcites : (sealedJob b payout nonce extraNonce powHash).cites =
      (stampPayout b payout).cites := rfl
  have hsame : SameRules p (stampPayout b payout).header
      (sealedJob b payout nonce extraNonce powHash).header := same_rules_sealed_job ..
  constructor
  · intro haccepted
    obtain ⟨r, s', happly⟩ := haccepted
    obtain ⟨hdry, hroot⟩ := apply_block_eq_ok_iff.mp happly
    have hjob := apply_dry_congr hcerts.symm hcites.symm hsame.symm hdry
    refine ⟨⟨r, by rw [sealOutcomes, hjob]⟩, fun hb => ?_⟩
    rw [sealStateRoot, hjob]
    exact congrArg ok (hroot hb).symm
  · intro hjob
    obtain ⟨⟨r, houtcomes⟩, hroot⟩ := hjob
    cases hdry : apply s (stampPayout b payout) p false with
    | mk result s' =>
      obtain rfl : result = .ok r := by rw [sealOutcomes, hdry] at houtcomes; exact houtcomes
      have hsealed := apply_dry_congr hcerts hcites hsame hdry
      refine ⟨r, s', apply_block_eq_ok_iff.mpr ⟨hsealed, fun hb => ?_⟩⟩
      have hfold := hroot hb
      rw [sealStateRoot, hdry] at hfold
      exact (ok.inj hfold).symm

/-! ## Jobs on a chain -/

/-- A snapshot of a chain under accepted parameters, with valid candidates of different ids in the
pool, and sums and sizes that stay within the machine's integers. -/
structure OnChain (m : Miner.Producer) (v : Miner.View) (p : Params) : Prop where
  words : WordsDistinct
  params : p.validate = .ok ()
  gas : Miner.GasFits p
  run : ∃ log : ChainLog, Run p log v.state ∧ (log.head?.map fun e => e.1.header) = some v.tip ∧
    log.length < 2 ^ 64 ∧
    ∑ h ∈ Finset.range (log.length + 1), (p.emission (.ofNat h)).toNat < 2 ^ 256
  tip : v.tip.id ≠ 0
  valid : ∀ c ∈ m.pool, Validity.check c p = .ok ()
  nodup : (m.pool.map Certificate.id).Nodup
  sizes : Miner.SizesFit p m.pool

theorem OnChain.buildable (h : OnChain m v p) (hpayout : isUserAddress payout = true) :
    Buildable { m with payout } v p := by
  obtain ⟨log, hrun, htip, hlength, hemission⟩ := h.run
  exact .of_run h.words h.params h.gas hrun htip hlength hemission hpayout h.tip h.valid h.nodup
    h.sizes

theorem OnChain.stamped_ok (h : OnChain m v p) (hb : assemble m v p = .ok b)
    (hpayout : isUserAddress payout = true) : BlockOK v.state (stampPayout b payout) p := by
  have hbuild := h.buildable hpayout
  obtain ⟨now, target, certs, hsub, hcerts, hfill⟩ := assemble_eq_ok hb
  -- the candidate of the payout has the same certificates, and can carry the same ones
  have hpacked := (hbuild.packed now target).sublist hsub
  have hwrapped := (hbuild.ready now target).wrapped hbuild.params hbuild.target hpacked
  have hok := hwrapped.block_ok fun c hc => (hcerts c hc).of_height rfl
  rcases fill_root_eq_ok hfill with ⟨-, rfl⟩ | ⟨hboundary, root, -, rfl⟩
  · exact hok
  · refine hok.congr rfl rfl ⟨rfl, rfl, rfl, rfl, rfl, rfl, rfl, rfl, fun hno => ?_⟩
    exact absurd hboundary (by rw [Bool.not_eq_true]; exact hno)

theorem OnChain.stamped_dry_run (h : OnChain m v p) (hb : assemble m v p = .ok b)
    (hpayout : isUserAddress payout = true) :
    ∃ r, sealOutcomes v.state (stampPayout b payout) p = .ok r := by
  have hbuild := h.buildable hpayout
  have hheight : (stampPayout b payout).header.height = v.tip.height + 1 := by
    obtain ⟨now, target, certs, -, -, hfill⟩ := assemble_eq_ok hb
    rcases fill_root_eq_ok hfill with ⟨-, rfl⟩ | ⟨-, root, -, rfl⟩ <;> rfl
  obtain ⟨r, s', hdry⟩ := (h.stamped_ok hb hpayout).dry_run hbuild.params h.words
    (by rw [hheight]; exact hbuild.supply) (Or.inr hbuild.target)
  exact ⟨r, by rw [sealOutcomes, hdry]⟩

/-- Under the producer's own payout the boundary root is right. -/
theorem sealed_for_own_payout (hb : assemble m v p = .ok b)
    (hboundary : p.isEpochBoundary b.header.height = true) :
    sealStateRoot v.state (stampPayout b m.payout) p = .ok b.header.stateRoot := by
  obtain ⟨now, target, certs, -, -, hfill⟩ := assemble_eq_ok hb
  have hpaid : m.payout =
      (withCerts (candidate m v p now target) p certs).header.emissionAddr := rfl
  rcases fill_root_eq_ok hfill with ⟨hno, rfl⟩ | ⟨-, root, hroot, rfl⟩
  · rw [hno] at hboundary
    cases hboundary
  · generalize withCerts (candidate m v p now target) p certs = trial
      at hroot hboundary hpaid
    have hsame : SameRules p trial.header (stampPayout (withRoot trial root) m.payout).header :=
      ⟨rfl, rfl, rfl, rfl, rfl, hpaid, rfl, rfl, fun hno => absurd hboundary
        (by rw [Bool.not_eq_true]; exact hno)⟩
    have hcerts : (stampPayout (withRoot trial root) m.payout).certs = trial.certs := rfl
    have hcites : (stampPayout (withRoot trial root) m.payout).cites = trial.cites := rfl
    cases hdry : apply v.state trial p false with
    | mk result s' =>
      rw [sealStateRoot, hdry] at hroot
      cases result with
      | error e => cases hroot
      | ok r =>
        rw [sealStateRoot, apply_dry_congr hcerts hcites hsame hdry]
        exact hroot

/-! ## The ring entry of a payout -/

/-- A dry run at an epoch boundary ends with the root of its state, and its state names the payout
and the reward of the block in the coinbase ring. -/
theorem dry_run_ring {r : Result} {s' : State} (hwd : WordsDistinct)
    (hdry : Fold.apply s b p false = (.ok r, s'))
    (hboundary : p.isEpochBoundary b.header.height = true) :
    r.stateRoot = s'.root ∧
      ringCells s' (ringIndex b.header p) = pendingReward b.header.emissionAddr r.minerReward := by
  -- the block with the root of its dry run is accepted
  have hsame : SameRules p b.header (withRoot b r.stateRoot).header :=
    ⟨rfl, rfl, rfl, rfl, rfl, rfl, rfl, rfl, fun hno => absurd hboundary (by simp [hno])⟩
  have hcerts : (withRoot b r.stateRoot).certs = b.certs := rfl
  have hcites : (withRoot b r.stateRoot).cites = b.cites := rfl
  have happly : applyBlock s (withRoot b r.stateRoot) p = (.ok r, s') :=
    apply_block_eq_ok_iff.mpr ⟨apply_dry_congr hcerts hcites hsame hdry, fun _ => rfl⟩
  obtain ⟨tr, hy⟩ := block_trace happly
  refine ⟨hy.root hboundary, ?_⟩
  have hring := tr.ring_cells_closed hwd (ringIndex b.header p)
  rw [← hy.state, ← hy.miner_reward_eq] at hring
  exact hring.trans (if_pos rfl)

omit [Crypto] in
theorem pending_reward_inj {payee payee' : Address} {reward reward' : U256}
    (h : pendingReward payee reward = pendingReward payee' reward') :
    payee = payee' ∨ reward = 0 := by
  by_cases hzero : reward = 0
  · exact .inr hzero
  · left
    rw [pendingReward, if_neg hzero, pendingReward] at h
    split at h
    · exact absurd (Prod.mk.inj h).2 hzero
    · have hbytes := congrArg U256.bytes32 (Prod.mk.inj h).1
      simpa using hbytes

theorem zero_reward_dry_run {r : Result} {s' : State} (hdry : Fold.apply s b p false = (.ok r, s'))
    (hzero : r.minerReward = 0) (hok : BlockOK s (stampPayout b payout) p) :
    Fold.apply s (stampPayout b payout) p false = (.ok r, s') := by
  obtain ⟨-, σ, hσ, rfl, rfl⟩ := apply_eq_ok_iff.mp hdry
  exact apply_eq_ok_iff.mpr ⟨hok, σ, transition_zero_reward hσ hzero payout, rfl, rfl⟩

/-- The states that a template leads to under two payouts have the same root only if they have the
same cells. -/
def RootsTellApart (s : State) (b : Block) (p : Params) (payout payout' : Address) : Prop :=
  (Fold.apply s (stampPayout b payout) p false).2.root =
      (Fold.apply s (stampPayout b payout') p false).2.root →
    (Fold.apply s (stampPayout b payout) p false).2.cells =
      (Fold.apply s (stampPayout b payout') p false).2.cells

/-- Two dry runs of a boundary template with one root pay to one address, or pay nothing: the ring
entry of the block is the same. -/
theorem payout_of_same_root {payout' : Address} {r r' : Result} {s₁ s₂ : State}
    (hwd : WordsDistinct) (hroots : RootsTellApart s b p payout payout')
    (hdry : Fold.apply s (stampPayout b payout) p false = (.ok r, s₁))
    (hdry' : Fold.apply s (stampPayout b payout') p false = (.ok r', s₂))
    (hboundary : p.isEpochBoundary b.header.height = true) (hroot : r.stateRoot = r'.stateRoot) :
    payout = payout' ∨ r.minerReward = 0 := by
  obtain ⟨hs₁, hring⟩ := dry_run_ring hwd hdry hboundary
  obtain ⟨hs₂, hring'⟩ := dry_run_ring hwd hdry' hboundary
  rw [RootsTellApart, hdry, hdry'] at hroots
  have hcells : s₁.cells = s₂.cells := hroots (by rw [← hs₁, ← hs₂, hroot])
  have hsame : ringCells s₁ (ringIndex b.header p) = ringCells s₂ (ringIndex b.header p) := by
    simp only [ringCells, State.get, hcells]
  exact pending_reward_inj (hring.symm.trans (hsame.trans hring'))

/-- On a snapshot of a chain, and for every template, login and proof of work, the job block is
accepted exactly when it is not at an epoch boundary, or the login pays to the node's own address,
or the block pays nothing at all. Otherwise its state names the login's address in the coinbase ring
where the sealed root has the node's. -/
theorem job_block_accepted_iff {fallback : Address} {login : String} (hchain : OnChain m v p)
    (hb : Miner.assemble m v p = .ok b) (hlogin : resolvePayout fallback login = .ok payout)
    (hfallback : fallback ≠ 0 → isUserAddress fallback = true)
    (hroots : RootsTellApart v.state b p payout m.payout) (nonce extraNonce : UInt32)
    (powHash : Hash) :
    (∃ r s', applyBlock v.state (sealedJob b payout nonce extraNonce powHash) p = (.ok r, s')) ↔
      p.isEpochBoundary b.header.height = false ∨ payout = m.payout ∨
        ∃ r, sealOutcomes v.state (stampPayout b payout) p = .ok r ∧ r.minerReward = 0 := by
  have hpayout := resolve_payout_user hlogin hfallback
  obtain ⟨r, hr⟩ := hchain.stamped_dry_run hb hpayout
  obtain ⟨s', hdry⟩ : ∃ s', Fold.apply v.state (stampPayout b payout) p false = (.ok r, s') :=
    ⟨_, Prod.ext hr rfl⟩
  rw [sealed_job_accepted_iff]
  cases hboundary : p.isEpochBoundary b.header.height with
  | false => exact ⟨fun _ => .inl rfl, fun _ => ⟨⟨r, hr⟩, nofun⟩⟩
  | true =>
    have hown := sealed_for_own_payout hb hboundary
    obtain ⟨r₀, hr₀, hroot₀⟩ := map_eq_ok.mp hown
    obtain ⟨s₀, hdry₀⟩ : ∃ s₀, Fold.apply v.state (stampPayout b m.payout) p false = (.ok r₀, s₀) :=
      ⟨_, Prod.ext hr₀ rfl⟩
    have hroot : sealStateRoot v.state (stampPayout b payout) p = .ok r.stateRoot := by
      rw [sealStateRoot, hdry]
      rfl
    rw [hroot]
    constructor
    · rintro ⟨-, haccepted⟩
      have hsame := ok.inj (haccepted rfl)
      rw [← hroot₀] at hsame
      rcases payout_of_same_root hchain.words hroots hdry hdry₀ hboundary hsame with hsame | hzero
      · exact .inr (.inl hsame)
      · exact .inr (.inr ⟨r, hr, hzero⟩)
    · rintro (hno | rfl | ⟨r', hr', hzero⟩)
      · cases hno
      · exact ⟨⟨r, hr⟩, fun _ => hroot.symm.trans hown⟩
      · obtain rfl : r = r' := ok.inj (hr.symm.trans hr')
        have hok₀ : BlockOK v.state (stampPayout b m.payout) p := (apply_eq_ok_iff.mp hdry₀).1
        have hsame := zero_reward_dry_run hdry hzero hok₀
        obtain rfl : r = r₀ := ok.inj (congrArg Prod.fst (hsame.symm.trans hdry₀))
        exact ⟨⟨r, hr⟩, fun _ => by rw [hroot₀]⟩

end

section

/-! ## A boundary block -/

open Miner.Sample Fold.Sample Reference

attribute [local instance] Reference.crypto

namespace Sample

/-- Epochs of three blocks. -/
def shortEpochs : Params := { solo with epochLength := 3 }

/-- The login of a miner that is paid to the second user. -/
def login : String := "02" ++ "00000000000000000000000000000000000000000000000000000000" ++ "04d402"

end Sample

open Sample

theorem on_chain_sample {p : Params} (hp : p.validate = .ok ())
    (hcap : p.certListCapacity.toInt ≤ 1) {log : ChainLog} {v : View}
    (hrun : Run p log v.state)
    (htip : (log.head?.map fun e => e.1.header) = some v.tip) (hlen : log.length = 3)
    (hid : v.tip.id ≠ 0)
    (hemission : ∑ h ∈ Finset.range 4, (p.emission (.ofNat h)).toNat < 2 ^ 256)
    (hvalid : ∀ c ∈ producer.pool, Validity.check c p = .ok ())
    (hsizes : SizesFit p producer.pool) : OnChain producer v p where
  words := words_distinct
  params := hp
  gas := gas_fits_of_single hcap
  run := ⟨log, hrun, htip, by rw [hlen]; decide, by rw [hlen]; exact hemission⟩
  tip := hid
  valid := hvalid
  nodup := by decide +kernel
  sizes := hsizes

/-- The candidate is accepted and its job block is refused for its state root. -/
def refusesJob (v : Miner.View) : Bool :=
  match Miner.assemble producer v shortEpochs with
  | .ok b =>
    match applyBlock v.state b shortEpochs,
        (applyBlock v.state (sealedJob b (user 2) 7 1 0) shortEpochs).1 with
    | (.ok _, _), .error e =>
      decide (e = .invalid .F14 "state root mismatch at epoch boundary height 3")
    | _, _ => false
  | _ => false

/-- At an epoch boundary the job block of a miner that is not paid to the node's own address is
refused, although the template itself would be accepted. -/
theorem boundary_job_refused : ∃ v b, OnChain producer v shortEpochs ∧
    Miner.assemble producer v shortEpochs = .ok b ∧
    resolvePayout producer.payout login = .ok (user 2) ∧
    (∃ r s', applyBlock v.state b shortEpochs = (.ok r, s')) ∧
    (applyBlock v.state (sealedJob b (user 2) 7 1 0) shortEpochs).1 =
      .error (.invalid .F14 "state root mismatch at epoch boundary height 3") := by
  obtain ⟨log, v, hrun, htip, hlen, hid, htest⟩ := exists_chain (p := shortEpochs)
    refusesJob (by decide +kernel)
  have hchain := on_chain_sample (by decide +kernel) (by decide) hrun htip hlen hid
    (by decide +kernel) (by decide +kernel) (by unfold SizesFit; decide +kernel)
  unfold refusesJob at htest
  split at htest
  · rename_i b hb
    split at htest
    · rename_i r s' e hown hjob
      rw [of_decide_eq_true htest] at hjob
      exact ⟨v, b, hchain, hb, by decide +kernel, ⟨r, s', hown⟩, hjob⟩
    · cases htest
  · cases htest

/-- Between epoch boundaries it is accepted. -/
theorem sample_job_block_accepted : ∃ v b r s', Miner.assemble producer v solo = .ok b ∧
    b.header.emissionAddr = user 1 ∧
    applyBlock v.state (sealedJob b (user 2) 7 1 0) solo = (.ok r, s') := by
  obtain ⟨log, v, hrun, htip, hlen, hid, htest⟩ := exists_chain (p := solo)
    (fun v => match assemble producer v solo with
      | .ok b => decide (solo.isEpochBoundary b.header.height = false ∧
          b.header.emissionAddr = user 1 ∧
          (Fold.apply v.state (stampPayout b (user 2)) solo false).2.root ≠
            (Fold.apply v.state (stampPayout b producer.payout) solo false).2.root)
      | _ => false) (by decide +kernel)
  have hchain := on_chain_sample (by decide +kernel) (by decide) hrun htip hlen hid
    (by decide +kernel) (by decide +kernel) (by unfold SizesFit; decide +kernel)
  split at htest
  · rename_i b hb
    obtain ⟨hboundary, hpaid, hroots⟩ := of_decide_eq_true htest
    have hlogin : resolvePayout producer.payout login = .ok (user 2) := by decide +kernel
    obtain ⟨r, s', haccepted⟩ := (job_block_accepted_iff hchain hb hlogin
      (fun _ => by decide +kernel) (fun heq => absurd heq hroots) 7 1 0).mpr (Or.inl hboundary)
    exact ⟨v, b, r, s', hb, hpaid, haccepted⟩
  · cases htest

end

end Zycord.Stratum
