import Mathlib.Algebra.Order.BigOperators.Group.Finset
import Zycord.Fold.Conservation
import Zycord.Fold.Fees

/-!
# No conservation assertion is reachable

The fold guards every sum it forms with an assertion that names no rule. While the schedule stays
below 2^256 none of them can fire: the supply bounds every balance, burn, tip and reward
(`Run.native_total_le`), the deposit rule and the base-fee rule bound every charge by its deposit
(`fees_of_ceiling`), and the burst bound keeps the forfeiture within the reward.
`assertions_unreachable` puts the exits of a block together.
-/

namespace Zycord.Fold

open Validity
open Journal (Footprint Writes)

/-! ## Charges and deposits -/

section Certificate

variable [Crypto] {c : Certificate} {id : Hash} {p : Params} {fs fp : U256} {j : Journal}
  {outcome : Outcome} {fees : FeeSplit} {sweep : Sweep} {burned : U256} {e : FoldError}

theorem Prepared.charge_le (hc : ValidCert c p) (hseq : fs ≤ c.feeBid.seqMax)
    (hpar : fp ≤ c.feeBid.parMax) (h : Prepared c p fs fp j outcome fees sweep) :
    fees.charge.toNat ≤ c.deposit.amount.toNat := by
  obtain ⟨ceiling, hceil, hcover⟩ := hc.covered
  have hcover' := U256.le_def.mp hcover
  cases h with
  | stale | unstaged => exact (skip_fee_le_ceiling hceil).trans hcover'
  | applied fees _ _ hfees =>
    obtain ⟨fees', hfees', hle⟩ := fees_of_ceiling hseq hpar hceil
    obtain rfl := Option.some.inj (hfees.symm.trans hfees')
    exact hle.trans hcover'

/-- A valid certificate at fees it can pay never breaks conservation. -/
theorem CertFailure.false (hwd : WordsDistinct) (hc : ValidCert c p)
    (hseq : fs ≤ c.feeBid.seqMax) (hpar : fp ≤ c.feeBid.parMax)
    (hbound : wordSum (balanceWord nativeAsset) j.s + burned.toNat < 2 ^ 256)
    (h : CertFailure c p fs fp j burned e) : False := by
  cases h with
  | notUser huser => simp [hc.deposit_user] at huser
  | noFees _ hnone =>
    obtain ⟨ceiling, hceil, -⟩ := hc.covered
    obtain ⟨fees, hfees, -⟩ := fees_of_ceiling hseq hpar hceil
    rw [hnone] at hfees
    simp at hfees
  | @unsettled outcome fees sweep hf hp hcases what =>
    have hle := hp.charge_le hc hseq hpar
    have hsplit := hp.charge_eq
    -- the deposit is out of the balances, and the refund goes back to one of them
    have hsum := hp.word_sum hwd hc native_is_asset_id hf
    have hcell := get_le_word_sum (s := sweep.j.s) c.deposit.refundTo hc.refund_native
    rw [mintedBy, hc.shape.minted_on_native, ite_self] at hsum
    simp only [onWord, hc.deposit_native, if_true] at hsum
    rcases hcases with hlt | hburn | ⟨refund, hrefund, hover | hover⟩ <;> omega

theorem NextFailure.false (hwd : WordsDistinct) {cy : Carried} {σ : FoldState} {tips : U256}
    (hc : ValidCert cy.cert p) (hseq : fs ≤ cy.cert.feeBid.seqMax)
    (hpar : fp ≤ cy.cert.feeBid.parMax)
    (hbound : wordSum (balanceWord nativeAsset) σ.j.s + σ.res.burned.toNat + tips.toNat < 2 ^ 256)
    (h : NextFailure p fs fp tips cy σ e) : False := by
  rcases h with hfail | ⟨-, out, tip, j, burned, hstep, hover⟩
  · exact hfail.false hwd hc hseq hpar (by omega)
  · have hsum := hstep.native_sum hwd hc
    omega

end Certificate

/-! ## The rules themselves -/

section Rules

variable {α β : Type}

/-- A check that fails under a rule, if it fails. -/
def Ruled (x : Except FoldError α) : Prop := ∀ e, x = .error e → e.rule.isSome = true

theorem Ruled.ok (a : α) : Ruled (.ok a) := fun e h => by simp at h

theorem Ruled.invalidIf (c : Prop) [Decidable c] (rule : Rule) (msg : String) :
    Ruled (invalidIf c rule msg) := by
  intro e h
  unfold Fold.invalidIf rejectIf at h
  split at h
  · cases h
    rfl
  · simp at h

theorem Ruled.invalidCertIf (c : Prop) [Decidable c] (i : ℕ) (rule : Rule) (msg : String) :
    Ruled (invalidCertIf c i rule msg) := by
  intro e h
  unfold Fold.invalidCertIf rejectIf at h
  split at h
  · cases h
    rfl
  · simp at h

theorem Ruled.bind {x : Except FoldError α} {f : α → Except FoldError β} (hx : Ruled x)
    (hf : ∀ a, Ruled (f a)) : Ruled (x >>= f) := by
  intro e h
  cases x with
  | error e' =>
    obtain rfl : e' = e := by simpa [Bind.bind, Except.bind] using h
    exact hx e' rfl
  | ok a => exact hf a e h

theorem Ruled.invalid_if_bind {c : Prop} [Decidable c] {rule : Rule} {msg : String}
    {x : Except FoldError α} (hx : Ruled x) : Ruled (do Fold.invalidIf c rule msg; x) :=
  (Ruled.invalidIf c rule msg).bind fun _ => hx

theorem Ruled.ite (c : Prop) [Decidable c] {x y : Except FoldError α} (hx : Ruled x)
    (hy : Ruled y) : Ruled (if c then x else y) := by
  split
  · exact hx
  · exact hy

theorem Ruled.checkEach {xs : List α} {f : α → Except FoldError Unit} (hf : ∀ x, Ruled (f x)) :
    Ruled (checkEach xs f) := by
  induction xs with
  | nil => exact Ruled.ok ()
  | cons x rest ih => exact (hf x).bind fun _ => ih

variable [Crypto]

theorem check_cites_ruled (s : State) (b : Block) : Ruled (checkCites s b) := by
  have hfrom : ∀ (cites : List Header) (last : Option Hash) (i : ℕ),
      Ruled (checkCitesFrom s b.header last i cites) := by
    intro cites
    induction cites with
    | nil => exact fun _ _ => Ruled.ok ()
    | cons cited rest ih =>
      intro last i
      refine Ruled.bind ?_ fun _ => ih _ _
      exact .invalid_if_bind <| .invalid_if_bind <| .invalid_if_bind <| .invalid_if_bind <|
        .invalid_if_bind <| .invalidIf _ _ _
  exact Ruled.ite _ (Ruled.invalidIf _ _ _) (hfrom _ _ _)

/-- Every refusal of a certificate names a rule. -/
theorem check_certs_ruled (s : State) (h : Header) (p : Params) (cc : List Carried) (i : ℕ)
    (inBlock : List Hash) (gas : UInt64 × UInt64) : Ruled (checkCerts s h p i cc inBlock gas) := by
  have hvalid : ∀ i c, Ruled (checkValidity p i c) := by
    intro i c e he
    unfold checkValidity at he
    split at he
    · simp at he
    · cases he
      rfl
  induction cc generalizing i inBlock gas with
  | nil => exact Ruled.ok gas
  | cons cy rest ih =>
    refine Ruled.bind ?_ fun _ => ih _ _ _
    exact (hvalid _ _).bind fun _ => (Ruled.invalidCertIf _ _ _ _).bind fun _ =>
      (Ruled.invalidCertIf _ _ _ _).bind fun _ => (Ruled.invalidCertIf _ _ _ _).bind fun _ =>
      (Ruled.invalidCertIf _ _ _ _).bind fun _ => (Ruled.invalidCertIf _ _ _ _).bind fun _ =>
      Ruled.invalidCertIf _ _ _ _

theorem check_block_rules_ruled (s : State) (b : Block) (p : Params) (cc : List Carried) :
    Ruled (checkBlockRules s b p cc) := by
  have hceil : Ruled (checkCeilings b p (currentSeqGasTarget s p b.header.height)) :=
    .invalid_if_bind <| .invalid_if_bind <| .invalid_if_bind <| .invalidIf _ _ _
  have hgenesis : Ruled (checkGenesisShape b p) := Ruled.ite _ (Ruled.invalidIf _ _ _)
    (.invalid_if_bind <| .invalid_if_bind <| .invalid_if_bind <| .invalidIf _ _ _)
  have hprotocol : Ruled (assertNoProtocolWrites b.certs) :=
    Ruled.checkEach fun _ => Ruled.checkEach fun _ => Ruled.invalidIf _ _ _
  exact .invalid_if_bind <| hceil.bind fun _ => .invalid_if_bind <| .invalid_if_bind <|
    (check_cites_ruled s b).bind fun _ => hgenesis.bind fun _ => .invalid_if_bind <|
    .invalid_if_bind <| .invalid_if_bind <| (check_certs_ruled _ _ _ _ _ _ _).bind fun _ =>
    .invalid_if_bind <| .invalid_if_bind hprotocol

end Rules

theorem rule_name_ne_empty {e : FoldError} (h : e.rule.isSome = true) : e.ruleName ≠ "" := by
  obtain ⟨rule, hrule⟩ := Option.isSome_iff_exists.mp h
  rw [FoldError.ruleName, hrule]
  cases rule with
  | v rule => cases rule <;> decide
  | _ => decide

/-! ## The block -/

section Block

variable [Crypto] {p : Params} {s : State} {b : Block} {n : ℕ} {log : ChainLog}

/-- The fees of an opened block are the current ones. -/
theorem opened_fees_eq (hwd : WordsDistinct) (h : Header) (s : State) :
    openedFees h p s = currentBaseFees s p h.height := by
  have hne : ∀ {l m : WordLabel}, l.Plain → m.Plain → l ≠ m → protocolSlot l ≠ protocolSlot m :=
    fun hl hm hne heq => hne ((hwd.protocol_slot_eq_iff hl.proper hm.proper).mp heq)
  by_cases hzero : h.height = 0
  · have hts : seqGasTargetSlot ≠ seqBaseFeeSlot :=
      hne (l := .seqGasTarget) (m := .seqBaseFee) trivial trivial (by simp)
    have htp : seqGasTargetSlot ≠ parBaseFeeSlot :=
      hne (l := .seqGasTarget) (m := .parBaseFee) trivial trivial (by simp)
    have hps : parBaseFeeSlot ≠ seqBaseFeeSlot :=
      hne (l := .parBaseFee) (m := .seqBaseFee) trivial trivial (by simp)
    simp [openedFees, opened, openBlock, currentBaseFees, hzero, initMarkets,
      State.get_set_of_ne _ _ hts, State.get_set_of_ne _ _ htp, State.get_set_of_ne _ _ hps]
  · have hseq : (opened h p s).s.get seqBaseFeeSlot = s.get seqBaseFeeSlot :=
      get_opened_label hwd (l := .seqBaseFee) trivial (by simp) fun h0 => absurd h0 hzero
    have hpar : (opened h p s).s.get parBaseFeeSlot = s.get parBaseFeeSlot :=
      get_opened_label hwd (l := .parBaseFee) trivial (by simp) fun h0 => absurd h0 hzero
    rw [openedFees, hseq, hpar, currentBaseFees, if_neg hzero]

/-- The certificates of a good block all fold. -/
theorem BlockOK.cert_trace (hok : BlockOK s b p) (hwd : WordsDistinct)
    (hbound : wordSum (balanceWord nativeAsset) s < 2 ^ 256) : Nonempty (CertTrace s b p) := by
  rcases Mut.run_cases (applyCerts p (openedFees b.header p s).1 (openedFees b.header p s).2
    (foldOrder (carry b.certs))) ⟨opened b.header p s, Result.empty⟩ with
    ⟨tips, σ, hrun⟩ | ⟨e, σ, hrun⟩
  · exact ⟨hok, tips, σ, hrun⟩
  exfalso
  obtain ⟨done, cy, rest, σ', tips, hsplit, hdone, hfail⟩ :=
    Mut.of_wp_error (apply_certs_spec (foldOrder (carry b.certs)) _) hrun
  have hmem : ∀ x ∈ done, x ∈ foldOrder (carry b.certs) := fun x hx => by simp [hsplit, hx]
  have hcy : cy ∈ foldOrder (carry b.certs) := by simp [hsplit]
  obtain ⟨c, hc, rfl⟩ := mem_fold_order.mp hcy
  have hfees := opened_fees_eq (p := p) hwd b.header s
  have hsum := hdone.native_sum hwd fun x hx => hok.valid (hmem x hx)
  simp only [Result.empty, U256.to_nat_zero, word_sum_opened hwd native_is_asset_id] at hsum
  refine hfail.false hwd (hok.valid hcy) ?_ ?_ (by omega)
  · exact hfees ▸ (hok.certs c hc).seqMax_ge
  · exact hfees ▸ (hok.certs c hc).parMax_ge

omit [Crypto] in
theorem treasury_share_le (hp : p.Valid) (height : UInt64) :
    (treasuryShare p height).toNat ≤ (p.emission height).toNat := by
  have hlt := hp.treasuryShare_lt
  have hbps : p.treasuryShareBps.toNat ≤ (10000 : UInt64).toNat := le_of_lt hlt
  rw [treasuryShare, U256.to_nat_mul_div64 hbps]
  exact Nat.div_le_of_le_mul
    (by rw [Nat.mul_comm (10000 : UInt64).toNat]; exact Nat.mul_le_mul_left _ hbps)

theorem get_le_pending_total (hp : p.Valid) (h : Header) (s : State) :
    (s.get (pendingCoinbaseAmountSlot (ringIndex h p))).toNat ≤ pendingTotal p s := by
  have hmem : (ringIndex h p).toNat ∈ Finset.range p.coinbaseMaturity.toNat :=
    Finset.mem_range.mpr (ring_index_lt hp h)
  have hle := Finset.single_le_sum (f := fun i : ℕ =>
    (s.get (pendingCoinbaseAmountSlot (.ofNat i))).toNat) (fun _ _ => Nat.zero_le _) hmem
  simpa [pendingTotal] using hle

section Supply

variable (hp : p.Valid) (hwd : WordsDistinct)
  (hsupply : nativeTotal p s + (p.emission b.header.height).toNat < 2 ^ 256)
  (hforfeit : ∀ (tr : CertTrace s b p) (reward : U256),
    (burstForfeit p (currentSeqGasTarget s p b.header.height) tr.σ₁.res.seqGasUsed reward).toNat ≤
      reward.toNat)

include hp hwd hsupply hforfeit

/-- The reward of a good block does not overflow. -/
theorem CertTrace.reward_fits (tr : CertTrace s b p) :
    ¬ RewardOverflow b.header p (currentSeqGasTarget s p b.header.height) tr.tips
      ⟨recorded b p tr.σ₁, tr.σ₁.res⟩ := by
  have hnative : nativeTotal p s = wordSum (balanceWord nativeAsset) s + pendingTotal p s := rfl
  have hsum := tr.native_sum hwd
  have hrecorded := word_sum_recorded (b := b) (p := p) hwd native_is_asset_id tr.σ₁
  have hshare := treasury_share_le hp b.header.height
  have hcell := get_le_word_sum (s := (recorded b p tr.σ₁).s) treasurySlot
    (show _ = balanceWord nativeAsset from rfl)
  rintro (hlt | hover | ⟨gross, hgross, hover⟩ | hover)
  · omega
  · omega
  · have hcovered := hforfeit tr gross
    dsimp only at hover
    omega
  · dsimp only at hover
    omega

/-- The released reward does not overflow its cell. -/
theorem RewardTrace.ring_fits (tr : RewardTrace s b p) : ¬ RingOverflow b.header p tr.σ₂ := by
  have hnative : nativeTotal p s = wordSum (balanceWord nativeAsset) s + pendingTotal p s := rfl
  have hsum := tr.native_sum hwd
  have hsum' := tr.word_sum hwd native_is_asset_id
  simp only [onWord, treasury_slot_word, if_true] at hsum'
  have hgross := tr.reward.gross_eq
  have hburned := tr.reward.burned
  dsimp only at hburned
  have hcovered := hforfeit tr.toCertTrace tr.gross
  have hpending := get_le_pending_total hp b.header s
  have hamount : maturedAmount b.header p tr.σ₂.j.s =
      s.get (pendingCoinbaseAmountSlot (ringIndex b.header p)) := tr.get_pending hwd _
  have hcell := get_le_word_sum (s := tr.σ₂.j.s) (maturedCell b.header p tr.σ₂.j.s)
    (show _ = balanceWord nativeAsset from rfl)
  rw [RingOverflow, hamount]
  omega

/-- The transition of a good block fails on a wrong boundary root alone. -/
theorem transition_spec (checkRoot : Bool) (hok : BlockOK s b p) :
    Mut.wp (transition b.header b.cites (foldOrder (carry b.certs)) p
        (currentSeqGasTarget s p b.header.height) checkRoot)
      (fun _ _ => True)
      (fun e _ => checkRoot = true ∧ e.rule = some .F14 ∧ p.isEpochBoundary b.header.height = true ∧
        ∃ tr : BlockTrace s b p, b.header.stateRoot ≠ tr.closed.s.root)
      ⟨⟨s, UndoLog.empty⟩, Result.empty⟩ := by
  have hnative : nativeTotal p s = wordSum (balanceWord nativeAsset) s + pendingTotal p s := rfl
  obtain ⟨certs⟩ := hok.cert_trace hwd (by omega)
  simp only [transition, Mut.wp_bind, wp_on_journal, wp_get_state]
  refine Mut.wp_mono Mut.wp_self (fun tips σ₁ hcerts => ?_) fun e σ hrun => ?_
  · have hfits := CertTrace.reward_fits hp hwd hsupply hforfeit ⟨hok, tips, σ₁, hcerts⟩
    simp only [Mut.wp_get]
    refine Mut.wp_mono (pay_reward_spec tips _) (fun _ σ₂ hreward => ?_) fun e _ he =>
      absurd he.2 hfits
    obtain ⟨gross, hreward⟩ := hreward
    have hturns := RewardTrace.ring_fits hp hwd hsupply hforfeit
      ⟨⟨hok, tips, σ₁, hcerts⟩, gross, σ₂, hreward⟩
    rw [wp_or_undo]
    refine Mut.wp_mono (roll_coinbase_ring_spec σ₂) (fun matured σ₃ hrolled => ?_) fun e _ he =>
      absurd he.2 hturns
    obtain ⟨unpaid, mid, hrolled⟩ := hrolled
    rw [wp_on_result]
    refine Mut.wp_mono (seal_root_spec checkRoot _) (fun _ _ _ => trivial) fun e _ he => ?_
    obtain ⟨hc, hrule, hb, hne⟩ := he
    exact ⟨hc, hrule, hb, ⟨⟨⟨⟨hok, tips, σ₁, hcerts⟩, gross, σ₂, hreward⟩, matured, unpaid, mid, σ₃,
      hrolled⟩, hne⟩⟩
  · exact absurd (certs.run.symm.trans hrun) (by simp)

end Supply

/-! ## Runs -/

/-- What the schedule issues before a height. -/
def emittedBefore (p : Params) (n : ℕ) : ℕ := ∑ h ∈ Finset.range n, (p.emission (.ofNat h)).toNat

omit [Crypto] in
theorem emitted_before_succ (p : Params) {height : UInt64} (h : height.toNat = n) :
    emittedBefore p (n + 1) = emittedBefore p n + (p.emission height).toNat := by
  rw [emittedBefore, Finset.sum_range_succ, ← h, UInt64.ofNat_toNat, emittedBefore]

/-- The states that blocks lead to from genesis, at whatever heights, with what the schedule issued
for them. -/
inductive Emitted (p : Params) : ℕ → State → Prop where
  | genesis : Emitted p 0 State.new
  | apply {n : ℕ} {s s' : State} {b : Block} {r : Result} (h : Emitted p n s)
      (happly : applyBlock s b p = (.ok r, s')) :
      Emitted p (n + (p.emission b.header.height).toNat) s'

theorem Run.emitted (h : Run p log s) : Emitted p (emittedBefore p log.length) s := by
  induction h with
  | genesis => exact .genesis
  | apply _ hheight happly ih =>
    rw [List.length_cons, emitted_before_succ p hheight]
    exact ih.apply happly

theorem Emitted.started (hp : p.Valid) (hwd : WordsDistinct) (h : Emitted p n s) :
    Started p s := by
  induction h with
  | genesis => exact Or.inl rfl
  | apply _ happly ih => exact Or.inr (ih.target_ok hp hwd happly)

/-- The native supply is at most what the schedule has issued. -/
theorem Emitted.native_total_le (hp : p.Valid) (hwd : WordsDistinct) (h : Emitted p n s) :
    nativeTotal p s ≤ n := by
  induction h with
  | genesis =>
    have hcells : wordSum (balanceWord nativeAsset) State.new = 0 := rfl
    have hring : pendingTotal p State.new = 0 :=
      Finset.sum_eq_zero fun i _ => by rw [State.get_new, U256.to_nat_zero]
    rw [nativeTotal, hcells, hring]
  | apply hemitted happly ih =>
    obtain ⟨tr, hy⟩ := block_trace happly
    have htotal := tr.native_total_closed hp hwd (tr.forfeit_le hp (hemitted.started hp hwd) _)
    rw [hy.state]
    omega

theorem Run.native_total_le (hp : p.Valid) (hwd : WordsDistinct)
    (h : Run p log s) : nativeTotal p s ≤ emittedBefore p log.length :=
  h.emitted.native_total_le hp hwd

/-- The next block of a run under accepted parameters, while the schedule through its height stays
below 2^256, fails under a rule or not at all; and its burst forfeiture never exceeds its reward,
so that taking it off does not saturate. -/
theorem assertions_unreachable {log : ChainLog} (hwd : WordsDistinct) (hp : p.validate = .ok ())
    (hrun : Run p log s) (hheight : b.header.height.toNat = log.length)
    (hemission : ∑ h ∈ Finset.range (log.length + 1), (p.emission (.ofNat h)).toNat < 2 ^ 256) :
    (∀ e s', applyBlock s b p = (.error e, s') → e.ruleName ≠ "") ∧
      ∀ tips σ, checkBlockRules s b p (carry b.certs) = .ok () →
        applyCerts p (openedFees b.header p s).1 (openedFees b.header p s).2
          (foldOrder (carry b.certs)) ⟨opened b.header p s, Result.empty⟩ = (.ok tips, σ) →
        ∀ reward, (burstForfeit p (currentSeqGasTarget s p b.header.height) σ.res.seqGasUsed
          reward).toNat ≤ reward.toNat := by
  have hvalid := Params.valid_of_validate hp
  have hforfeit : ∀ (tr : CertTrace s b p) (reward : U256),
      (burstForfeit p (currentSeqGasTarget s p b.header.height) tr.σ₁.res.seqGasUsed reward).toNat ≤
        reward.toNat := fun tr reward => tr.forfeit_le hvalid (hrun.started hvalid hwd) reward
  have hsupply : nativeTotal p s + (p.emission b.header.height).toNat < 2 ^ 256 := by
    have hle := hrun.native_total_le hvalid hwd
    have hsucc := emitted_before_succ p hheight
    unfold emittedBefore at hle hsucc
    omega
  refine ⟨fun e s' herr => rule_name_ne_empty ?_, fun tips σ hrules hcerts reward =>
    hforfeit ⟨check_block_rules_eq_ok.mp hrules, tips, σ, hcerts⟩ reward⟩
  rcases apply_eq_error herr with ⟨hrules, -⟩ | ⟨hok, σ, hσ, -⟩
  · exact check_block_rules_ruled _ _ _ _ e hrules
  · obtain ⟨-, hrule, -⟩ :=
      Mut.of_wp_error (transition_spec hvalid hwd hsupply hforfeit true hok) hσ
    rw [hrule]
    rfl

end Block

section

open Sample

attribute [local instance] Reference.crypto

/-- A genesis block that is refused after everything was written is refused under a rule; and a
block with a payment forfeits no more than its reward. -/
theorem sample_assertions_unreachable :
    (∃ e s', applyBlock State.new badGenesis params = (.error e, s') ∧ e.ruleName ≠ "") ∧
    ∃ (log : ChainLog) (s : State) (b : Block) (tips : U256) (σ : FoldState),
      Run params log s ∧ b.certs = [payment] ∧
      applyCerts params (openedFees b.header params s).1 (openedFees b.header params s).2
        (foldOrder (carry b.certs)) ⟨opened b.header params s, Result.empty⟩ = (.ok tips, σ) ∧
      ∀ reward, (burstForfeit params (currentSeqGasTarget s params b.header.height)
        σ.res.seqGasUsed reward).toNat ≤ reward.toNat := by
  constructor
  · have hfails : (match (applyBlock State.new badGenesis params).1 with
        | .error _ => true
        | .ok _ => false) = true := by decide +kernel
    cases hres : applyBlock State.new badGenesis params with
    | mk res s' =>
      rw [hres] at hfails
      cases res with
      | ok r => simp at hfails
      | error e =>
        exact ⟨e, s', rfl, (assertions_unreachable Reference.words_distinct params_validate
          .genesis (by decide +kernel) (by decide +kernel)).1 e s' hres⟩
  · obtain ⟨log, s, b, r, s', hrun, hheight, happly, -, hcerts, -, hlength⟩ := payment_applies
    obtain ⟨tr, -⟩ := block_trace happly
    obtain ⟨-, hforfeit⟩ := assertions_unreachable Reference.words_distinct params_validate hrun
      hheight (by rw [hlength]; decide +kernel)
    exact ⟨log, s, b, tr.tips, tr.σ₁, hrun, hcerts, tr.run,
      hforfeit _ _ (check_block_rules_eq_ok.mpr tr.ok) tr.run⟩

end

end Zycord.Fold
