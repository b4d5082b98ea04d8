import Zycord.Fold.Certificate

/-!
# What one block does

The effect of each step of a block in closed form: `CertRun` for the certificate loop, `Rewarded`
for the reward and the treasury, `Rolled` for the coinbase ring. `BlockTrace` puts them together,
and `block_trace` reads them off an accepted block; the failures of the steps are part of their
specifications.
-/

namespace Zycord.Fold

open List Mut U256
open Journal (Footprint Writes)

/-! ## The certificate loop -/

/-- The result after a certificate was executed. -/
def recordCert (p : Params) (cy : Carried) (out : CertOutcome) (burned : U256) (res : Result) :
    Result :=
  let res := { countUsed cy.cert p res with burned }
  let res := if out.outcome = .applied then countApplied cy.cert p res else res
  { res with outcomes := res.outcomes ++ [out] }

section RecordCert

variable (p : Params) (cy : Carried) (out : CertOutcome) (burned : U256) (res : Result)

@[simp] theorem burned_record_cert : (recordCert p cy out burned res).burned = burned := by
  unfold recordCert
  split <;> rfl

@[simp] theorem outcomes_record_cert :
    (recordCert p cy out burned res).outcomes = res.outcomes ++ [out] := by
  unfold recordCert
  split <;> rfl

@[simp] theorem seq_gas_used_record_cert :
    (recordCert p cy out burned res).seqGasUsed = res.seqGasUsed + cy.cert.seqGas p := by
  unfold recordCert
  split <;> rfl

end RecordCert

section

variable [Crypto]

/-- Certificates executed one after another, with the tips that add up. -/
inductive CertRun (p : Params) (fs fp : U256) :
    List Carried → FoldState → U256 → FoldState → U256 → Prop where
  | nil (σ : FoldState) (tips : U256) : CertRun p fs fp [] σ tips σ tips
  | cons {cy : Carried} {rest : List Carried} {σ σ' : FoldState}
      {tips tips₁ tips' tip burned : U256}
      {out : CertOutcome} {j : Journal}
      (hstep : CertStep cy.cert cy.id p fs fp σ.j σ.res.burned out tip j burned)
      (htips : tips₁.toNat = tips.toNat + tip.toNat)
      (hrest : CertRun p fs fp rest ⟨j, recordCert p cy out burned σ.res⟩ tips₁ σ' tips') :
      CertRun p fs fp (cy :: rest) σ tips σ' tips'

variable {p : Params} {fs fp : U256}

/-- The ways an iteration of the loop can fail: its certificate fails, or the tips overflow. -/
def NextFailure (p : Params) (fs fp tips : U256) (cy : Carried) (σ : FoldState) (e : FoldError) :
    Prop :=
  CertFailure cy.cert p fs fp σ.j σ.res.burned e ∨
    (∃ what, e = .conservationFailure what) ∧ ∃ out tip j burned,
      CertStep cy.cert cy.id p fs fp σ.j σ.res.burned out tip j burned ∧
      2 ^ 256 ≤ tips.toNat + tip.toNat

theorem apply_next_spec (tips : U256) (cy : Carried) (σ : FoldState) :
    Mut.wp (applyNext p fs fp tips cy)
      (fun tips' σ' => ∃ out tip j burned,
        CertStep cy.cert cy.id p fs fp σ.j σ.res.burned out tip j burned ∧
        tips'.toNat = tips.toNat + tip.toNat ∧ σ' = ⟨j, recordCert p cy out burned σ.res⟩)
      (fun e _ => NextFailure p fs fp tips cy σ e) σ := by
  simp only [applyNext, wp_bind, wp_on_result, wp_or_undo]
  refine wp_mono (apply_certificate_spec _) (fun x σ' hx => ?_) fun e σ' he => Or.inl he
  obtain ⟨burned, j, hstep, rfl⟩ := hx
  refine (wp_conserve_add _ _ _).mpr ⟨fun tips' htips => ?_, fun hover => ?_⟩
  · exact ⟨x.1, x.2, j, burned, hstep, htips, rfl⟩
  · exact Or.inr ⟨⟨_, rfl⟩, x.1, x.2, j, burned, hstep, hover⟩

theorem CertRun.concat {done : List Carried} {cy : Carried} {σ σ' : FoldState}
    {tips tips' tips'' tip burned : U256} {out : CertOutcome} {j : Journal}
    (h : CertRun p fs fp done σ tips σ' tips')
    (hstep : CertStep cy.cert cy.id p fs fp σ'.j σ'.res.burned out tip j burned)
    (htips : tips''.toNat = tips'.toNat + tip.toNat) :
    CertRun p fs fp (done ++ [cy]) σ tips ⟨j, recordCert p cy out burned σ'.res⟩ tips'' := by
  induction h with
  | nil σ tips => exact .cons hstep htips (.nil _ _)
  | cons hfirst hsum _ ih => exact .cons hfirst hsum (ih hstep htips)

/-- The loop over certificates folds them all or stops at the first failure. -/
theorem apply_certs_spec (ordered : List Carried) (σ : FoldState) :
    Mut.wp (applyCerts p fs fp ordered)
      (fun tips σ' => CertRun p fs fp ordered σ 0 σ' tips)
      (fun e _ => ∃ done cy rest σ' tips, ordered = done ++ cy :: rest ∧
        CertRun p fs fp done σ 0 σ' tips ∧ NextFailure p fs fp tips cy σ' e) σ := by
  -- the invariant: what is behind the loop is a run, and the rest is still to come
  have hloop := wp_foldlM (g := applyNext p fs fp)
    (I := fun rest tips σ' => ∃ done, ordered = done ++ rest ∧ CertRun p fs fp done σ 0 σ' tips)
    (E := fun e _ => ∃ done cy rest σ' tips, ordered = done ++ cy :: rest ∧
      CertRun p fs fp done σ 0 σ' tips ∧ NextFailure p fs fp tips cy σ' e)
    (fun cy rest tips σ' hI => by
      obtain ⟨done, hsplit, hrun⟩ := hI
      refine wp_mono (apply_next_spec tips cy σ') (fun tips' σ'' hnext => ?_)
        fun e _ he => ⟨done, cy, rest, σ', tips, hsplit, hrun, he⟩
      obtain ⟨out, tip, j, burned, hstep, htips, rfl⟩ := hnext
      exact ⟨done ++ [cy], by simp [hsplit], hrun.concat hstep htips⟩)
    ordered 0 ⟨[], rfl, .nil σ 0⟩
  refine wp_mono hloop (fun tips σ' hI => ?_) fun e σ' he => he
  obtain ⟨done, hsplit, hrun⟩ := hI
  rwa [hsplit, append_nil]

section CertRun

variable {ordered : List Carried} {σ σ' : FoldState} {tips tips' : U256}

section

variable (h : CertRun p fs fp ordered σ tips σ' tips')

include h

theorem CertRun.writes {F : Footprint}
    (hF : ∀ cy ∈ ordered, (certFootprint cy.cert cy.id).Within F) : Writes F σ.j σ'.j := by
  induction h with
  | nil => exact .refl _
  | cons hstep _ _ ih =>
    exact (hstep.writes.mono (hF _ mem_cons_self)).trans
      (ih fun cy hcy => hF cy (mem_cons_of_mem _ hcy))

/-- What every certificate keeps, the loop keeps. -/
theorem CertRun.invariant {I : Journal → Prop} (hI : I σ.j)
    (step : ∀ cy ∈ ordered, ∀ {j j' : Journal} {burned burned' tip : U256} {out : CertOutcome},
      I j → CertStep cy.cert cy.id p fs fp j burned out tip j' burned' → I j') :
    I σ'.j := by
  induction h with
  | nil => exact hI
  | cons hstep _ _ ih =>
    exact ih (step _ mem_cons_self hI hstep)
      fun cy hcy => step cy (mem_cons_of_mem _ hcy)

theorem CertRun.forall_outcomes {I : Journal → Prop} {P : CertOutcome → Prop} (hI : I σ.j)
    (step : ∀ cy ∈ ordered, ∀ {j j' : Journal} {burned burned' tip : U256} {out : CertOutcome},
      I j → CertStep cy.cert cy.id p fs fp j burned out tip j' burned' → I j' ∧ P out)
    (hP : ∀ o ∈ σ.res.outcomes, P o) : ∀ o ∈ σ'.res.outcomes, P o := by
  induction h with
  | nil => exact hP
  | cons hstep _ _ ih =>
    obtain ⟨hnext, hout⟩ := step _ mem_cons_self hI hstep
    refine ih hnext (fun cy hcy => step cy (mem_cons_of_mem _ hcy)) fun o ho => ?_
    rw [outcomes_record_cert, mem_append, mem_singleton] at ho
    rcases ho with ho | rfl
    · exact hP o ho
    · exact hout

/-- Every outcome of the loop is a certificate's, and recorded unless dropped. -/
theorem CertRun.outcomes {o : CertOutcome} (ho : o ∈ σ'.res.outcomes) :
    o ∈ σ.res.outcomes ∨ (∃ cy ∈ ordered, o.id = cy.id) ∧
      (o.outcome ≠ .dropped → (σ'.j.s.seenTTL o.id).isSome = true) := by
  induction h with
  | nil => exact Or.inl ho
  | @cons cy rest σ σ' tips tips₁ tips' tip burned out j hstep _ hrest ih =>
    rcases ih ho with hold | ⟨⟨cy', hcy', hid⟩, hseen⟩
    · rw [outcomes_record_cert, mem_append, mem_singleton] at hold
      rcases hold with hold | rfl
      · exact Or.inl hold
      · refine Or.inr ⟨⟨cy, mem_cons_self, hstep.out_id⟩, fun hne => ?_⟩
        obtain ⟨ttl, httl⟩ := Option.isSome_iff_exists.mp (hstep.seen hne)
        have hkept := (hrest.writes (F := ⟨fun _ => True, fun _ => True, fun _ _ => True⟩)
          fun _ _ => ⟨fun _ _ => trivial, fun _ _ => trivial, fun _ _ _ => trivial⟩).seen_mono httl
        rw [hstep.out_id, hkept]
        rfl
    · exact Or.inr ⟨⟨cy', mem_cons_of_mem _ hcy', hid⟩, hseen⟩

end

end CertRun

end

/-! ## The reward -/

/-- The treasury's part of an emission. -/
def treasuryShare (p : Params) (height : UInt64) : U256 :=
  (p.emission height).mulDiv64 p.treasuryShareBps 10000

/-- What a producer forfeits of a reward when the block used more than the sequential ceiling. -/
def burstForfeit (p : Params) (t used : UInt64) (reward : U256) : U256 :=
  if used > p.seqGasLimit t then
    (reward.mulDiv64 (used - p.seqGasLimit t) (p.seqGasLimit t)).mulDiv64
      (used - p.seqGasLimit t) (p.seqGasLimit t)
  else 0

theorem forfeit_burst_spec (p : Params) (t : UInt64) (reward : U256) (σ : FoldState) :
    Mut.wp (forfeitBurst p t reward)
      (fun reward' σ' => ∃ burned,
        reward' = reward.satSub (burstForfeit p t σ.res.seqGasUsed reward) ∧
        burned.toNat = σ.res.burned.toNat + (burstForfeit p t σ.res.seqGasUsed reward).toNat ∧
        σ' = σ.burn σ.j burned)
      (fun e _ => (∃ what, e = .conservationFailure what) ∧
        2 ^ 256 ≤ σ.res.burned.toNat + (burstForfeit p t σ.res.seqGasUsed reward).toNat) σ := by
  refine wp_ite _ (fun hburst => ?_) fun hcalm => ?_
  · simp only [wp_bind, wp_or_undo, wp_add_burned, wp_pure, burstForfeit, hburst, if_true]
    exact ⟨fun w hw => ⟨w, trivial, hw, rfl⟩, fun hover => ⟨⟨_, rfl⟩, hover⟩⟩
  · simp only [wp_pure, burstForfeit, hcalm, if_false]
    exact ⟨σ.res.burned, by simp, rfl, rfl⟩

section

variable [Crypto] {h : Header} {p : Params} {t : UInt64} {s s' : State} {b : Block} {r : Result}

theorem credit_treasury_spec (share : U256) (σ : FoldState) :
    Mut.wp (creditTreasury share)
      (fun _ σ' => σ'.res = σ.res ∧ ∃ credited : U256,
        credited.toNat = (σ.j.s.get treasurySlot).toNat + share.toNat ∧
        σ'.j.s = σ.j.s.set treasurySlot credited)
      (fun e _ => (∃ what, e = .conservationFailure what) ∧
        2 ^ 256 ≤ (σ.j.s.get treasurySlot).toNat + share.toNat) σ := by
  simp only [creditTreasury, wp_bind, wp_get_state]
  refine wp_ite _ (fun hzero => ?_) fun hne => ?_
  · obtain rfl := is_zero_iff.mp hzero
    exact ⟨rfl, σ.j.s.get treasurySlot, rfl, (σ.j.s.set_get treasurySlot).symm⟩
  · simp only [wp_bind, wp_or_undo, wp_conserve_add, wp_on_journal]
    exact ⟨fun w hw => ⟨trivial, w, hw, rfl⟩, fun hover => ⟨⟨_, rfl⟩, hover⟩⟩

/-- The reward of a block, before the burst valve takes its part, and what paying it changes. -/
structure Rewarded (h : Header) (p : Params) (t : UInt64) (tips gross : U256) (σ σ' : FoldState) :
    Prop where
  gross_eq : gross.toNat + (treasuryShare p h.height).toNat =
    (p.emission h.height).toNat + tips.toNat
  share_le : (treasuryShare p h.height).toNat ≤ (p.emission h.height).toNat
  burned : σ'.res.burned.toNat =
    σ.res.burned.toNat + (burstForfeit p t σ.res.seqGasUsed gross).toNat
  res : σ'.res = { σ.res with
    burned := σ'.res.burned
    minerReward := gross.satSub (burstForfeit p t σ.res.seqGasUsed gross)
    treasury := treasuryShare p h.height }
  treasury : ∃ credited : U256,
    credited.toNat = (σ.j.s.get treasurySlot).toNat + (treasuryShare p h.height).toNat ∧
      σ'.j.s = σ.j.s.set treasurySlot credited

/-- The four sums of the reward that can leave their range. -/
def RewardOverflow (h : Header) (p : Params) (t : UInt64) (tips : U256) (σ : FoldState) : Prop :=
  (p.emission h.height).toNat < (treasuryShare p h.height).toNat ∨
    2 ^ 256 ≤ (p.emission h.height).toNat + tips.toNat ∨
    (∃ gross : U256, gross.toNat + (treasuryShare p h.height).toNat =
        (p.emission h.height).toNat + tips.toNat ∧
      2 ^ 256 ≤ σ.res.burned.toNat + (burstForfeit p t σ.res.seqGasUsed gross).toNat) ∨
    2 ^ 256 ≤ (σ.j.s.get treasurySlot).toNat + (treasuryShare p h.height).toNat

/-- Paying the reward succeeds unless a sum overflows. -/
theorem pay_reward_spec (tips : U256) (σ : FoldState) :
    Mut.wp (payReward h p t tips) (fun _ σ' => ∃ gross, Rewarded h p t tips gross σ σ')
      (fun e _ => (∃ what, e = .conservationFailure what) ∧ RewardOverflow h p t tips σ) σ := by
  simp only [payReward, wp_bind, wp_or_undo, wp_conserve_sub]
  refine ⟨fun producer hproducer => ?_, fun hlt => ⟨⟨_, rfl⟩, Or.inl hlt⟩⟩
  have hshare : producer.toNat + (treasuryShare p h.height).toNat = (p.emission h.height).toNat :=
    hproducer
  simp only [wp_conserve_add]
  refine ⟨fun gross hgross => ?_, fun hover => ⟨⟨_, rfl⟩, Or.inr (Or.inl (by omega))⟩⟩
  have heq : gross.toNat + (treasuryShare p h.height).toNat =
      (p.emission h.height).toNat + tips.toNat := by omega
  refine wp_mono (forfeit_burst_spec p t gross σ) (fun reward σ₁ hb => ?_) fun e σ₁ he =>
    ⟨he.1, Or.inr (Or.inr (Or.inl ⟨gross, heq, he.2⟩))⟩
  obtain ⟨burned, rfl, hburned, rfl⟩ := hb
  rw [wp_on_result]
  refine wp_mono (credit_treasury_spec (treasuryShare p h.height) _) (fun _ σ₂ hc => ?_)
    fun e σ₂ he => ⟨he.1, Or.inr (Or.inr (Or.inr he.2))⟩
  obtain ⟨hres, credited, hcredited, hs⟩ := hc
  exact ⟨gross, heq, by omega, by rw [hres]; exact hburned, by rw [hres]; rfl, credited,
    hcredited, hs⟩

/-! ## The coinbase ring -/

/-- The place in the ring of a height. -/
def ringIndex (h : Header) (p : Params) : UInt64 := h.height % p.coinbaseMaturity

/-- The cell that a matured reward goes to. -/
def maturedCell (h : Header) (p : Params) (s : State) : Slot :=
  nativeBalanceSlot (s.get (pendingCoinbaseAddrSlot (ringIndex h p))).bytes32

theorem matured_cell_word (h : Header) (p : Params) (s : State) :
    (maturedCell h p s).word = balanceWord nativeAsset := rfl

/-- The reward that matures at a height. -/
def maturedAmount (h : Header) (p : Params) (s : State) : U256 :=
  s.get (pendingCoinbaseAmountSlot (ringIndex h p))

/-- One turn of the ring: the old entry is paid out, the new reward takes its place. -/
structure Rolled (h : Header) (p : Params) (matured unpaid : U256) (mid : Journal)
    (σ σ' : FoldState) :
    Prop where
  paid : PaidOut (maturedCell h p σ.j.s) (maturedAmount h p σ.j.s) σ.j matured unpaid mid
  j : σ'.j = storePending (ringIndex h p) h.emissionAddr σ.res.minerReward mid
  burned : σ'.res.burned.toNat = σ.res.burned.toNat + unpaid.toNat
  res : σ'.res = { σ.res with burned := σ'.res.burned }

/-- The two sums of the ring that can leave their range. -/
def RingOverflow (h : Header) (p : Params) (σ : FoldState) : Prop :=
  2 ^ 256 ≤ σ.res.burned.toNat + (maturedAmount h p σ.j.s).toNat ∨
    2 ^ 256 ≤ (σ.j.s.get (maturedCell h p σ.j.s)).toNat + (maturedAmount h p σ.j.s).toNat

theorem release_matured_spec (σ : FoldState) :
    Mut.wp (releaseMatured (ringIndex h p))
      (fun matured σ' => ∃ unpaid burned mid,
        PaidOut (maturedCell h p σ.j.s) (maturedAmount h p σ.j.s) σ.j matured unpaid mid ∧
        burned.toNat = σ.res.burned.toNat + unpaid.toNat ∧ σ' = σ.burn mid burned)
      (fun e _ => (∃ what, e = .conservationFailure what) ∧ RingOverflow h p σ) σ := by
  refine wp_ite _ (fun hzero => ?_) fun hzero => wp_ite _ (fun hspent => ?_) fun hspent => ?_
  · exact ⟨0, σ.res.burned, σ.j, .nothing (is_zero_iff.mp hzero), rfl, rfl⟩
  all_goals have hne : maturedAmount h p σ.j.s ≠ 0 := mt is_zero_iff.mpr hzero
  · simp only [wp_bind, wp_add_burned]
    exact ⟨fun w hw => ⟨_, w, σ.j, .burned hne hspent, hw, rfl⟩, fun ho => ⟨⟨_, rfl⟩, Or.inl ho⟩⟩
  · simp only [wp_bind, wp_conserve_add, wp_on_journal]
    exact ⟨fun w hw => ⟨0, σ.res.burned, _, .paid w hne (Bool.not_eq_true _ ▸ hspent) hw, rfl, rfl⟩,
      fun ho => ⟨⟨_, rfl⟩, Or.inr ho⟩⟩

theorem roll_coinbase_ring_spec (σ : FoldState) :
    Mut.wp (rollCoinbaseRing h p)
      (fun matured σ' => ∃ unpaid mid, Rolled h p matured unpaid mid σ σ')
      (fun e _ => (∃ what, e = .conservationFailure what) ∧ RingOverflow h p σ) σ := by
  simp only [rollCoinbaseRing, wp_bind, wp_get, wp_on_journal, wp_pure]
  refine wp_mono (release_matured_spec σ) (fun matured σ' hm => ?_) fun e σ' he => he
  obtain ⟨unpaid, burned, mid, hpaid, hburned, rfl⟩ := hm
  exact ⟨unpaid, mid, hpaid, rfl, hburned, rfl⟩

/-! ## The block -/

theorem seal_root_spec (checkRoot : Bool) (σ : FoldState) :
    Mut.wp (sealRoot h p checkRoot)
      (fun _ σ' => (p.isEpochBoundary h.height = true → checkRoot = true →
          h.stateRoot = σ.j.s.root) ∧
        σ' = ⟨σ.j, { σ.res with
          stateRoot := if p.isEpochBoundary h.height then σ.j.s.root else σ.res.stateRoot }⟩)
      (fun e _ => checkRoot = true ∧ e.rule = some .F14 ∧ p.isEpochBoundary h.height = true ∧
        h.stateRoot ≠ σ.j.s.root) σ := by
  simp only [sealRoot, wp_bind, wp_get_state]
  refine wp_ite _ (fun hb => ?_) fun hb => ?_
  · simp only [wp_bind, wp_on_result, wp_or_undo, wp_require, hb, if_true]
    refine ⟨fun hroot => ⟨fun _ hc => ?_, trivial⟩, fun hroot => ?_⟩
    · exact not_not.mp fun hne => hroot ⟨hc, Ne.symm hne⟩
    · obtain ⟨hc, hne⟩ := not_not.mp hroot
      exact ⟨hc, rfl, trivial, Ne.symm hne⟩
  · simp only [hb, Bool.false_eq_true, if_false, wp_pure]
    exact ⟨fun h => h.elim, trivial⟩

/-- The journal after the steps that precede the certificates. -/
def opened (h : Header) (p : Params) (s : State) : Journal := openBlock h p ⟨s, UndoLog.empty⟩

/-- The base fees once a block is opened. -/
def openedFees (h : Header) (p : Params) (s : State) : U256 × U256 :=
  ((opened h p s).s.get seqBaseFeeSlot, (opened h p s).s.get parBaseFeeSlot)

/-- The journal after the bookkeeping that follows the certificates. -/
def recorded (b : Block) (p : Params) (σ : FoldState) : Journal :=
  pruneExpired b.header (recordBlock b.header b.cites p σ.res.seqGasApplied σ.j)

/-- What a block whose rules hold did up to its last certificate. -/
structure CertTrace (s : State) (b : Block) (p : Params) where
  ok : BlockOK s b p
  tips : U256
  σ₁ : FoldState
  run : applyCerts p (openedFees b.header p s).1 (openedFees b.header p s).2
    (foldOrder (carry b.certs)) ⟨opened b.header p s, Result.empty⟩ = (.ok tips, σ₁)

/-- What it did up to its reward. -/
structure RewardTrace (s : State) (b : Block) (p : Params) extends CertTrace s b p where
  gross : U256
  σ₂ : FoldState
  reward : Rewarded b.header p (currentSeqGasTarget s p b.header.height) tips gross
    ⟨recorded b p σ₁, σ₁.res⟩ σ₂

/-- What an accepted block did, step by step. -/
structure BlockTrace (s : State) (b : Block) (p : Params) extends RewardTrace s b p where
  matured : U256
  unpaid : U256
  mid : Journal
  σ₃ : FoldState
  ring : Rolled b.header p matured unpaid mid σ₂ σ₃

theorem CertTrace.certs (tr : CertTrace s b p) :
    CertRun p (openedFees b.header p s).1 (openedFees b.header p s).2 (foldOrder (carry b.certs))
      ⟨opened b.header p s, Result.empty⟩ 0 tr.σ₁ tr.tips := by
  have hrun := of_wp_ok (apply_certs_spec (foldOrder (carry b.certs)) _) tr.run
  exact hrun

namespace BlockTrace

/-- The journal at the end of a block. -/
def closed (tr : BlockTrace s b p) : Journal :=
  updateBaseFees b.header p (currentSeqGasTarget s p b.header.height) (openedFees b.header p s).1
    (openedFees b.header p s).2 tr.σ₃.res tr.σ₃.j

/-- The result and the state that a trace accounts for. -/
structure Yields (tr : BlockTrace s b p) (r : Result) (s' : State) : Prop where
  state : s' = tr.closed.s
  root : p.isEpochBoundary b.header.height = true → b.header.stateRoot = s'.root
  res : r = { tr.σ₃.res with
    matured := tr.matured
    stateRoot := if p.isEpochBoundary b.header.height then s'.root else tr.σ₃.res.stateRoot
    undo := r.undo }

end BlockTrace

/-- Every accepted block has a trace. -/
theorem block_trace (h : applyBlock s b p = (.ok r, s')) :
    ∃ tr : BlockTrace s b p, tr.Yields r s' := by
  obtain ⟨hok, σ, hrun, rfl, rfl⟩ := apply_eq_ok h
  simp only [transition, bind_eq_ok] at hrun
  obtain ⟨_, _, hopen, _, _, hstate, tips, σ₁, hcerts, _, _, hget, _, _, hrecord, _, _, hprune,
    _, σ₂, hreward, matured, σ₃, hring, _, _, hmatured, _, _, hget', _, _, hfees, hseal⟩ := hrun
  cases hopen; cases hstate; cases hget; cases hrecord; cases hprune
  cases hmatured; cases hget'; cases hfees
  obtain ⟨gross, hgross⟩ := of_wp_ok (pay_reward_spec tips _) hreward
  obtain ⟨unpaid, mid, hrolled⟩ :=
    of_wp_ok (roll_coinbase_ring_spec σ₂) (or_else_eq_ok.mp hring)
  obtain ⟨hroot, rfl⟩ := of_wp_ok (seal_root_spec true _) hseal
  exact ⟨⟨⟨⟨hok, tips, σ₁, hcerts⟩, gross, σ₂, hgross⟩, matured, unpaid, mid, σ₃, hrolled⟩, rfl,
    fun hb => hroot hb rfl, rfl⟩

/-! ## What the steps around the certificates leave alone -/

theorem opened_writes (h : Header) (p : Params) (s : State) :
    Writes protocolFootprint ⟨s, UndoLog.empty⟩ (opened h p s) := open_block_writes

omit [Crypto] in
@[simp] theorem get_prune_expired (j : Journal) (slot : Slot) :
    (pruneExpired h j).s.get slot = j.s.get slot := by
  unfold pruneExpired
  split <;> rfl

omit [Crypto] in
@[simp] theorem is_spent_prune_expired (j : Journal) (a : Address) :
    (pruneExpired h j).s.isSpent a = j.s.isSpent a := by
  unfold pruneExpired
  split <;> rfl

omit [Crypto] in
theorem seen_ttl_prune_expired (j : Journal) (id : Hash) :
    (pruneExpired h j).s.seenTTL id =
      (j.s.seenTTL id).filter fun ttl => !decide (1 ≤ h.height ∧ ttl < h.height - 1) := by
  unfold pruneExpired
  split_ifs with hheight
  · have hheight' : 1 ≤ h.height := hheight
    simp only [hheight', true_and]
    exact State.seen_ttl_prune_seen _ _ id
  · have hheight' : ¬ 1 ≤ h.height := hheight
    simp only [hheight', false_and, decide_false, Bool.not_false]
    cases j.s.seenTTL id <;> rfl

theorem RewardTrace.is_spent_eq (tr : RewardTrace s b p) (a : Address) :
    tr.σ₂.j.s.isSpent a = tr.σ₁.j.s.isSpent a := by
  have hrec := (record_block_writes (h := b.header) (p := p) (j := tr.σ₁.j) b.cites
    tr.σ₁.res.seqGasApplied).is_spent_eq (fun _ h => h) a
  obtain ⟨credited, -, htreasury⟩ := tr.reward.treasury
  rw [htreasury]
  simpa [recorded] using hrec

namespace BlockTrace

variable {tr : BlockTrace s b p}

theorem Yields.outcomes_eq (hy : tr.Yields r s') : r.outcomes = tr.σ₁.res.outcomes := by
  rw [hy.res, tr.ring.res, tr.reward.res]

theorem Yields.burned_eq (hy : tr.Yields r s') : r.burned = tr.σ₃.res.burned := by
  rw [hy.res]

theorem closed_writes (tr : BlockTrace s b p) : Writes blockFootprint tr.σ₂.j tr.closed := by
  have hpaid : Writes blockFootprint tr.σ₂.j tr.mid := tr.ring.paid.writes (Or.inr rfl)
  have hstore : Writes blockFootprint tr.mid tr.σ₃.j :=
    tr.ring.j ▸ (store_pending_writes _ _ _).mono protocol_within_block
  exact (hpaid.trans hstore).trans ((update_base_fees_writes _ _ _ _).mono protocol_within_block)

theorem is_spent_closed (tr : BlockTrace s b p) (a : Address) :
    tr.closed.s.isSpent a = tr.σ₁.j.s.isSpent a := by
  rw [tr.closed_writes.is_spent_eq (fun _ h => h), tr.toRewardTrace.is_spent_eq]

theorem seen_closed (tr : BlockTrace s b p) (id : Hash) :
    tr.closed.s.seenTTL id = (tr.σ₁.j.s.seenTTL id).filter fun ttl =>
      !decide (1 ≤ b.header.height ∧ ttl < b.header.height - 1) := by
  have hrec := (record_block_writes (h := b.header) (p := p) (j := tr.σ₁.j) b.cites
    tr.σ₁.res.seqGasApplied).seen_eq (fun _ _ h => h) id
  obtain ⟨credited, -, htreasury⟩ := tr.reward.treasury
  rw [tr.closed_writes.seen_eq (fun _ _ h => h), htreasury, ← hrec]
  exact seen_ttl_prune_expired _ id

/-- Closing a block changes one cell outside the protocol's own. -/
theorem get_closed (tr : BlockTrace s b p) {slot : Slot} (haddr : slot.addr ≠ protocolAddress) :
    (tr.closed.s.get slot).toNat = (tr.σ₁.j.s.get slot).toNat +
      if slot = maturedCell b.header p tr.σ₂.j.s then tr.matured.toNat else 0 := by
  have hrec := (record_block_writes (h := b.header) (p := p) (j := tr.σ₁.j) b.cites
    tr.σ₁.res.seqGasApplied).get_eq (k := slot) haddr
  have hstore := (store_pending_writes (j := tr.mid) (ringIndex b.header p) b.header.emissionAddr
    tr.σ₂.res.minerReward).get_eq (k := slot) haddr
  have hfees := (update_base_fees_writes (h := b.header) (p := p) (j := tr.σ₃.j)
    (currentSeqGasTarget s p b.header.height) (openedFees b.header p s).1
    (openedFees b.header p s).2 tr.σ₃.res).get_eq (k := slot) haddr
  obtain ⟨credited, -, htreasury⟩ := tr.reward.treasury
  have hne : treasurySlot ≠ slot := fun h => haddr (h ▸ rfl)
  have hmid : (tr.closed.s.get slot).toNat = (tr.mid.s.get slot).toNat := by
    rw [closed, hfees, tr.ring.j, hstore]
  have hopen : tr.σ₂.j.s.get slot = tr.σ₁.j.s.get slot := by
    rw [htreasury, State.get_set_of_ne _ _ hne]
    simpa [recorded] using hrec
  rw [hmid, tr.ring.paid.get_eq, hopen]

end BlockTrace

end

end Zycord.Fold
