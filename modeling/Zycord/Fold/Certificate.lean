import Zycord.Fold.Footprint

/-!
# What one certificate does

`CertStep` says in closed form what the execution of a certificate leads to: it is dropped, or
its deposit is reserved, it is skipped or applied (`Prepared`), and the deposit is settled
(`PaidOut`). `CertFailure` says what it takes for the execution to fail.
`apply_certificate_spec` proves that `applyCertificate` does exactly that; the rest of the
development argues about `CertStep` and never unfolds the function again.
-/

namespace Zycord.Fold

open Mut U256
open Journal (Footprint Writes)

/-- The journal once the deposit is taken. -/
def reserve (c : Certificate) (j : Journal) : Journal :=
  j.set c.deposit.cell ((j.s.get c.deposit.cell).sub c.deposit.amount).1

theorem get_reserve_of_ne {c : Certificate} {j : Journal} {slot : Slot}
    (h : c.deposit.cell ≠ slot) : (reserve c j).s.get slot = j.s.get slot :=
      State.get_set_of_ne _ _ h

/-- The journal once the staged writes are made. -/
def writeStaged (c : Certificate) (j : Journal) : Journal :=
  (j.setAll (overlayOf j.s c.writes).cells).markAllSpent (overlayOf j.s c.writes).spend

/-- The deposit can be reserved. -/
structure Funded (c : Certificate) (s : State) : Prop where
  unspent : s.isSpent c.deposit.cell.addr = false
  covered : c.deposit.amount.toNat ≤ (s.get c.deposit.cell).toNat

/-- What a skipped certificate pays. -/
def skipSplit (p : Params) : FeeSplit := ⟨p.skipFee, p.skipFee, 0⟩

/-- Paying an amount to a cell: what was paid, what was burned because the address is, and the
journal after it. -/
inductive PaidOut (dst : Slot) (amount : U256) (j : Journal) : U256 → U256 → Journal → Prop where
  | nothing (h : amount = 0) : PaidOut dst amount j 0 0 j
  | burned (h : amount ≠ 0) (hs : j.s.isSpent dst.addr = true) : PaidOut dst amount j 0 amount j
  | paid (credited : U256) (h : amount ≠ 0) (hs : j.s.isSpent dst.addr = false)
      (hv : credited.toNat = (j.s.get dst).toNat + amount.toNat) :
      PaidOut dst amount j amount 0 (j.set dst credited)

section

variable [Crypto]

/-- How a certificate whose deposit is reserved stands before it is settled: the outcome, the
fees it owes and the journal with the tally of the sweep. -/
inductive Prepared (c : Certificate) (p : Params) (fs fp : U256) (j : Journal) :
    Outcome → FeeSplit → Sweep → Prop where
  | stale (h : readsHold (reserve c j).s c = false) :
      Prepared c p fs fp j .skippedStale (skipSplit p) ⟨reserve c j, 0, 0, 0⟩
  | unstaged (reason : Outcome) (hr : readsHold (reserve c j).s c = true)
      (h : stageWrites (reserve c j).s c = .error reason) :
      Prepared c p fs fp j reason (skipSplit p) ⟨reserve c j, 0, 0, 0⟩
  | applied (fees : FeeSplit) (hr : readsHold (reserve c j).s c = true)
      (h : ∀ w ∈ c.writes, (reserve c j).s.isSpent w.slot.addr = false ∧ InRange (reserve c j).s w)
      (hfees : c.fees p fs fp = some fees) :
      Prepared c p fs fp j .applied fees (sweepBurned c (writeStaged c (reserve c j)))

/-- One execution of a certificate: its record, its tip, and the journal and the burn after it. -/
inductive CertStep (c : Certificate) (id : Hash) (p : Params) (fs fp : U256) (j : Journal)
    (burned : U256) : CertOutcome → U256 → Journal → U256 → Prop where
  | dropped (h : ¬ Funded c j.s) : CertStep c id p fs fp j burned (.drop id) 0 j burned
  | billed {outcome : Outcome} {fees : FeeSplit} {sweep : Sweep}
      {refund refunded refundBurned burned' : U256} {j' : Journal} (hf : Funded c j.s)
      (hp : Prepared c p fs fp j outcome fees sweep)
      (hr : fees.charge.toNat + refund.toNat = c.deposit.amount.toNat)
      (hpay : PaidOut c.deposit.refundTo refund sweep.j refunded refundBurned j')
      (hb : burned'.toNat = burned.toNat + fees.burned.toNat + refundBurned.toNat) :
      CertStep c id p fs fp j burned
        ⟨id, outcome, fees.charge, refunded, refundBurned, sweep.swept, sweep.stranded, sweep.cells⟩
        fees.tip (j'.markSeen id c.ttl) burned'

/-- The ways an execution can fail. -/
inductive CertFailure (c : Certificate) (p : Params) (fs fp : U256) (j : Journal) (burned : U256) :
    FoldError → Prop where
  | notUser (h : isUserAddress c.deposit.cell.addr = false) (msg : String) :
      CertFailure c p fs fp j burned (.invalid .F3 msg)
  | noFees (hf : Funded c j.s) (h : c.fees p fs fp = none) (what : String) :
      CertFailure c p fs fp j burned (.conservationFailure what)
  | unsettled {outcome : Outcome} {fees : FeeSplit} {sweep : Sweep} (hf : Funded c j.s)
      (hp : Prepared c p fs fp j outcome fees sweep)
      (h : c.deposit.amount.toNat < fees.charge.toNat ∨ 2 ^ 256 ≤ burned.toNat + fees.burned.toNat ∨
        ∃ refund : U256, fees.charge.toNat + refund.toNat = c.deposit.amount.toNat ∧
          (2 ^ 256 ≤ burned.toNat + fees.burned.toNat + refund.toNat ∨
            2 ^ 256 ≤ (sweep.j.s.get c.deposit.refundTo).toNat + refund.toNat)) (what : String) :
      CertFailure c p fs fp j burned (.conservationFailure what)

end

/-! ## The specifications, callee by callee -/

variable {c : Certificate} {id : Hash} {p : Params} {fs fp : U256}

/-- A fold state with another journal and burn total. -/
def FoldState.burn (σ : FoldState) (j : Journal) (burned : U256) : FoldState :=
  ⟨j, { σ.res with burned }⟩

theorem pay_refund_spec (refund : U256) (σ : FoldState) :
    Mut.wp (payRefund c refund)
      (fun x σ' => ∃ burned' j', σ' = σ.burn j' burned' ∧
        PaidOut c.deposit.refundTo refund σ.j x.1 x.2 j' ∧
          burned'.toNat = σ.res.burned.toNat + x.2.toNat)
      (fun e _ => (∃ what, e = .conservationFailure what) ∧
        (2 ^ 256 ≤ σ.res.burned.toNat + refund.toNat ∨
          2 ^ 256 ≤ (σ.j.s.get c.deposit.refundTo).toNat + refund.toNat)) σ := by
  refine wp_ite _ (fun hzero => ?_) fun hzero => wp_ite _ (fun hspent => ?_) fun hspent => ?_
  · exact ⟨σ.res.burned, σ.j, rfl, .nothing (is_zero_iff.mp hzero), rfl⟩
  all_goals have hne : refund ≠ 0 := mt is_zero_iff.mpr hzero
  · simp only [wp_bind, wp_add_burned]
    exact ⟨fun w hw => ⟨w, σ.j, rfl, .burned hne hspent, hw⟩, fun ho => ⟨⟨_, rfl⟩, Or.inl ho⟩⟩
  · simp only [wp_bind, wp_conserve_add, wp_on_journal]
    exact ⟨fun w hw => ⟨σ.res.burned, _, rfl, .paid w hne (by simpa using hspent) hw, rfl⟩,
      fun ho => ⟨⟨_, rfl⟩, Or.inr ho⟩⟩

/-- What settling burns besides the refund: the charge, unless the certificate applied. -/
def chargeBurnt (outcome : Outcome) (charge : U256) : ℕ :=
  if outcome = .applied then 0 else charge.toNat

/-- Settling splits the deposit into the charge and the refund. -/
theorem settle_spec (outcome : Outcome) (charge : U256) (σ : FoldState) :
    Mut.wp (settle c id outcome charge)
      (fun out σ' => ∃ refund refunded refundBurned burned' j',
        charge.toNat + refund.toNat = c.deposit.amount.toNat ∧
        PaidOut c.deposit.refundTo refund σ.j refunded refundBurned j' ∧
        burned'.toNat = σ.res.burned.toNat + chargeBurnt outcome charge + refundBurned.toNat ∧
        out = ⟨id, outcome, charge, refunded, refundBurned, 0, 0, 0⟩ ∧
        σ' = σ.burn (j'.markSeen id c.ttl) burned')
      (fun e _ => (∃ what, e = .conservationFailure what) ∧ (c.deposit.amount.toNat < charge.toNat ∨
          2 ^ 256 ≤ σ.res.burned.toNat + chargeBurnt outcome charge ∨
          ∃ refund : U256, charge.toNat + refund.toNat = c.deposit.amount.toNat ∧
            (2 ^ 256 ≤ σ.res.burned.toNat + chargeBurnt outcome charge + refund.toNat ∨
              2 ^ 256 ≤ (σ.j.s.get c.deposit.refundTo).toNat + refund.toNat))) σ := by
  have hburn : wp (if outcome ≠ .applied then
        addBurned charge "accumulated burn overflows 256 bits" else pure ())
      (fun _ σ₁ => ∃ burned₁ : U256, σ₁ = σ.burn σ.j burned₁ ∧
        burned₁.toNat = σ.res.burned.toNat + chargeBurnt outcome charge)
      (fun e _ => (∃ what, e = .conservationFailure what) ∧
        2 ^ 256 ≤ σ.res.burned.toNat + chargeBurnt outcome charge) σ := by
    refine wp_ite _ (fun ho => ?_) fun ho =>
      ⟨σ.res.burned, rfl, by simp [chargeBurnt, not_not.mp ho]⟩
    rw [wp_add_burned, chargeBurnt, if_neg ho]
    exact ⟨fun burned₁ hburned => ⟨burned₁, rfl, hburned⟩, fun hover => ⟨⟨_, rfl⟩, hover⟩⟩
  rw [settle, wp_bind]
  refine wp_mono hburn ?_ fun e σ' he => ⟨he.1, Or.inr (Or.inl he.2)⟩
  rintro - - ⟨burned₁, rfl, hburned⟩
  simp only [wp_bind, wp_conserve_sub]
  refine ⟨fun refund hrefund => ?_, fun hlt => ⟨⟨_, rfl⟩, Or.inl hlt⟩⟩
  have hsplit : charge.toNat + refund.toNat = c.deposit.amount.toNat := by omega
  refine wp_mono (pay_refund_spec refund (σ.burn σ.j burned₁)) (fun x σ' hx => ?_)
    fun e σ' he => ⟨he.1, Or.inr (Or.inr ⟨refund, hsplit, hburned ▸ he.2⟩)⟩
  obtain ⟨burned', j', rfl, hpay, hb⟩ := hx
  exact ⟨refund, x.1, x.2, burned', j', hsplit, hpay, hburned ▸ hb, rfl, rfl⟩

theorem stage_error_ne_applied {s : State} {reason : Outcome}
    (h : stageWrites s c = .error reason) : reason ≠ .applied := by
  rcases stage_writes_error h with ⟨rfl, -⟩ | ⟨rfl, -⟩ <;> decide

section

variable [Crypto]

theorem skip_spec {outcome : Outcome} {j : Journal} {σ : FoldState} (ho : outcome ≠ .applied)
    (hf : Funded c j.s) (hσ : σ.j = reserve c j)
    (hp : Prepared c p fs fp j outcome (skipSplit p) ⟨reserve c j, 0, 0, 0⟩) :
    Mut.wp (skip c id p outcome)
      (fun x σ' => ∃ burned' j', CertStep c id p fs fp j σ.res.burned x.1 x.2 j' burned' ∧
        σ' = σ.burn j' burned')
      (fun e _ => CertFailure c p fs fp j σ.res.burned e) σ := by
  simp only [skip, wp_bind, wp_pure]
  have hburnt : chargeBurnt outcome p.skipFee = p.skipFee.toNat := if_neg ho
  refine wp_mono (settle_spec outcome p.skipFee σ) (fun out σ' hout => ?_) fun e σ' he => ?_
  · obtain ⟨refund, refunded, refundBurned, burned', j', hsplit, hpay, hb, rfl, rfl⟩ := hout
    exact ⟨burned', _, .billed hf hp hsplit (hσ ▸ hpay) (hburnt ▸ hb), rfl⟩
  · obtain ⟨⟨what, rfl⟩, hcases⟩ := he
    exact .unsettled hf hp (hσ ▸ hburnt ▸ hcases) what

theorem commit_spec {j : Journal} {σ : FoldState} (hf : Funded c j.s) (hσ : σ.j = reserve c j)
    (hr : readsHold (reserve c j).s c = true)
    (hw : ∀ w ∈ c.writes, (reserve c j).s.isSpent w.slot.addr = false ∧ InRange (reserve c j).s w) :
    Mut.wp (commit c id p fs fp (overlayOf (reserve c j).s c.writes))
      (fun x σ' => ∃ burned' j', CertStep c id p fs fp j σ.res.burned x.1 x.2 j' burned' ∧
        σ' = σ.burn j' burned')
      (fun e _ => CertFailure c p fs fp j σ.res.burned e) σ := by
  simp only [commit, wp_bind, wp_on_journal, wp_get, wp_of_option, wp_add_burned, wp_pure, hσ]
  refine ⟨fun fees hfees => ⟨fun burned₁ hburned => ?_, fun hover => ?_⟩, fun hnone => ?_⟩
  · have hp : Prepared c p fs fp j .applied fees _ := .applied fees hr hw hfees
    refine wp_mono (settle_spec .applied fees.charge _) (fun out σ' hout => ?_)
      fun e σ' he => ?_
    · obtain ⟨refund, refunded, refundBurned, burned', j', hsplit, hpay, hb, rfl, rfl⟩ := hout
      exact ⟨burned', _, .billed hf hp hsplit hpay (hburned ▸ hb), rfl⟩
    · obtain ⟨⟨what, rfl⟩, hlt | hover | hrefund⟩ := he
      · exact .unsettled hf hp (Or.inl hlt) what
      · exact absurd hover (not_le.mpr burned₁.isLt)
      · exact .unsettled hf hp (Or.inr (Or.inr (hburned ▸ hrefund))) what
  · exact .unsettled hf (.applied fees hr hw hfees) (Or.inr (Or.inl hover)) _
  · exact .noFees hf hnone _

/-- `applyCertificate` does what `CertStep` says, and fails as `CertFailure` says. -/
theorem apply_certificate_spec (σ : FoldState) :
    Mut.wp (applyCertificate c id p fs fp)
      (fun x σ' => ∃ burned' j', CertStep c id p fs fp σ.j σ.res.burned x.1 x.2 j' burned' ∧
        σ' = σ.burn j' burned')
      (fun e _ => CertFailure c p fs fp σ.j σ.res.burned e) σ := by
  simp only [applyCertificate, wp_bind, wp_require, wp_get_state]
  refine ⟨fun _ => ?_, fun huser => .notUser (by simpa using huser) _⟩
  refine wp_ite _ (fun hspent => ?_) fun hspent => wp_ite _ (fun hlow => ?_) fun hlow => ?_
  · exact ⟨σ.res.burned, σ.j, .dropped fun hf => by simp [hf.unspent] at hspent, rfl⟩
  · refine ⟨σ.res.burned, σ.j, .dropped fun hf => ?_, rfl⟩
    exact absurd hf.covered (not_le.mpr (lt_def.mp hlow))
  · have hf : Funded c σ.j.s :=
      ⟨by simpa using hspent, not_lt.mp fun h => hlow (lt_def.mpr h)⟩
    refine wp_ite _ (fun hread => ?_) fun hread => ?_
    · exact skip_spec (by decide) hf rfl (.stale (by simpa [reserve] using hread))
    · have hread' : readsHold (reserve c σ.j).s c = true := by simpa [reserve] using hread
      split
      · rename_i reason hstage
        exact skip_spec (stage_error_ne_applied hstage) hf rfl (.unstaged reason hread' hstage)
      · rename_i ov hstage
        obtain ⟨hw, rfl⟩ := stage_writes_eq_ok.mp hstage
        exact commit_spec hf rfl hread' hw

end

/-! ## What a payment does -/

namespace PaidOut

variable {dst : Slot} {amount paid unpaid : U256} {j j' : Journal}

section

variable (h : PaidOut dst amount j paid unpaid j')

include h

theorem total : paid.toNat + unpaid.toNat = amount.toNat := by
  cases h with
  | nothing h => simp [h]
  | burned h hs => simp
  | paid credited h hs hv => simp

theorem paid_eq :
    paid = (if j.s.isSpent dst.addr then 0 else amount) ∧
      unpaid = if j.s.isSpent dst.addr then amount else 0 := by
  cases h with
  | nothing h => simp [h]
  | burned h hs => simp [hs]
  | paid credited h hs hv => simp [hs]

/-- The destination grows by what is paid, and nothing else changes. -/
theorem get_eq (slot : Slot) :
    (j'.s.get slot).toNat = (j.s.get slot).toNat + if slot = dst then paid.toNat else 0 := by
  cases h with
  | nothing h => simp
  | burned h hs => simp
  | paid credited h hs hv =>
    by_cases hd : slot = dst
    · simp [hd, hv]
    · simp [State.get_set_of_ne _ _ (Ne.symm hd), hd]

theorem writes {F : Footprint} (hF : F.cells dst) : Writes F j j' := by
  cases h with
  | nothing h => exact .refl j
  | burned h hs => exact .refl j
  | paid credited h hs hv => exact set_writes hF

@[simp] theorem is_spent_eq (a : Address) : j'.s.isSpent a = j.s.isSpent a := by
  cases h <;> simp

@[simp] theorem seen_eq (id : Hash) : j'.s.seenTTL id = j.s.seenTTL id := by
  cases h <;> simp

end

end PaidOut

/-! ## The footprint of a step -/

section

variable [Crypto] {outcome : Outcome} {fees : FeeSplit} {sweep : Sweep} {j j' : Journal}
  {burned burned' tip : U256} {out : CertOutcome}

theorem Prepared.writes (h : Prepared c p fs fp j outcome fees sweep) :
    Writes (certFootprint c id) j sweep.j := by
  have hreserve : Writes (certFootprint c id) j (reserve c j) := set_writes (Or.inl rfl)
  cases h with
  | stale => exact hreserve
  | unstaged => exact hreserve
  | applied fees hr hw hfees =>
    exact (hreserve.trans (overlay_writes _ _)).trans (sweep_burned_cert_writes _)

section

variable (h : CertStep c id p fs fp j burned out tip j' burned')

include h

theorem CertStep.writes : Writes (certFootprint c id) j j' := by
  cases h with
  | dropped => exact .refl j
  | billed hf hp hr hpay hb =>
    exact (hp.writes.trans (hpay.writes (Or.inr (Or.inl rfl)))).markSeen id c.ttl ⟨rfl, rfl⟩

theorem CertStep.out_id : out.id = id := by
  cases h <;> rfl

theorem CertStep.seen (ho : out.outcome ≠ .dropped) : (j'.s.seenTTL id).isSome = true := by
  cases h with
  | dropped => exact absurd rfl ho
  | billed => simp [Journal.seen_ttl_mark_seen]

end

end

end Zycord.Fold
