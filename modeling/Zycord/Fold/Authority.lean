import Zycord.Fold.Trace
import Zycord.Fold.Run

/-!
# No debit and no burn without the owner's signature

A certificate can lower a cell, or burn an address, only where its deposit is reserved or where it
declares a debit, an overwrite or a burn (`CertStep.le_of_not_spends`); for user addresses the
validity rules ask for a signature of the owner's key there. The steps of the fold around the
certificates lower no user cell at all. `debits_are_signed` states both for accepted blocks.
-/

namespace Zycord.Fold

open Journal List State Validity

/-- A certificate takes from an address. -/
def Spends (c : Certificate) (a : Address) : Prop :=
  a = c.deposit.cell.addr ∨ ∃ w ∈ c.writes, w.slot.addr = a ∧
    (w.op = .set ∨ w.op = .deltaSub ∨ w.op = .markSpent)

section Pure

variable {c : Certificate} {j j' : Journal} {slot : Slot}

theorem Moves.get_le (h : Moves c j j') (hs : slot.addr ∉ spentHere c) :
    (j.s.get slot).toNat ≤ (j'.s.get slot).toNat := by
  induction h with
  | refl => exact le_refl _
  | @move j₁ src _ hsrc ih =>
    rcases move_residual_cases j₁ src c.deposit.refundTo.addr with heq | ⟨sum, hsum, heq⟩
    · rwa [heq]
    · rw [heq, s_set, s_set]
      have hne : src ≠ slot := fun h => hs (h ▸ hsrc)
      by_cases hd : (⟨c.deposit.refundTo.addr, src.word⟩ : Slot) = slot
      · rw [hd, get_set_self, hsum, hd]
        omega
      · rwa [get_set_of_ne _ _ hd, get_set_of_ne _ _ hne]

/-- Staged writes lower no cell the certificate does not spend. -/
theorem get_le_write_staged (hw : ∀ w ∈ c.writes, InRange j.s w) (hs : ¬ Spends c slot.addr) :
    (j.s.get slot).toNat ≤ ((writeStaged c j).s.get slot).toNat := by
  rw [writeStaged, get_mark_all_spent]
  rcases get_set_all j (overlayOf j.s c.writes).cells slot with h | h
  · rw [h]
  · obtain ⟨w, hmem, heq⟩ := mem_map.mp h
    obtain ⟨rfl, hval⟩ := Prod.mk.inj heq
    obtain ⟨hwm, hop⟩ := mem_filter.mp hmem
    rw [← hval]
    have hin := hw w hwm
    cases hw' : w.op with
    | deltaAdd =>
      rw [InRange, hw'] at hin
      simp only [stagedValue, hw']
      rw [U256.to_nat_add hin]
      omega
    | markSpent => simp [hw'] at hop
    | set => exact absurd (Or.inr ⟨w, hwm, rfl, Or.inl hw'⟩) hs
    | deltaSub => exact absurd (Or.inr ⟨w, hwm, rfl, Or.inr (Or.inl hw')⟩) hs
    | unknown code => simp [InRange, hw'] at hin

end Pure

section

variable [Crypto] {c : Certificate} {id : Hash} {p : Params} {fs fp : U256} {j j' : Journal}
  {burned burned' tip : U256} {out : CertOutcome} {slot : Slot}

theorem Prepared.get_le {outcome : Outcome} {fees : FeeSplit} {sweep : Sweep}
    (h : Prepared c p fs fp j outcome fees sweep) (hs : ¬ Spends c slot.addr) :
    (j.s.get slot).toNat ≤ (sweep.j.s.get slot).toNat := by
  have hreserve : (reserve c j).s.get slot = j.s.get slot :=
    get_reserve_of_ne fun h => hs (Or.inl (h ▸ rfl))
  cases h with
  | stale => rw [hreserve]
  | unstaged => rw [hreserve]
  | applied fees hr hw hfees =>
    have hburn : slot.addr ∉ spentHere c := fun hmem => by
      obtain ⟨w, hwm, hop, ha⟩ := mem_spent_here.mp hmem
      exact hs (Or.inr ⟨w, hwm, ha, Or.inr (Or.inr hop)⟩)
    have hstaged := get_le_write_staged (fun w hwm => (hw w hwm).2) hs
    rw [hreserve] at hstaged
    exact hstaged.trans ((sweep_burned_moves c _).get_le hburn)

section

variable (h : CertStep c id p fs fp j burned out tip j' burned')

include h

/-- A certificate lowers no cell of an address it does not spend from. -/
theorem CertStep.le_of_not_spends (slot : Slot) (hs : ¬ Spends c slot.addr) :
    (j.s.get slot).toNat ≤ (j'.s.get slot).toNat := by
  cases h with
  | dropped => exact le_refl _
  | billed hf hp hr hpay hb =>
    rw [Journal.get_mark_seen, hpay.get_eq]
    exact (hp.get_le hs).trans (Nat.le_add_right _ _)

theorem CertStep.spends_of_burn {a : Address} (hold : j.s.isSpent a = false)
    (hnew : j'.s.isSpent a = true) : Spends c a := by
  rcases h.writes.spent_new hnew with h | h
  · simp [hold] at h
  · obtain ⟨w, hw, hop, ha⟩ := mem_spent_here.mp h
    exact Or.inr ⟨w, hw, ha, Or.inr (Or.inr hop)⟩

end

/-- A key of an address signed a certificate. -/
def SignedBy (c : Certificate) (p : Params) (a : Address) : Prop :=
  ∃ sig ∈ c.sigs, addressFromPubKey a.version sig.pubKey = a ∧
    Crypto.verifyStrict sig.pubKey (c.signingMessage p) sig.sig = true

theorem signed_of_spends {a : Address} (hc : ValidCert c p) (ha : isUserAddress a = true)
    (hs : Spends c a) : SignedBy c p a := by
  have hreq : a ∈ requiredAddrs c := by
    unfold requiredAddrs
    rcases hs with rfl | ⟨w, hw, rfl, hop⟩
    · simp
    · have hmem : w.slot.addr ∈ (c.writes.filter fun w =>
          (w.op = .set || w.op = .deltaSub || w.op = .markSpent) && isUserAddress w.slot.addr).map
          fun w => w.slot.addr :=
        mem_map.mpr ⟨w, mem_filter.mpr ⟨hw, by
          rcases hop with h | h | h <;> simp [h, ha]⟩, rfl⟩
      exact mem_append.mpr (Or.inl (mem_cons_of_mem _ hmem))
  obtain ⟨sig, hsig, hauth⟩ := hc.authorised a hreq
  exact ⟨sig, hsig, by simpa [authorises] using hauth, hc.verified sig hsig⟩

omit [Crypto] in
theorem ne_protocol_of_user {a : Address} (ha : isUserAddress a = true) : a ≠ protocolAddress := by
  rintro rfl
  simp [not_user_protocol_address] at ha

/-- In an accepted block, a certificate that lowers a cell of a user address or burns one, at its
position in the fold, carries a verified signature of the address's key; and the steps before and
after the certificates lower no cell of a user address. -/
theorem debits_are_signed {s s' : State} {b : Block} {r : Result}
    (happly : applyBlock s b p = (.ok r, s')) :
    (∀ before cy after tips σ x σ', foldOrder (carry b.certs) = before ++ cy :: after →
      applyCerts p (openedFees b.header p s).1 (openedFees b.header p s).2 before
        ⟨opened b.header p s, Result.empty⟩ = (.ok tips, σ) →
      applyCertificate cy.cert cy.id p (openedFees b.header p s).1 (openedFees b.header p s).2
        { σ with res := countUsed cy.cert p σ.res } = (.ok x, σ') →
      ∀ a, isUserAddress a = true → ((∃ word, σ'.j.s.get ⟨a, word⟩ < σ.j.s.get ⟨a, word⟩) ∨
          σ.j.s.isSpent a = false ∧ σ'.j.s.isSpent a = true) →
        SignedBy cy.cert p a) ∧
    ∀ tips σ, applyCerts p (openedFees b.header p s).1 (openedFees b.header p s).2
        (foldOrder (carry b.certs)) ⟨opened b.header p s, Result.empty⟩ = (.ok tips, σ) →
      ∀ slot : Slot, isUserAddress slot.addr = true →
        s.get slot ≤ (opened b.header p s).s.get slot ∧ σ.j.s.get slot ≤ s'.get slot := by
  obtain ⟨tr, hy⟩ := block_trace happly
  refine ⟨fun before cy after tips σ x σ' hsplit _ hcert a ha htaken => ?_,
    fun tips σ hrun slot huser => ⟨?_, ?_⟩⟩
  · have hmem : cy ∈ foldOrder (carry b.certs) := by simp [hsplit]
    obtain ⟨c, hc, rfl⟩ := mem_fold_order.mp hmem
    have hvalid := validCert_of_check (tr.ok.certs c hc).checked
    obtain ⟨burned, j, hstep, rfl⟩ := Mut.of_wp_ok (apply_certificate_spec _) hcert
    refine signed_of_spends hvalid ha ?_
    rcases htaken with ⟨word, hlow⟩ | ⟨hold, hnew⟩
    · by_contra hs
      exact absurd (hstep.le_of_not_spends ⟨a, word⟩ hs) (not_le.mpr hlow)
    · exact hstep.spends_of_burn hold hnew
  · have hframe := (opened_writes b.header p s).get_eq (k := slot) (ne_protocol_of_user huser)
    exact le_of_eq hframe.symm
  · obtain ⟨-, rfl⟩ := Prod.mk.inj (hrun.symm.trans tr.run)
    rw [hy.state, U256.le_def, tr.get_closed (ne_protocol_of_user huser)]
    exact Nat.le_add_right _ _

end

section

attribute [local instance] Reference.crypto

open Sample

/-- Where a payment that an accepted block executes takes from, its owner signed. -/
theorem sample_debits_are_signed :
    ∃ s b r s', applyBlock s b params = (.ok r, s') ∧ b.certs = [payment] ∧
      ∀ x σ', applyCertificate payment payment.id params (openedFees b.header params s).1
          (openedFees b.header params s).2
          ⟨opened b.header params s, countUsed payment params Result.empty⟩ = (.ok x, σ') →
        ∀ a, isUserAddress a = true →
          (∃ word, σ'.j.s.get ⟨a, word⟩ < (opened b.header params s).s.get ⟨a, word⟩) →
          SignedBy payment params a := by
  obtain ⟨-, s, b, r, s', -, -, happly, -, hcerts, -⟩ := payment_applies
  refine ⟨s, b, r, s', happly, hcerts, fun x σ' hcert a ha hlow => ?_⟩
  exact (debits_are_signed happly).1 [] ⟨payment, payment.id⟩ [] 0 _ x σ'
    (by simp [hcerts, carry, foldOrder]) rfl hcert a ha (Or.inl hlow)

end

end Zycord.Fold
