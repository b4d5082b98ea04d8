import Zycord.Core.Decode
import Zycord.Fold.Run
import Zycord.Validity.Shape

/-!
# What passes the rules decodes

Everything the certificate decoder refuses is refused by a V-rule too, in part through the equality
with the derived sets: an accepted certificate is in the decoder's canonical form
(`canonical_of_check`). So a certificate built in memory that passes the rules is decoded by every
peer, to the same certificate: `locally_valid_decodes`.
-/

namespace Zycord.Validity

open Except List Crypto

section

variable [Crypto] {c : Certificate} {p : Params}

omit [Crypto] in
theorem fail_over_eq_ok {n : ℕ} {limit : Int64} {what : String} :
    failOver n limit what = .ok () ↔ (n : ℤ) ≤ limit.toInt := by
  rw [failOver, fail_if_eq_ok, gt_iff_lt, not_lt]

omit [Crypto] in
theorem chain_of_check_retire {last : Option Address} {addrs : List Address}
    (h : checkRetire last addrs = .ok ()) : (last.toList ++ addrs).IsChain (· < ·) := by
  induction addrs generalizing last with
  | nil => cases last <;> simp
  | cons a rest ih =>
    simp only [checkRetire, seq_eq_ok, reject_if_eq_ok, not_exists, not_and, not_not] at h
    obtain ⟨-, hlast, hrest⟩ := h
    have hchain := ih hrest
    cases last with
    | none => simpa using hchain
    | some b => exact List.IsChain.cons_cons (hlast b rfl) (by simpa using hchain)

theorem program_canonical
    (hderived : deriveCert c.program c.chainID c.seq c.deposit.cell.addr = .ok (c.reads, c.writes))
    (hlimits : checkProgramLimits c.program p = .ok ()) :
    c.program.Canonical p.maxMovesPerTransfer p.maxRetireAddrs := by
  obtain ⟨⟨rs, ws⟩, hderive, -⟩ := bind_eq_ok.mp hderived
  cases hprog : c.program with
  | transfer moves =>
    rw [hprog, checkProgramLimits, fail_over_eq_ok] at hlimits
    exact hlimits
  | issue args => trivial
  | mint args => trivial
  | retire addrs =>
    rw [hprog, checkProgramLimits, fail_over_eq_ok] at hlimits
    rw [hprog] at hderive
    simp only [derive, deriveRetire, seq_eq_ok] at hderive
    exact ⟨hlimits, by simpa using chain_of_check_retire hderive.2.1⟩

/-- Derived reads have known access kinds. -/
theorem CertShape.reads_known (h : CertShape c) : ∀ r ∈ c.reads, ¬ r.access.byte > 3 := by
  intro r hr
  cases h with
  | transfer moves sums burns _ _ _ hreads _ _ =>
    obtain ⟨e, -, rfl⟩ := mem_map.mp (hreads.mem_iff.mp hr)
    exact Access.byte_le (by simp)
  | issue args burns _ _ _ hreads _ _ =>
    rw [hreads, mem_singleton] at hr
    subst hr
    exact Access.byte_le (by simp)
  | mint args burns _ _ _ _ _ hreads _ _ =>
    have hr := hreads.mem_iff.mp hr
    simp only [mintReads, mem_cons, not_mem_nil, or_false] at hr
    rcases hr with rfl | rfl | rfl <;> exact Access.byte_le (by simp)
  | retire addrs _ hreads _ => simp [hreads] at hr

omit [Crypto] in
theorem canonical_of_known {w : Write} (hknown : ∀ code, w.op ≠ .unknown code)
    (hop : w.op ≠ .markSpent) : w.Canonical := ⟨Op.byte_le hknown, fun h => absurd h hop⟩

theorem CertShape.writes_canonical (h : CertShape c) : ∀ w ∈ c.writes, w.Canonical := by
  intro w hw
  cases h.written hw with
  | burned a _ heq =>
    subst heq
    exact ⟨Op.byte_le (by simp [markSpentWrite]), fun _ => ⟨rfl, rfl⟩⟩
  | balance _ _ _ hop =>
    rcases hop with hop | hop <;> exact canonical_of_known (by simp [hop]) (by simp [hop])
  | issued _ _ _ _ _ _ _ hop | minted _ _ _ hop =>
    exact canonical_of_known (by simp [hop]) (by simp [hop])

/-- A certificate that passes the structural rules is in the decoder's canonical form. -/
theorem canonical_of_check (h : checkStructural c p = .ok ()) : c.Canonical p := by
  simp only [checkStructural, seq_eq_ok] at h
  obtain ⟨hcanonical, hderivation, -⟩ := h
  have hderived := derived_of_check hderivation
  have hshape := shape_of_derive hderived
  simp only [checkCanonical, seq_eq_ok, fail_if_eq_ok, fail_at_eq_ok, fail_over_eq_ok,
    gt_iff_lt, not_lt] at hcanonical
  obtain ⟨-, hlimits, hreads, hwrites, hsigs, -, hrsorted, hwsorted, hssorted, hseq, hpar⟩ :=
    hcanonical
  exact {
    program := program_canonical hderived hlimits
    reads_len := hreads
    reads_known := hshape.reads_known
    reads_sorted := (pairwise_of_first_unsorted hrsorted).isChain
    writes_len := hwrites
    writes := hshape.writes_canonical
    writes_sorted := (pairwise_of_first_unsorted hwsorted).isChain
    sigs_len := hsigs
    sigs_sorted := (pairwise_of_first_unsorted hssorted).isChain
    seq_priority := hseq
    par_priority := hpar }

/-- A certificate that passes the structural rules and encodes to less than 2^32 bytes is decoded
from its encoding, to itself. -/
theorem locally_valid_decodes (h : checkStructural c p = .ok ())
    (hsize : c.marshal.length < 2 ^ 32) :
    ∃ c', unmarshalCertificate c.marshal p = .ok c' ∧ c' = c ∧ c'.id = c.id ∧
      c'.exemplarHash = c.exemplarHash :=
  ⟨c, unmarshal_certificate_marshal (canonical_of_check h) hsize, rfl, rfl, rfl⟩

end

section

open Fold.Sample

attribute [local instance] Reference.crypto

/-- The sample payment is decoded by its peers. -/
theorem sample_locally_valid_decodes :
    ∃ c', unmarshalCertificate payment.marshal params = .ok c' ∧ c' = payment ∧
      c'.id = payment.id ∧ c'.exemplarHash = payment.exemplarHash :=
  locally_valid_decodes (by decide +kernel) (by decide +kernel)

end

end Zycord.Validity
