import Zycord.Fold.Trace
import Zycord.Fold.Undo

/-!
# One authorisation, at most one bill

A certificate that was charged is in the seen set until it has expired for good, and an expired
certificate is refused for its height; so no chain bills an id twice (`billed_at_most_once`),
whatever was undone on the way. The invariant is `SeenInv`: every id billed on the chain is still
recorded with its expiry, or expired at least two blocks ago.
-/

namespace Zycord.Fold

open List Option UndoLog
open Journal (Footprint Writes)

/-- A block carries a certificate and charges it. -/
def Billed [Crypto] (e : Block × Result) (c : Certificate) : Prop :=
  c ∈ e.1.certs ∧ ∃ o ∈ e.2.outcomes, o.id = c.id ∧ o.outcome ≠ .dropped

/-- A block charges a certificate of that id. -/
def Bills [Crypto] (e : Block × Result) (id : Hash) : Prop := ∃ c, Billed e c ∧ c.id = id

section

variable [Crypto] {p : Params} {log : ChainLog} {s s' : State} {b : Block} {r : Result}

/-- What the certificates of a block can record. -/
def certsFootprint (b : Block) : Footprint where
  cells _ := True
  burns _ := True
  ids id ttl := ∃ c ∈ b.certs, id = c.id ∧ ttl = c.ttl

theorem cert_within_certs {cy : Carried} (h : cy ∈ foldOrder (carry b.certs)) :
    (certFootprint cy.cert cy.id).Within (certsFootprint b) := by
  obtain ⟨c, hc, rfl⟩ := mem_fold_order.mp h
  exact ⟨fun _ _ => trivial, fun _ _ => trivial, fun _ _ hid => ⟨c, hc, hid⟩⟩

theorem BlockTrace.certs_writes (tr : BlockTrace s b p) :
    Writes (certsFootprint b) ⟨s, empty⟩ tr.σ₁.j := by
  have hopen : Writes (certsFootprint b) ⟨s, empty⟩ (opened b.header p s) :=
    (opened_writes b.header p s).mono
      ⟨fun _ _ => trivial, fun _ _ => trivial, fun _ _ hi => hi.elim⟩
  exact hopen.trans (tr.certs.writes fun _ hcy => cert_within_certs hcy)

variable {id : Hash} {ttl : UInt64} {tr : BlockTrace s b p} {c : Certificate}

theorem BlockTrace.seen_kept (tr : BlockTrace s b p) (h : s.seenTTL id = some ttl) :
    tr.σ₁.j.s.seenTTL id = some ttl := tr.certs_writes.seen_mono h

theorem BlockTrace.seen_billed (hy : tr.Yields r s') (hc : Billed (b, r) c) :
    tr.σ₁.j.s.seenTTL c.id = some c.ttl := by
  obtain ⟨hmem, o, ho, hid, hne⟩ := hc
  rw [hy.outcomes_eq] at ho
  obtain hold | ⟨-, hseen⟩ := tr.certs.outcomes ho
  · simp [Result.empty] at hold
  obtain ⟨ttl, httl⟩ := isSome_iff_exists.mp (hseen hne)
  rw [hid] at httl
  rcases tr.certs_writes.seen_new httl with hold | ⟨c', hc', hid', rfl⟩
  · -- the block rules refuse an id that was seen before
    have hunseen : s.seenTTL c.id = none := (tr.ok.certs c hmem).unseen
    exact absurd (hunseen.symm.trans hold) (by simp)
  · rw [httl, inj_on_of_nodup_map tr.ok.ids_nodup hc' hmem hid'.symm]

/-- Every certificate billed on the chain is recorded with its expiry, or long expired. -/
def SeenInv (log : ChainLog) (s : State) : Prop :=
  ∀ e ∈ log, ∀ c, Billed e c → s.seenTTL c.id = some c.ttl ∨ c.ttl.toNat + 2 < log.length

theorem BlockTrace.seen_or_expired {n : ℕ} (hn : b.header.height.toNat = n)
    (h : tr.σ₁.j.s.seenTTL id = some ttl) :
    tr.closed.s.seenTTL id = some ttl ∨ ttl.toNat + 2 < n + 1 := by
  rw [tr.seen_closed, h, filter_some]
  by_cases hexp : 1 ≤ b.header.height ∧ ttl < b.header.height - 1
  · obtain ⟨hone, hlt⟩ := hexp
    rw [UInt64.lt_iff_toNat_lt, UInt64.toNat_sub_of_le _ _ hone] at hlt
    simp only [UInt64.reduceToNat] at hlt
    exact Or.inr (by omega)
  · exact Or.inl (by simp [hexp])

/-- One more block keeps the invariant. -/
theorem SeenInv.apply (h : SeenInv log s) (hheight : b.header.height.toNat = log.length)
    (happly : applyBlock s b p = (.ok r, s')) : SeenInv ((b, r) :: log) s' := by
  obtain ⟨tr, hy⟩ := block_trace happly
  rw [hy.state]
  intro e he c hc
  have hseen : tr.σ₁.j.s.seenTTL c.id = some c.ttl ∨ c.ttl.toNat + 2 < log.length := by
    rcases mem_cons.mp he with rfl | he
    · exact Or.inl (tr.seen_billed hy hc)
    · exact (h e he c hc).imp_left tr.seen_kept
  rcases hseen with hseen | hexp
  · simpa using BlockTrace.seen_or_expired hheight hseen
  · exact Or.inr (by simp only [length_cons]; omega)

theorem Run.seen_inv (h : Run p log s) : SeenInv log s := by
  induction h with
  | genesis => exact fun e he => by simp at he
  | apply _ hheight happly ih => exact ih.apply hheight happly

/-- A certificate in a new block was billed in no block of the log. -/
theorem SeenInv.fresh (h : SeenInv log s) (hheight : b.header.height.toNat = log.length)
    (happly : applyBlock s b p = (.ok r, s')) {e : Block × Result} (he : e ∈ log)
    {c' : Certificate} (hc' : Billed e c') (hc : c ∈ b.certs)
    (httl : c.id = c'.id → c.ttl = c'.ttl) : c.id ≠ c'.id := by
  intro hid
  have hok := (apply_eq_ok happly).1.certs c hc
  have hunseen : s.seenTTL c.id = none := hok.unseen
  rcases h e he c' hc' with hseen | hexp
  · rw [hid, hseen] at hunseen
    simp at hunseen
  · have hlive : b.header.height.toNat ≤ c.ttl.toNat := hok.live
    rw [httl hid] at hlive
    omega

/-- One authorisation, at most one bill: on a chain grown by applying and undoing blocks in any
order, no two of the blocks applied bill the same id, and no block even carries an id that a block
below it has billed. -/
theorem billed_at_most_once (h : History p log s)
    (httl : ∀ e ∈ log, ∀ e' ∈ log, ∀ c ∈ e.1.certs, ∀ c' ∈ e'.1.certs,
      c.id = c'.id → c.ttl = c'.ttl) (id : Hash) :
    (log.Pairwise fun newer older => ¬ (Bills newer id ∧ Bills older id)) ∧
      log.Pairwise fun newer older => Bills older id → ∀ c ∈ newer.1.certs, c.id ≠ id := by
  have hfresh : log.Pairwise fun newer older => Bills older id →
      ∀ c ∈ newer.1.certs, c.id ≠ id := by
    have hrun := h.run
    clear h
    induction hrun with
    | genesis => exact List.Pairwise.nil
    | @apply log s s' b r hrun hheight happly ih =>
      refine List.Pairwise.cons ?_ (ih fun e he e' he' =>
        httl e (mem_cons_of_mem _ he) e' (mem_cons_of_mem _ he'))
      rintro e he ⟨c', hc', rfl⟩ c hc
      exact hrun.seen_inv.fresh hheight happly he hc' hc
        (httl (b, r) mem_cons_self e (mem_cons_of_mem _ he) c hc c' hc'.1)
  refine ⟨hfresh.imp fun hne ⟨⟨c, hc, hid⟩, hold⟩ => ?_, hfresh⟩
  exact hne hold c hc.1 hid

end

section

attribute [local instance] Reference.crypto

open Sample

/-- A chain that bills a payment does so once. -/
theorem sample_billed_at_most_once :
    ∃ log s, History params log s ∧ (∃ e ∈ log, Bills e payment.id) ∧
      (log.Pairwise fun newer older => ¬ (Bills newer payment.id ∧ Bills older payment.id)) ∧
      log.Pairwise fun newer older =>
        Bills older payment.id → ∀ c ∈ newer.1.certs, c.id ≠ payment.id := by
  obtain ⟨log, s, b, r, s', hrun, hheight, happly, hempty, hcerts, hout, -⟩ := payment_applies
  have hhist : History params ((b, r) :: log) s' := (hrun.apply hheight happly).history
  have honly : ∀ e ∈ (b, r) :: log, ∀ c ∈ e.1.certs, c = payment := by
    intro e he c hc
    rcases mem_cons.mp he with rfl | he
    · simpa [hcerts] using hc
    · simp [hempty e he] at hc
  obtain ⟨o, ho, hid⟩ : ∃ o ∈ r.outcomes, (o.id, o.outcome) = (payment.id, Outcome.applied) :=
    mem_map.mp (hout ▸ mem_singleton_self _)
  obtain ⟨hid, happlied⟩ := Prod.mk.inj hid
  refine ⟨_, s', hhist, ⟨(b, r), mem_cons_self, payment, ⟨?_, o, ho, hid, ?_⟩, rfl⟩,
    billed_at_most_once hhist (fun e he e' he' c hc c' hc' _ => ?_) payment.id⟩
  · simp [hcerts]
  · simp [happlied]
  · rw [honly e he c hc, honly e' he' c' hc']

end

end Zycord.Fold
