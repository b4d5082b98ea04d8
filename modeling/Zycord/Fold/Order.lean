import Mathlib.Data.Prod.Lex
import Zycord.Fold.Run

/-!
# The fold order

A proposer chooses which certificates a block carries, not the order they are executed in: the
fold sorts them by a key that is unique within a block (`fold_order_eq_of_perm`). Every block rule
is a property of the certificates as a collection (`BlockOK.of_reordering`), so two orders of one
collection are accepted or rejected together and lead to one result: `proposer_order_erased`.
-/

namespace Zycord.Fold

open List State

/-! ## The sorting key -/

/-- What certificates are sorted by. -/
def foldKey (cy : Carried) : Address ×ₗ ℕ ×ₗ Hash :=
  toLex (cy.cert.underwriterID, toLex (cy.cert.seq.toNat, cy.id))

theorem fold_less_iff (a b : Carried) : foldLess a b = true ↔ foldKey a < foldKey b := by
  simp only [foldLess, foldKey, Prod.Lex.toLex_lt_toLex]
  split
  · rename_i hne
    simp [hne]
  · rename_i heq
    rw [not_not] at heq
    split
    · rename_i hne
      have hne' : a.cert.seq.toNat ≠ b.cert.seq.toNat := fun h => hne (UInt64.toNat_inj.mp h)
      simp [heq, hne', UInt64.lt_iff_toNat_lt]
    · rename_i hseq
      rw [not_not] at hseq
      simp [heq, hseq]

theorem not_fold_less_iff (a b : Carried) : (!foldLess b a) = true ↔ foldKey a ≤ foldKey b := by
  rw [Bool.not_eq_true', Bool.eq_false_iff, ne_eq, fold_less_iff, not_lt]

theorem id_eq_of_fold_key_eq {a b : Carried} (h : foldKey a = foldKey b) : a.id = b.id := by
  simp only [foldKey, EmbeddingLike.apply_eq_iff_eq, Prod.mk.injEq] at h
  exact h.2.2

theorem fold_order_pairwise (cc : List Carried) :
    (foldOrder cc).Pairwise fun a b => foldKey a ≤ foldKey b := by
  have htotal : Std.Total fun a b => (!foldLess b a) = true :=
    ⟨fun a b => by simpa only [not_fold_less_iff] using le_total _ _⟩
  have htrans : IsTrans Carried fun a b => (!foldLess b a) = true :=
    ⟨fun a b c => by simpa only [not_fold_less_iff] using le_trans⟩
  exact (pairwise_insertionSort (fun a b => (!foldLess b a) = true) cc).imp
    fun {a b} => (not_fold_less_iff a b).mp

/-- Certificates with different ids have one fold order. -/
theorem fold_order_eq_of_perm {cc dd : List Carried} (hperm : cc.Perm dd)
    (hids : ∀ a ∈ cc, ∀ b ∈ cc, a.id = b.id → a = b) : foldOrder cc = foldOrder dd := by
  have hsorted : (foldOrder cc).Perm (foldOrder dd) :=
    (fold_order_perm cc).trans (hperm.trans (fold_order_perm dd).symm)
  refine hsorted.eq_of_pairwise ?_ (fold_order_pairwise cc) (fold_order_pairwise dd)
  intro a b ha hb hab hba
  have hb' : b ∈ cc := hperm.mem_iff.mpr ((fold_order_perm dd).mem_iff.mp hb)
  exact hids a ((fold_order_perm cc).mem_iff.mp ha) b hb'
    (id_eq_of_fold_key_eq (le_antisymm hab hba))

section

variable [Crypto]

variable {certs certs' : List Certificate}

theorem fold_order_carry_eq (hperm : certs.Perm certs') (hids : (certs.map Certificate.id).Nodup) :
    foldOrder (carry certs) = foldOrder (carry certs') := by
  refine fold_order_eq_of_perm (hperm.map _) ?_
  simp only [carry, forall_mem_map]
  intro a ha b hb h
  rw [inj_on_of_nodup_map hids ha hb h]

/-! ## The block rules -/

/-- A block with the certificates of another in a different order, and its own root for them. -/
structure Reordering (b b' : Block) : Prop where
  header : ∃ root, b'.header = { b.header with certRoot := root }
  cites : b'.cites = b.cites
  certs : b'.certs.Perm b.certs

omit [Crypto] in
theorem Reordering.symm {b b' : Block} (h : Reordering b b') : Reordering b' b := by
  obtain ⟨root, hheader⟩ := h.header
  exact ⟨⟨b.header.certRoot, by rw [hheader]⟩, h.cites.symm, h.certs.symm⟩

omit [Crypto] in
theorem total_eq_of_perm (f : Certificate → UInt64) (hperm : certs.Perm certs') :
    certs.foldl (fun n c => n + f c) 0 = certs'.foldl (fun n c => n + f c) 0 := by
  refine hperm.foldl_eq' (fun x _ y _ z => ?_) 0
  rw [UInt64.add_assoc, UInt64.add_comm (f x), ← UInt64.add_assoc]

variable {s : State} {b b' : Block} {p : Params}

omit [Crypto] in
theorem check_ceilings_of_reordering (h : Reordering b b') (t : UInt64) :
    checkCeilings b' p t = checkCeilings b p t := by
  have hsigs : sigCount b'.certs = sigCount b.certs := total_eq_of_perm _ h.certs
  simp only [checkCeilings, h.certs.length_eq, hsigs, Block.size_bytes_of_perm h.certs h.cites,
    h.cites]

theorem check_cites_of_reordering (h : Reordering b b') : checkCites s b' = checkCites s b := by
  obtain ⟨root, hheader⟩ := h.header
  have hfrom : checkCitesFrom s b'.header = checkCitesFrom s b.header := by
    funext lastID i cites
    exact check_cites_from_congr (by rw [hheader]) (by rw [hheader]) lastID i cites
  rw [checkCites, hfrom, h.cites, hheader, checkCites]

theorem check_genesis_shape_of_reordering (h : Reordering b b') :
    checkGenesisShape b' p = checkGenesisShape b p := by
  obtain ⟨root, hheader⟩ := h.header
  simp only [checkGenesisShape, hheader, h.certs.length_eq]

/-- An accepted block stays acceptable in any other order that its root commits to. -/
theorem BlockOK.of_reordering (hok : BlockOK s b p) (h : Reordering b b')
    (hroot : b'.computeCertRoot p = b'.header.certRoot) : BlockOK s b' p := by
  have hceilings := check_ceilings_of_reordering (p := p) h
  have hcites := check_cites_of_reordering (s := s) h
  have hgenesis := check_genesis_shape_of_reordering (p := p) h
  have hseq : seqGasSum p b'.certs = seqGasSum p b.certs := total_eq_of_perm _ h.certs
  have hpar : parGasSum p b'.certs = parGasSum p b.certs := total_eq_of_perm _ h.certs
  have hcitesRoot : b'.computeCitesRoot p = b.computeCitesRoot p := by
    simp only [Block.computeCitesRoot, Block.citeIDs, h.cites]
  obtain ⟨root, hheader⟩ := h.header
  have hheight : b'.header.height = b.header.height := by rw [hheader]
  exact {
    version := by rw [hheader]; exact hok.version
    ceilings := by rw [hceilings, hheight]; exact hok.ceilings
    certRoot := hroot
    citesRoot := by rw [hcitesRoot, hheader]; exact hok.citesRoot
    cites := by rw [hcites]; exact hok.cites
    genesis := by rw [hgenesis]; exact hok.genesis
    emissionAddr := by
      have hemission := hok.emissionAddr
      simp only [checkEmissionAddr, hheader] at hemission ⊢
      exact hemission
    seedEpoch := by
      have hseed := hok.seedEpoch
      simp only [checkSeedEpoch, hheader] at hseed ⊢
      exact hseed
    stateRoot := by rw [hheader]; exact hok.stateRoot
    certs := fun c hc => by
      obtain ⟨hchecked, hlive, hnear, hunseen, hseqMax, hparMax⟩ :=
        hok.certs c (h.certs.mem_iff.mp hc)
      rw [← hheight] at hlive hnear hseqMax hparMax
      exact ⟨hchecked, hlive, hnear, hunseen, hseqMax, hparMax⟩
    ids_nodup := ((h.certs.map _).nodup_iff).mpr hok.ids_nodup
    seqGas_le := by rw [hseq, hheight]; exact hok.seqGas_le
    parGas_le := by rw [hpar, hheight]; exact hok.parGas_le
    not_protocol := fun c hc => hok.not_protocol c (h.certs.mem_iff.mp hc) }

/-! ## The order is erased -/

theorem transition_cert_root (h : Header) (root : Hash) (cites : List Header)
    (ordered : List Carried) (p : Params) (t : UInt64) (checkRoot : Bool) :
    transition { h with certRoot := root } cites ordered p t checkRoot =
      transition h cites ordered p t checkRoot := rfl

theorem apply_of_reordering {r : Result} {s' : State} (h : Reordering b b')
    (hroot : b'.computeCertRoot p = b'.header.certRoot)
    (happly : applyBlock s b p = (.ok r, s')) : applyBlock s b' p = (.ok r, s') := by
  obtain ⟨hok, σ, hσ, rfl, rfl⟩ := apply_eq_ok happly
  have hrules := check_block_rules_eq_ok.mpr (hok.of_reordering h hroot)
  have horder := fold_order_carry_eq h.certs.symm hok.ids_nodup
  obtain ⟨root, hheader⟩ := h.header
  unfold applyBlock apply
  simp only [hrules]
  rw [← horder, hheader, transition_cert_root, h.cites]
  simp only [hσ]

/-- A block with its certificates in another order. -/
def reordered (b : Block) (p : Params) (certs : List Certificate) : Block :=
  { b with
    header := { b.header with certRoot := ({ b with certs := certs }).computeCertRoot p }
    certs := certs }

/-- The proposer's order is erased: a block whose root commits to its certificates is accepted
exactly when the same block with the certificates in another order is, and both lead to the same
state and result. -/
theorem proposer_order_erased {certs : List Certificate} (hperm : certs.Perm b.certs)
    (hroot : b.computeCertRoot p = b.header.certRoot) (r : Result) (s' : State) :
    applyBlock s b p = (.ok r, s') ↔ applyBlock s (reordered b p certs) p = (.ok r, s') := by
  have h : Reordering b (reordered b p certs) := ⟨⟨_, rfl⟩, rfl, hperm⟩
  exact ⟨apply_of_reordering h rfl, apply_of_reordering h.symm hroot⟩

end

section

attribute [local instance] Reference.crypto

namespace Sample

/-- The next payment of the first user. -/
def secondPayment : Certificate :=
  certificate (.transfer [⟨nativeAsset, user 1, user 3, .ofNat 7⟩]) 1 (user 1) 5000 [key 1]

/-- A genesis block with a wrong certificate root. -/
def uncommitted : Block :=
  let b := assemble State.new params (header 0 0) []
  { b with header := { b.header with certRoot := 0 } }

end Sample

open Sample

/-- Two payments in either order lead to one result. -/
theorem sample_proposer_order_erased :
    ∃ log s b r s', Run params log s ∧ b.certs = [payment, secondPayment] ∧
      applyBlock s b params = (.ok r, s') ∧ r.outcomes.length = 2 ∧
      applyBlock s (reordered b params [secondPayment, payment]) params = (.ok r, s') := by
  have hproduce : ∃ x, produce params ((header 3 (user 1), [payment, secondPayment]) :: funding) =
      some x ∧ (x.1.map fun e => (e.1.certs, e.2.outcomes.length)) =
        [([payment, secondPayment], 2), ([], 0), ([], 0), ([], 0)] := by
    decide +kernel
  obtain ⟨⟨log, s'⟩, hx, hlog⟩ := hproduce
  obtain ⟨⟨b, r⟩, log, rfl⟩ := exists_cons_of_ne_nil (l := log) (by rintro rfl; simp at hlog)
  obtain ⟨s, hrun, -, happly⟩ := (run_of_produce hx).of_cons
  simp only [map_cons, cons.injEq, Prod.mk.injEq] at hlog
  obtain ⟨⟨hcerts, hlength⟩, -⟩ := hlog
  have hperm : [secondPayment, payment].Perm b.certs := hcerts ▸ List.Perm.swap _ _ _
  have hroot := (apply_eq_ok happly).1.certRoot
  exact ⟨log, s, b, r, s', hrun, hcerts, happly, hlength,
    (proposer_order_erased hperm hroot r s').mp happly⟩

/-- A block that is refused for its root alone is accepted once the root is recomputed. -/
theorem sample_root_not_recomputed :
    (∃ e s', applyBlock State.new uncommitted params = (.error e, s')) ∧
      ∃ r s', applyBlock State.new (reordered uncommitted params uncommitted.certs) params =
        (.ok r, s') := by
  have hrefused : (applyBlock new uncommitted params).1.isOk = false := by decide +kernel
  have haccepted : (applyBlock new (reordered uncommitted params uncommitted.certs)
      params).1.isOk = true := by decide +kernel
  constructor
  · cases h : applyBlock new uncommitted params with
    | mk out s' =>
      cases out with
      | error e => exact ⟨e, s', rfl⟩
      | ok r => rw [h] at hrefused; cases hrefused
  · cases h : applyBlock new (reordered uncommitted params uncommitted.certs) params with
    | mk out s' =>
      cases out with
      | error e => rw [h] at haccepted; cases haccepted
      | ok r => exact ⟨r, s', rfl⟩

end

end Zycord.Fold
