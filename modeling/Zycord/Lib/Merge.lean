import Zycord.Lib.FinMap

/-!
# Keeping a derived map up to date

A map whose values are computed from the entries of another map (`FinMap.map`), and a stale copy
of it brought up to date by one merge pass over its entries and the keys written since
(`FinMap.merge`). The main theorem, `FinMap.merge_eq_map`, says that the pass gives exactly the
derived map if the copy is right at every key that was not written.
-/

universe u v w

namespace FinMap

open List

variable {κ : Type u} {ν : Type v} {β : Type w} [LinearOrder κ]

/-- Map the values. -/
def map (f : κ → ν → β) (m : FinMap κ ν) : FinMap κ β :=
  ⟨m.entries.map fun e => (e.1, f e.1 e.2), by
    unfold Sorted
    rw [pairwise_map]
    exact m.sorted⟩

theorem find_map (f : κ → ν → β) (m : FinMap κ ν) (k : κ) :
    (m.map f).find? k = (m.find? k).map (f k) := by
  show findList k (m.entries.map fun e => (e.1, f e.1 e.2)) = (findList k m.entries).map (f k)
  induction m.entries with
  | nil => rfl
  | cons e rest ih =>
    obtain ⟨k', v⟩ := e
    by_cases hk : k' = k
    · subst hk
      simp [findList]
    · simpa [findList, hk] using ih

/-- Put a key in front of the entries behind it, if it is live. -/
def emit (k : κ) : Option β → List (κ × β) → List (κ × β)
  | some v, rest => (k, v) :: rest
  | none, rest => rest

/-- Merge the entries held with the keys written since, both in key order. A key that was not
written is carried through, a written one is read again or dropped, and its stale entry is
skipped. -/
def mergeList (live : κ → Option β) : List (κ × β) → List κ → List (κ × β)
  | held, [] => held
  | [], k :: dirty => emit k (live k) (mergeList live [] dirty)
  | (k', v) :: held, k :: dirty =>
    if k' < k then (k', v) :: mergeList live held (k :: dirty)
    else if k' = k then emit k (live k) (mergeList live held dirty)
    else emit k (live k) (mergeList live ((k', v) :: held) dirty)
termination_by held dirty => held.length + dirty.length

variable {k : κ} {held rest : List (κ × β)} {e : κ × β} {dirty : List κ} {m : FinMap κ ν}

omit [LinearOrder κ] in
theorem mem_emit {o : Option β} (h : e ∈ emit k o rest) : e.1 = k ∨ e ∈ rest := by
  cases o with
  | none => exact Or.inr h
  | some v =>
    rcases mem_cons.mp h with rfl | h
    · exact Or.inl rfl
    · exact Or.inr h

/-- A merged entry was held or is dirty. -/
theorem mem_merge_list {live : κ → Option β} (h : e ∈ mergeList live held dirty) :
    e ∈ held ∨ e.1 ∈ dirty := by
  fun_induction mergeList live held dirty with
  | case1 held => exact Or.inl h
  | case2 k dirty ih =>
    rcases mem_emit h with rfl | h
    · exact Or.inr mem_cons_self
    · exact (ih h).imp id (mem_cons_of_mem _)
  | case3 k' v held k dirty hlt ih =>
    rcases mem_cons.mp h with rfl | h
    · exact Or.inl mem_cons_self
    · exact (ih h).imp (mem_cons_of_mem _) id
  | case4 v held k dirty hlt ih =>
    rcases mem_emit h with rfl | h
    · exact Or.inr mem_cons_self
    · exact (ih h).imp (mem_cons_of_mem _) (mem_cons_of_mem _)
  | case5 k' v held k dirty hlt hne ih =>
    rcases mem_emit h with rfl | h
    · exact Or.inr mem_cons_self
    · exact (ih h).imp id (mem_cons_of_mem _)

theorem sorted_emit {live : κ → Option β} (o : Option β)
    (hrest : Sorted (mergeList live held dirty))
    (hheld : ∀ e ∈ held, k < e.1) (hdirty : ∀ q ∈ dirty, k < q) :
    Sorted (emit k o (mergeList live held dirty)) := by
  cases o with
  | none => exact hrest
  | some v =>
    exact pairwise_cons.mpr ⟨fun e he => (mem_merge_list he).elim (hheld e) (hdirty e.1), hrest⟩

/-- Merging keeps the entries sorted. -/
theorem sorted_merge_list (live : κ → Option β) (hheld : Sorted held)
    (hdirty : dirty.Pairwise (· < ·)) : Sorted (mergeList live held dirty) := by
  fun_induction mergeList live held dirty with
  | case1 held => exact hheld
  | case2 k dirty ih =>
    obtain ⟨hk, hdirty⟩ := pairwise_cons.mp hdirty
    exact sorted_emit _ (ih hheld hdirty) (by simp) hk
  | case3 k' v held k dirty hlt ih =>
    obtain ⟨hk', hheld⟩ := pairwise_cons.mp hheld
    refine pairwise_cons.mpr ⟨fun e he => ?_, ih hheld hdirty⟩
    rcases mem_merge_list he with he | he
    · exact hk' e he
    · rcases mem_cons.mp he with he | he
      · exact he ▸ hlt
      · exact hlt.trans ((pairwise_cons.mp hdirty).1 _ he)
  | case4 v held k dirty hlt ih =>
    obtain ⟨hk', hheld⟩ := pairwise_cons.mp hheld
    obtain ⟨hk, hdirty⟩ := pairwise_cons.mp hdirty
    exact sorted_emit _ (ih hheld hdirty) hk' hk
  | case5 k' v held k dirty hlt hne ih =>
    obtain ⟨hk, hdirty⟩ := pairwise_cons.mp hdirty
    have hkk' : k < k' := lt_of_le_of_ne (not_lt.mp hlt) (Ne.symm hne)
    refine sorted_emit _ (ih hheld hdirty) (forall_mem_cons.mpr ⟨hkk', fun e he => ?_⟩) hk
    exact hkk'.trans ((pairwise_cons.mp hheld).1 e he)

theorem find_emit (k q : κ) (o : Option β) (rest : List (κ × β)) :
    findList q (emit k o rest) = if k = q then o.or (findList q rest) else findList q rest := by
  cases o <;> by_cases hk : k = q <;> simp [emit, findList, hk]

/-- A written key reads as it is now, every other key as it was held. -/
theorem find_merge_list (live : κ → Option β) (hheld : Sorted held)
    (hdirty : dirty.Pairwise (· < ·)) (q : κ) :
    findList q (mergeList live held dirty) = if q ∈ dirty then live q else findList q held := by
  fun_induction mergeList live held dirty with
  | case1 held => simp
  | case2 k dirty ih =>
    obtain ⟨hk, hdirty⟩ := pairwise_cons.mp hdirty
    rw [find_emit, ih hheld hdirty]
    by_cases hq : k = q
    · have hnot : q ∉ dirty := fun h => (hk q h).ne hq
      simp [hq, hnot, findList]
    · simp [hq, Ne.symm hq]
  | case3 k' v held k dirty hlt ih =>
    obtain ⟨hk', hheld⟩ := pairwise_cons.mp hheld
    rw [findList, findList, ih hheld hdirty]
    by_cases hq : k' = q
    · have hnot : q ∉ k :: dirty := by
        intro h
        rcases mem_cons.mp h with h | h
        · exact hlt.ne (hq.trans h)
        · exact (hlt.trans ((pairwise_cons.mp hdirty).1 q h)).ne hq
      simp [hq, hnot]
    · simp [hq]
  | case4 v held k dirty hlt ih =>
    obtain ⟨hk', hheld⟩ := pairwise_cons.mp hheld
    obtain ⟨hk, hdirty⟩ := pairwise_cons.mp hdirty
    rw [find_emit, ih hheld hdirty, findList]
    by_cases hq : k = q
    · have hnot : q ∉ dirty := fun h => (hk q h).ne hq
      have hnone : findList q held = none := find_list_eq_none.mpr fun e he => (hq ▸ hk' e he).ne'
      simp [hq, hnot, hnone]
    · simp [hq, Ne.symm hq]
  | case5 k' v held k dirty hlt hne ih =>
    obtain ⟨hk, hdirty⟩ := pairwise_cons.mp hdirty
    rw [find_emit, ih hheld hdirty]
    by_cases hq : k = q
    · have hkk' : k < k' := lt_of_le_of_ne (not_lt.mp hlt) (Ne.symm hne)
      have hnot : q ∉ dirty := fun h => (hk q h).ne hq
      have hnone : findList q ((k', v) :: held) = none := by
        refine find_list_eq_none.mpr fun e he => ?_
        rcases mem_cons.mp he with rfl | he
        · exact (hq ▸ hkk').ne'
        · exact (hq ▸ hkk'.trans ((pairwise_cons.mp hheld).1 e he)).ne'
      simp [hq, hnot, hnone]
    · simp [hq, Ne.symm hq]

theorem sorted_keys (m : FinMap κ ν) : (m.entries.map Prod.fst).Pairwise (· < ·) :=
  pairwise_map.mpr m.sorted

/-- Bring a held map up to date at the keys written since. -/
def merge (live : κ → Option β) (held : FinMap κ β) (dirty : FinMap κ Unit) : FinMap κ β :=
  ⟨mergeList live held.entries (dirty.entries.map Prod.fst),
    sorted_merge_list live held.sorted dirty.sorted_keys⟩

theorem contains_iff_mem_keys : m.contains k = true ↔ k ∈ m.entries.map Prod.fst := by
  rw [contains, Option.isSome_iff_exists, mem_map]
  constructor
  · rintro ⟨v, h⟩
    exact ⟨(k, v), find_eq_some.mp h, rfl⟩
  · rintro ⟨⟨k', v⟩, h, rfl⟩
    exact ⟨v, find_eq_some.mpr h⟩

/-- A held map that is right at every key not written since is brought up to date by the merge. -/
theorem merge_eq_map {f : κ → ν → β} {held : FinMap κ β} {dirty : FinMap κ Unit}
    (h : ∀ k, dirty.contains k = false → held.find? k = (m.find? k).map (f k)) :
    merge (fun k => (m.find? k).map (f k)) held dirty = m.map f := by
  refine ext_find fun k => ?_
  rw [find_map]
  show findList k (mergeList _ _ _) = _
  rw [find_merge_list _ held.sorted dirty.sorted_keys]
  split_ifs with hk
  · rfl
  · refine h k ?_
    rw [Bool.eq_false_iff]
    intro hc
    exact hk (contains_iff_mem_keys.mp hc)

theorem insert_all_entries (m : FinMap κ ν) : (empty : FinMap κ ν).insertAll m.entries = m := by
  refine ext_find fun k => ?_
  cases hk : m.find? k with
  | none =>
    rw [find_insert_all_of_not_mem (find_list_eq_none.mp hk)]
    rfl
  | some v => exact find_insert_all_of_mem m.sorted (find_eq_some.mp hk)

end FinMap

namespace FinFun

variable {κ : Type u} {ν : Type v} [LinearOrder κ] [Zero ν] [DecidableEq ν]

theorem set_all_entries (m : FinFun κ ν) : (empty : FinFun κ ν).setAll m.entries = m := by
  refine ext_get fun k => ?_
  cases hk : m.find? k with
  | none =>
    rw [get_set_all_of_not_mem (FinMap.find_list_eq_none.mp hk), get_empty]
    simp [get, hk]
  | some v =>
    have hmem : (k, v) ∈ m.entries := FinMap.find_eq_some.mp hk
    have hdistinct : m.entries.Pairwise fun a b => a.1 ≠ b.1 := m.sorted.imp fun h => ne_of_lt h
    rw [get_set_all_of_mem empty hdistinct hmem]
    simp [get, hk]

end FinFun
