import Mathlib.Algebra.Order.BigOperators.Group.List
import Mathlib.Algebra.Order.Ring.Nat

/-!
# Finite maps as sorted association lists

`FinMap κ ν` holds its entries in strictly increasing key order, so two maps with the same
lookups are the same list (`FinMap.ext_find`). `FinFun κ ν` is the variant for values with a
zero: it stores no zero entry and reads an absent key as zero, so a key that was set to zero
is indistinguishable from one that was never set. `FinFun.sum_set` says how a weighted sum
over all entries moves when one key is written; every accounting argument rests on it.
-/

universe u v

namespace FinMap

variable {κ : Type u} {ν : Type v} [LinearOrder κ]

/-- The value of the first entry with key `k`. -/
def findList (k : κ) : List (κ × ν) → Option ν
  | [] => none
  | (k', v) :: rest => if k' = k then some v else findList k rest

/-- Put the entry `(k, v)` at its place, replacing an entry with the same key. -/
def insertList (k : κ) (v : ν) : List (κ × ν) → List (κ × ν)
  | [] => [(k, v)]
  | (k', v') :: rest =>
    if k < k' then (k, v) :: (k', v') :: rest
    else if k = k' then (k, v) :: rest
    else (k', v') :: insertList k v rest

/-- Strictly increasing keys. -/
def Sorted (entries : List (κ × ν)) : Prop :=
  entries.Pairwise fun a b => a.1 < b.1

end FinMap

/-- A finite map: its entries in strictly increasing key order. -/
structure FinMap (κ : Type u) (ν : Type v) [LinearOrder κ] where
  entries : List (κ × ν)
  sorted : FinMap.Sorted entries

namespace FinMap

open List

variable {κ : Type u} {ν : Type v} [LinearOrder κ]

variable {k : κ} {v : ν} {es entries : List (κ × ν)} {e : κ × ν}

theorem find_list_eq_some (h : Sorted entries) :
    findList k entries = some v ↔ (k, v) ∈ entries := by
  induction entries with
  | nil => simp [findList]
  | cons e rest ih =>
    obtain ⟨k', v'⟩ := e
    obtain ⟨hlt, hrest⟩ := pairwise_cons.mp h
    by_cases hk : k' = k
    · subst hk
      have hnot : (k', v) ∉ rest := fun hm => lt_irrefl k' (hlt (k', v) hm)
      simp only [findList, if_pos, Option.some.injEq, mem_cons, Prod.mk.injEq,
        true_and, hnot, or_false]
      exact eq_comm
    · simp [findList, hk, ih hrest, Ne.symm hk]

theorem find_list_eq_none : findList k entries = none ↔ ∀ e ∈ entries, e.1 ≠ k := by
  induction entries with
  | nil => simp [findList]
  | cons e rest ih =>
    obtain ⟨k', v'⟩ := e
    by_cases hk : k' = k <;> simp [findList, hk, ih]

theorem find_list_insert (k k' : κ) (v : ν) (entries : List (κ × ν)) :
    findList k' (insertList k v entries) = if k = k' then some v else findList k' entries := by
  induction entries with
  | nil => simp [insertList, findList]
  | cons e rest ih =>
    obtain ⟨k₀, v₀⟩ := e
    by_cases hlt : k < k₀
    · simp [insertList, findList, hlt]
    · by_cases heq : k = k₀
      · subst heq
        by_cases hk : k = k' <;> simp [insertList, findList, hk]
      · rcases eq_or_ne k k' with rfl | hk
        · simp [insertList, findList, ih, hlt, heq, Ne.symm heq]
        · simp [insertList, findList, ih, hlt, heq, hk]

theorem mem_insert_list (h : e ∈ insertList k v entries) : e = (k, v) ∨ e ∈ entries := by
  induction entries with
  | nil => simpa [insertList] using h
  | cons e' rest ih =>
    simp only [insertList] at h
    split_ifs at h with hlt heq
    · simpa using h
    · exact (mem_cons.mp h).imp_right (mem_cons_of_mem _)
    · rcases mem_cons.mp h with h | h
      · exact Or.inr (h ▸ mem_cons_self)
      · exact (ih h).imp id (mem_cons_of_mem _)

/-- Insertion keeps the entries sorted. -/
theorem sorted_insert_list (k : κ) (v : ν) (h : Sorted entries) :
    Sorted (insertList k v entries) := by
  induction entries with
  | nil => simp [insertList, Sorted]
  | cons e rest ih =>
    obtain ⟨hlt, hrest⟩ := pairwise_cons.mp h
    simp only [insertList]
    split_ifs with hk heq
    · refine pairwise_cons.mpr ⟨fun e he => ?_, h⟩
      rcases mem_cons.mp he with rfl | he
      · exact hk
      · exact hk.trans (hlt e he)
    · subst heq
      exact pairwise_cons.mpr ⟨hlt, hrest⟩
    · refine pairwise_cons.mpr ⟨fun e he => ?_, ih hrest⟩
      rcases mem_insert_list he with rfl | he
      · exact lt_of_le_of_ne (not_lt.mp hk) (Ne.symm heq)
      · exact hlt e he

theorem eq_of_find_list {left right : List (κ × ν)} (hl : Sorted left) (hr : Sorted right)
    (h : ∀ k, findList k left = findList k right) : left = right := by
  have hmem : ∀ e, e ∈ left ↔ e ∈ right := fun ⟨k, v⟩ => by
    rw [← find_list_eq_some hl, ← find_list_eq_some hr, h k]
  have hnd : ∀ {l : List (κ × ν)}, Sorted l → l.Nodup := by
    intro l hs
    refine List.Pairwise.imp ?_ hs
    intro a b hlt heq
    exact hlt.ne (congrArg Prod.fst heq)
  exact List.Perm.eq_of_pairwise (fun a b _ _ hab hba => absurd hab (lt_asymm hba)) hl hr
    ((perm_ext_iff_of_nodup (hnd hl) (hnd hr)).mpr hmem)

/-! ## Operations -/

/-- The empty map. -/
def empty : FinMap κ ν := ⟨[], List.Pairwise.nil⟩

/-- The value stored under a key. -/
def find? (m : FinMap κ ν) (k : κ) : Option ν := findList k m.entries

/-- Store `v` under `k`. -/
def insert (m : FinMap κ ν) (k : κ) (v : ν) : FinMap κ ν :=
  ⟨insertList k v m.entries, sorted_insert_list k v m.sorted⟩

/-- Keep some entries. -/
def filter (m : FinMap κ ν) (keep : κ → ν → Bool) : FinMap κ ν :=
  ⟨m.entries.filter fun e => keep e.1 e.2, m.sorted.filter _⟩

/-- Delete the entry under `k`, if there is one. -/
def erase (m : FinMap κ ν) (k : κ) : FinMap κ ν := m.filter fun k' _ => k' ≠ k

/-- Remove keys. -/
def eraseAll (m : FinMap κ ν) (keys : List κ) : FinMap κ ν := keys.foldl erase m

/-- Store every entry of a list, in order. -/
def insertAll (m : FinMap κ ν) (es : List (κ × ν)) : FinMap κ ν :=
  es.foldl (fun m e => m.insert e.1 e.2) m

/-- Whether a key has an entry. -/
def contains (m : FinMap κ ν) (k : κ) : Bool := (m.find? k).isSome

variable {m n : FinMap κ ν}

theorem find_eq_some : m.find? k = some v ↔ (k, v) ∈ m.entries := find_list_eq_some m.sorted

theorem find_insert (m : FinMap κ ν) (k k' : κ) (v : ν) :
    (m.insert k v).find? k' = if k = k' then some v else m.find? k' :=
  find_list_insert k k' v m.entries

/-- Maps with the same lookups are equal. -/
theorem ext_find (h : ∀ k, m.find? k = n.find? k) : m = n := by
  cases m; cases n
  congr
  exact eq_of_find_list ‹_› ‹_› h

theorem ext_contains {m n : FinMap κ Unit} (h : ∀ k, m.contains k = n.contains k) : m = n := by
  refine ext_find fun k => ?_
  have hk : (m.find? k).isSome = (n.find? k).isSome := h k
  cases hm : m.find? k <;> cases hn : n.find? k <;> simp_all

theorem find_filter (m : FinMap κ ν) (keep : κ → ν → Bool) (k : κ) :
    (m.filter keep).find? k = (m.find? k).filter fun v => keep k v := by
  ext v
  rw [find_eq_some, Option.filter_eq_some_iff, find_eq_some]
  simp [filter]

theorem find_erase (m : FinMap κ ν) (k k' : κ) :
    (m.erase k).find? k' = if k = k' then none else m.find? k' := by
  rw [erase, find_filter]
  by_cases hk : k = k'
  · subst hk; cases m.find? k <;> simp
  · cases m.find? k' <;> simp [hk, Ne.symm hk, Option.filter]

/-- Reading after a list of erasures. -/
theorem find_erase_all (m : FinMap κ ν) (keys : List κ) (k : κ) :
    (m.eraseAll keys).find? k = if k ∈ keys then none else m.find? k := by
  induction keys generalizing m with
  | nil => simp [eraseAll]
  | cons k₀ rest ih =>
    simp only [eraseAll, foldl_cons] at ih ⊢
    rw [ih, find_erase]
    by_cases hk : k ∈ rest <;> by_cases h0 : k = k₀ <;> simp [hk, h0, eq_comm]

theorem find_insert_all_of_not_mem (h : ∀ e ∈ es, e.1 ≠ k) :
    (m.insertAll es).find? k = m.find? k := by
  refine es.foldlRecOn (motive := fun n : FinMap κ ν => n.find? k = m.find? k) _ rfl
    fun n hn e he => ?_
  rw [find_insert, if_neg (h e he), hn]

theorem find_insert_all_of_mem (h : Sorted es) (hm : (k, v) ∈ es) :
    (m.insertAll es).find? k = some v := by
  induction es generalizing m with
  | nil => simp at hm
  | cons e rest ih =>
    obtain ⟨hlt, hrest⟩ := pairwise_cons.mp h
    have hcons : m.insertAll (e :: rest) = (m.insert e.1 e.2).insertAll rest := rfl
    rw [hcons]
    rcases mem_cons.mp hm with rfl | hm
    · rw [find_insert_all_of_not_mem fun e he => (hlt e he).ne', find_insert, if_pos rfl]
    · exact ih hrest hm

theorem contains_insert (m : FinMap κ ν) (k k' : κ) (v : ν) :
    (m.insert k v).contains k' = (decide (k = k') || m.contains k') := by
  by_cases hk : k = k' <;> simp [contains, find_insert, hk]

/-! ## Weighted sums -/

/-- A sum over the entries. -/
def sum (m : FinMap κ ν) (f : κ → ν → ℕ) : ℕ := (m.entries.map fun e => f e.1 e.2).sum

theorem contains_of_mem (h : e ∈ m.entries) : m.contains e.1 = true := by
  rw [contains, find_eq_some.mpr h]
  rfl

theorem nodup_keys (m : FinMap κ ν) : (m.entries.map Prod.fst).Nodup :=
  pairwise_map.mpr (m.sorted.imp fun h => ne_of_lt h)

theorem le_sum_of_mem (f : κ → ν → ℕ) (h : e ∈ m.entries) : f e.1 e.2 ≤ m.sum f :=
  List.le_sum_of_mem (mem_map.mpr ⟨e, h, rfl⟩)

/-- Insertion replaces one term of a sum. -/
theorem sum_insert_list (f : κ → ν → ℕ) (h : Sorted entries) :
    ((insertList k v entries).map fun e => f e.1 e.2).sum + ((findList k entries).elim 0 (f k)) =
      (entries.map fun e => f e.1 e.2).sum + f k v := by
  induction entries with
  | nil => simp [insertList, findList]
  | cons e rest ih =>
    obtain ⟨k', v'⟩ := e
    obtain ⟨hlt, hrest⟩ := pairwise_cons.mp h
    have hih := ih hrest
    by_cases hk : k < k'
    · have hnone : findList k rest = none :=
        find_list_eq_none.mpr fun e he => (hk.trans (hlt e he)).ne'
      simp [insertList, findList, hk, hk.ne', hnone]
      omega
    · by_cases heq : k = k'
      · subst heq
        simp [insertList, findList]
        omega
      · simp [insertList, findList, hk, heq, Ne.symm heq]
        omega

theorem sum_filter_ne (f : κ → ν → ℕ) (h : Sorted entries) :
    ((entries.filter fun e => decide (e.1 ≠ k)).map fun e => f e.1 e.2).sum +
      ((findList k entries).elim 0 (f k)) = (entries.map fun e => f e.1 e.2).sum := by
  induction entries with
  | nil => simp [findList]
  | cons e rest ih =>
    obtain ⟨k', v'⟩ := e
    obtain ⟨hlt, hrest⟩ := pairwise_cons.mp h
    have hih := ih hrest
    by_cases heq : k' = k
    · subst heq
      have hnone : findList k' rest = none := find_list_eq_none.mpr fun e he => (hlt e he).ne'
      simp [findList, hnone] at hih ⊢
      omega
    · simp [findList, heq] at hih ⊢
      omega

/-- Maps are equal when their entries are. -/
instance [DecidableEq ν] : DecidableEq (FinMap κ ν) := fun m n =>
  decidable_of_iff (m.entries = n.entries)
    ⟨fun h => by cases m; cases n; congr, fun h => h ▸ rfl⟩

end FinMap

/-- A finitely supported function: a finite map that stores no zero. -/
structure FinFun (κ : Type u) (ν : Type v) [LinearOrder κ] [Zero ν] extends FinMap κ ν where
  nonzero : ∀ e ∈ entries, e.2 ≠ 0

namespace FinFun

open List

variable {κ : Type u} {ν : Type v} [LinearOrder κ] [Zero ν]

/-- The function that is zero everywhere. -/
def empty : FinFun κ ν := ⟨FinMap.empty, by simp [FinMap.empty]⟩

/-- The value at a key; an absent key reads as zero. -/
def get (m : FinFun κ ν) (k : κ) : ν := (m.find? k).getD 0

/-- Write a key. Writing zero deletes the entry. -/
def set [DecidableEq ν] (m : FinFun κ ν) (k : κ) (v : ν) : FinFun κ ν :=
  if hv : v = 0 then
    ⟨m.toFinMap.erase k, fun e he => m.nonzero e (List.mem_of_mem_filter he)⟩
  else
    ⟨m.toFinMap.insert k v, fun e he => by
      rcases FinMap.mem_insert_list he with rfl | he
      · exact hv
      · exact m.nonzero e he⟩

/-- Write every entry of a list, in order. -/
def setAll [DecidableEq ν] (m : FinFun κ ν) (es : List (κ × ν)) : FinFun κ ν :=
  es.foldl (fun m e => m.set e.1 e.2) m

variable {m n : FinFun κ ν}

@[simp] theorem get_empty (k : κ) : (empty : FinFun κ ν).get k = 0 := rfl

theorem find_eq (m : FinFun κ ν) (k : κ) [DecidableEq ν] :
    m.find? k = if m.get k = 0 then none else some (m.get k) := by
  cases h : m.find? k with
  | none => simp [get, h]
  | some v => simp [get, h, m.nonzero _ (FinMap.find_eq_some.mp h)]

variable {k : κ} {es : List (κ × ν)}

theorem ext_get (h : ∀ k, m.get k = n.get k) : m = n := by
  classical
  have hmap : m.toFinMap = n.toFinMap := FinMap.ext_find fun k => by rw [find_eq, find_eq, h]
  cases m; cases n
  simpa using hmap

variable [DecidableEq ν]

/-- Reading after one write. -/
theorem get_set (m : FinFun κ ν) (k k' : κ) (v : ν) :
    (m.set k v).get k' = if k = k' then v else m.get k' := by
  unfold set
  split
  · rename_i hv
    by_cases hk : k = k' <;> simp [get, FinMap.find_erase, hk, hv]
  · by_cases hk : k = k' <;> simp [get, FinMap.find_insert, hk]

@[simp] theorem get_set_self (m : FinFun κ ν) (k : κ) (v : ν) : (m.set k v).get k = v := by
  simp [get_set]

theorem get_set_of_ne (m : FinFun κ ν) {k' : κ} (v : ν) (h : k ≠ k') :
    (m.set k v).get k' = m.get k' := by
  simp [get_set, h]

@[simp] theorem set_get (m : FinFun κ ν) (k : κ) : m.set k (m.get k) = m := by
  refine ext_get fun k' => ?_
  by_cases hk : k = k' <;> simp [get_set, hk]


theorem set_set_get (m : FinFun κ ν) (k : κ) (v : ν) : (m.set k v).set k (m.get k) = m := by
  refine ext_get fun k' => ?_
  by_cases hk : k = k' <;> simp [get_set, hk]

/-- A write moves a weighted sum by the weight of the value written minus the weight of the
value it replaces. -/
theorem sum_set (m : FinFun κ ν) (k : κ) (v : ν) (f : κ → ν → ℕ) (hf : f k 0 = 0) :
    (m.set k v).sum f + f k (m.get k) = m.sum f + f k v := by
  have hold : (m.find? k).elim 0 (f k) = f k (m.get k) := by
    cases h : m.find? k <;> simp [get, h, hf]
  unfold set
  split_ifs with hv
  · subst hv
    have hsum := FinMap.sum_filter_ne (k := k) f m.sorted
    rw [← hold, hf]
    exact hsum
  · have hsum := FinMap.sum_insert_list (k := k) (v := v) f m.sorted
    rw [← hold]
    exact hsum

theorem get_le_sum (m : FinFun κ ν) (k : κ) (f : κ → ν → ℕ) (hf : f k 0 = 0) :
    f k (m.get k) ≤ m.sum f := by
  have h := sum_set m k 0 f hf
  omega

theorem get_set_all_of_not_mem (h : ∀ e ∈ es, e.1 ≠ k) : (m.setAll es).get k = m.get k := by
  refine es.foldlRecOn (motive := fun n : FinFun κ ν => n.get k = m.get k) _ rfl fun n hn e he => ?_
  rw [get_set_of_ne n e.2 (h e he), hn]

theorem get_set_all_of_mem (m : FinFun κ ν) (hd : es.Pairwise fun a b => a.1 ≠ b.1) {e : κ × ν}
    (he : e ∈ es) : (m.setAll es).get e.1 = e.2 := by
  induction es generalizing m with
  | nil => simp at he
  | cons x rest ih =>
    obtain ⟨hhead, htail⟩ := pairwise_cons.mp hd
    have hcons : m.setAll (x :: rest) = (m.set x.1 x.2).setAll rest := rfl
    rw [hcons]
    rcases mem_cons.mp he with rfl | he
    · rw [get_set_all_of_not_mem fun y hy => (hhead y hy).symm, get_set_self]
    · exact ih _ htail he

/-- Setting distinct keys replaces their terms of a sum. -/
theorem sum_set_all (m : FinFun κ ν) (hd : es.Pairwise fun a b => a.1 ≠ b.1) (f : κ → ν → ℕ)
    (hf : ∀ k, f k 0 = 0) :
    (m.setAll es).sum f + (es.map fun e => f e.1 (m.get e.1)).sum =
      m.sum f + (es.map fun e => f e.1 e.2).sum := by
  induction es generalizing m with
  | nil => rfl
  | cons e rest ih =>
    obtain ⟨hhead, htail⟩ := pairwise_cons.mp hd
    have hold : (rest.map fun x => f x.1 ((m.set e.1 e.2).get x.1)) =
        rest.map fun x => f x.1 (m.get x.1) :=
      map_congr_left fun x hx => by rw [get_set_of_ne m e.2 (hhead x hx)]
    have hrest := ih (m.set e.1 e.2) htail
    have hset := sum_set m e.1 e.2 f (hf e.1)
    rw [hold] at hrest
    simp only [map_cons, sum_cons]
    have hcons : m.setAll (e :: rest) = (m.set e.1 e.2).setAll rest := rfl
    rw [hcons]
    omega

theorem sum_keys_le (m : FinFun κ ν) {keys : List κ} (hd : keys.Nodup) (f : κ → ν → ℕ)
    (hf : ∀ k, f k 0 = 0) : (keys.map fun k => f k (m.get k)).sum ≤ m.sum f := by
  have hpair : (keys.map fun k => (k, (0 : ν))).Pairwise fun a b => a.1 ≠ b.1 :=
    pairwise_map.mpr hd
  have hsum := sum_set_all m hpair f hf
  simp only [map_map, Function.comp_def, hf, map_const', sum_replicate_nat,
    Nat.mul_zero] at hsum
  omega

end FinFun
