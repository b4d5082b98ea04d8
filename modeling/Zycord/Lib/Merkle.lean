import Mathlib.Algebra.Group.Nat.Defs
import Mathlib.Data.List.TakeDrop

/-!
# Layered hash trees

A perfect binary tree over a list of leaves, kept as the list of its layers (`layersOf`), and the
repair of such a tree after some leaves moved: only the nodes above a moved leaf are computed again
(`repair`). `repair_layers` says that repairing the tree over the old leaves gives the tree over the
new ones, as long as every leaf that moved is listed, and `top_inj` that the top determines the
leaves, as long as no two pairs of nodes collide.
-/

universe u

namespace Merkle

open List

variable {α : Type u}

/-- One layer up. -/
def pairUp (node : α → α → α) : List α → List α
  | l :: r :: rest => node l r :: pairUp node rest
  | [_] => []
  | [] => []

/-- All layers, from the leaves up. -/
def layersOf (node : α → α → α) : ℕ → List α → List (List α)
  | 0, leaves => [leaves]
  | d + 1, leaves => leaves :: layersOf node d (pairUp node leaves)

/-- The node at the top of a tree of height `d`. -/
def top (zero : α) (d : ℕ) (layers : List (List α)) : α := (layers.getD d []).headD zero

/-- The parents of a list of positions, adjacent repetitions dropped. -/
def parents (dirty : List ℕ) : List ℕ :=
  dirty.foldl (fun up i => if up.getLast? = some (i / 2) then up else up ++ [i / 2]) []

/-- Compute the listed nodes again. -/
def rehash (node : α → α → α) (zero : α) (lower upper : List α) (up : List ℕ) : List α :=
  up.foldl (fun layer j =>
    layer.set j (node (lower.getD (2 * j) zero) (lower.getD (2 * j + 1) zero)))
    upper

/-- Bring the layers above `lower` up to date; `dirty` lists the positions of `lower` that
moved. -/
def repair (node : α → α → α) (zero : α) : List ℕ → List α → List (List α) → List (List α)
  | _, lower, [] => [lower]
  | dirty, lower, upper :: rest =>
    if dirty = [] then lower :: upper :: rest
    else
      let up := parents dirty
      lower :: repair node zero up (rehash node zero lower upper up) rest

/-! ## One layer -/

variable (node : α → α → α) (zero : α)

variable (d : ℕ) (leaves layer lower upper : List α) (up : List ℕ)

theorem length_pair_up : (pairUp node layer).length = layer.length / 2 := by
  fun_induction pairUp node layer with
  | case1 l r rest ih =>
    simp only [length_cons, ih]
    omega
  | case2 => simp
  | case3 => simp

variable {j : ℕ} {dirty : List ℕ} {a b new old : List α}

theorem get_pair_up (hj : j < (pairUp node layer).length) : (pairUp node layer)[j]? =
      some (node (layer.getD (2 * j) zero) (layer.getD (2 * j + 1) zero)) := by
  fun_induction pairUp node layer generalizing j with
  | case1 l r rest ih =>
    cases j with
    | zero => simp
    | succ j =>
      have hrest : j < (pairUp node rest).length := by simpa using hj
      have hdouble : 2 * (j + 1) = 2 * j + 1 + 1 := by omega
      rw [List.getElem?_cons_succ, ih hrest, hdouble]
      simp
  | case2 => simp at hj
  | case3 => simp at hj

/-- The parents of the dirty positions. -/
theorem mem_parents : j ∈ parents dirty ↔ ∃ i ∈ dirty, i / 2 = j := by
  have hfold : ∀ (dirty up : List ℕ),
      j ∈ dirty.foldl (fun up i => if up.getLast? = some (i / 2) then up else up ++ [i / 2]) up ↔
        j ∈ up ∨ ∃ i ∈ dirty, i / 2 = j := by
    intro dirty
    induction dirty with
    | nil => intro up; simp
    | cons i rest ih =>
      intro up
      rw [foldl_cons, ih]
      split
      · -- the sibling was listed before: the parent is already there
        rename_i hlast
        have hmem : i / 2 ∈ up := mem_of_getLast? hlast
        constructor
        · rintro (h | ⟨x, hx, rfl⟩)
          · exact Or.inl h
          · exact Or.inr ⟨x, mem_cons_of_mem _ hx, rfl⟩
        · rintro (h | ⟨x, hx, rfl⟩)
          · exact Or.inl h
          · rcases mem_cons.mp hx with rfl | hx
            · exact Or.inl hmem
            · exact Or.inr ⟨x, hx, rfl⟩
      · simp only [mem_append, mem_cons, exists_eq_or_imp, eq_comm (a := j)]
        tauto
  simpa [parents] using hfold dirty []

theorem length_rehash : (rehash node zero lower upper up).length = upper.length := by
  unfold rehash
  induction up generalizing upper with
  | nil => rfl
  | cons j rest ih => rw [foldl_cons, ih, length_set]

theorem get_rehash (hj : j < upper.length) : (rehash node zero lower upper up)[j]? =
      if j ∈ up then some (node (lower.getD (2 * j) zero) (lower.getD (2 * j + 1) zero))
      else upper[j]? := by
  unfold rehash
  induction up generalizing upper with
  | nil => simp
  | cons k rest ih =>
    rw [foldl_cons, ih _ (by simpa using hj)]
    by_cases hrest : j ∈ rest
    · simp [hrest]
    · by_cases hk : k = j
      · subst hk
        simp [hrest, hj]
      · simp [hrest, hk, Ne.symm hk]

/-- Rehashing the dirty parents alone gives the next row. -/
theorem rehash_pair_up (hlen : old.length = new.length)
    (hmoved : ∀ i, i ∉ dirty → old[i]? = new[i]?) :
    rehash node zero new (pairUp node old) (parents dirty) = pairUp node new := by
  have hup : (pairUp node old).length = (pairUp node new).length := by
    rw [length_pair_up, length_pair_up, hlen]
  refine ext_getElem? fun j => ?_
  by_cases hj : j < (pairUp node old).length
  · rw [get_rehash node zero new _ _ hj, get_pair_up node zero old hj,
      get_pair_up node zero new (hup ▸ hj)]
    split
    · rfl
    · -- neither child moved
      rename_i hnot
      have hkept : ∀ i, i / 2 = j → old.getD i zero = new.getD i zero := by
        intro i hi
        have hi' : i ∉ dirty := fun h => hnot (mem_parents.mpr ⟨i, h, hi⟩)
        rw [getD_eq_getElem?_getD, getD_eq_getElem?_getD, hmoved i hi']
      rw [hkept (2 * j) (by omega), hkept (2 * j + 1) (by omega)]
  · have hleft : (rehash node zero new (pairUp node old) (parents dirty)).length ≤ j := by
      rw [length_rehash]
      omega
    rw [List.getElem?_eq_none hleft, List.getElem?_eq_none (by omega)]

/-! ## Whole trees -/

theorem layers_of_ne_nil : layersOf node d leaves = leaves :: (layersOf node d leaves).tail := by
  cases d <;> rfl

theorem length_layers_of : (layersOf node d leaves).length = d + 1 := by
  induction d generalizing leaves with
  | zero => rfl
  | succ d ih => simpa [layersOf] using ih _

/-- Repairing the tree over the old leaves gives the tree over the new ones. -/
theorem repair_layers (hlen : old.length = new.length)
    (hmoved : ∀ i, i ∉ dirty → old[i]? = new[i]?) :
    repair node zero dirty new (layersOf node d old).tail = layersOf node d new := by
  induction d generalizing old new dirty with
  | zero => rfl
  | succ d ih =>
    show repair node zero dirty new (layersOf node d (pairUp node old)) = _
    rw [layers_of_ne_nil node d (pairUp node old)]
    by_cases hdirty : dirty = []
    · have heq : old = new := by
        refine ext_getElem? fun i => hmoved i ?_
        simp [hdirty]
      subst heq
      rw [repair, if_pos hdirty, ← layers_of_ne_nil]
      rfl
    · rw [repair, if_neg hdirty]
      show new :: repair node zero _ _ _ = new :: layersOf node d (pairUp node new)
      -- the layer above is the right one; every node of it that moved is a listed parent
      have hup := rehash_pair_up node zero hlen hmoved
      have hlen' : (pairUp node old).length = (pairUp node new).length := by
        rw [length_pair_up, length_pair_up, hlen]
      have hmoved' : ∀ j, j ∉ parents dirty → (pairUp node old)[j]? = (pairUp node new)[j]? := by
        intro j hj
        by_cases hlt : j < (pairUp node old).length
        · rw [← hup, get_rehash node zero new _ _ hlt, if_neg hj]
        · rw [List.getElem?_eq_none (by omega), List.getElem?_eq_none (by omega)]
      rw [hup, ih hlen' hmoved']

@[simp] theorem top_layers_of_succ : top zero (d + 1) (layersOf node (d + 1) leaves) =
      top zero d (layersOf node d (pairUp node leaves)) := rfl

/-! ## What the top determines -/

/-- The neighbours that a layer is paired up by. -/
def pairs : List α → List (α × α)
  | l :: r :: rest => (l, r) :: pairs rest
  | _ => []

/-- The pairs of neighbours in all layers of the tree of height `d` over a leaf layer. -/
def treePairs : ℕ → List α → List (α × α)
  | 0, _ => []
  | d + 1, leaves => pairs leaves ++ treePairs d (pairUp node leaves)

theorem pair_up_inj {n : ℕ} (ha : a.length = 2 * n) (hb : b.length = 2 * n)
    (hinj : ∀ x ∈ pairs a, ∀ y ∈ pairs b, node x.1 x.2 = node y.1 y.2 → x = y)
    (h : pairUp node a = pairUp node b) : a = b := by
  induction n generalizing a b with
  | zero => rw [length_eq_zero_iff.mp ha, length_eq_zero_iff.mp hb]
  | succ n ih =>
    match a, b, ha, hb with
    | l :: r :: a, l' :: r' :: b, ha, hb =>
      obtain ⟨hnode, hrest⟩ := List.cons.inj h
      obtain ⟨rfl, rfl⟩ := Prod.mk.inj (hinj _ mem_cons_self _ mem_cons_self hnode)
      simp only [length_cons] at ha hb
      rw [ih (by omega) (by omega)
        (fun x hx y hy => hinj x (mem_cons_of_mem _ hx) y (mem_cons_of_mem _ hy)) hrest]

/-- Two trees of one height with the same top have the same leaves. -/
theorem top_inj {d : ℕ} (ha : a.length = 2 ^ d) (hb : b.length = 2 ^ d)
    (hinj : ∀ x ∈ treePairs node d a, ∀ y ∈ treePairs node d b, node x.1 x.2 = node y.1 y.2 → x = y)
    (h : top zero d (layersOf node d a) = top zero d (layersOf node d b)) : a = b := by
  induction d generalizing a b with
  | zero =>
    obtain ⟨x, rfl⟩ := length_eq_one_iff.mp ha
    obtain ⟨y, rfl⟩ := length_eq_one_iff.mp hb
    exact congrArg (fun x => [x]) h
  | succ d ih =>
    rw [Nat.pow_succ'] at ha hb
    refine pair_up_inj node ha hb (fun x hx y hy => hinj x (mem_append_left _ hx) y
      (mem_append_left _ hy)) (ih ?_ ?_ (fun x hx y hy => hinj x (mem_append_right _ hx) y
      (mem_append_right _ hy)) h)
    · rw [length_pair_up, ha, Nat.mul_div_cancel_left _ Nat.two_pos]
    · rw [length_pair_up, hb, Nat.mul_div_cancel_left _ Nat.two_pos]

end Merkle
