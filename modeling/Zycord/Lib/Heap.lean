import Mathlib.Algebra.Order.BigOperators.Group.List
import Mathlib.Algebra.Order.Ring.Nat
import Mathlib.Order.Nat

/-!
# Binary min-heaps in a list

A binary heap kept in a list, the children of position `i` at `2 * i + 1` and `2 * i + 2`, ordered
by a key. `push`, `pop` and `heapify` sift one element up or down; the main facts are that they
keep the order (`ordered_push`, `ordered_pop`, `ordered_heapify`) and which elements they hold.
`frontier` walks down from the root through the elements a predicate skips;
`frontier_le` says that its result bounds the key of every element that is not skipped.
-/

namespace Zycord.Heap

open Nat List

universe u v

variable {α : Type u} {κ : Type v} [LinearOrder κ] (key : α → κ)

/-- Exchange the elements at two positions. -/
def swap (h : List α) (i j : ℕ) : List α :=
  match h[i]?, h[j]? with
  | some a, some b => (h.set i b).set j a
  | _, _ => h

/-- Whether the element at `i` has a smaller key than the one at `j`. -/
def less (h : List α) (i j : ℕ) : Bool :=
  match h[i]?, h[j]? with
  | some a, some b => key a < key b
  | _, _ => false

/-- The position above `i`. -/
def parent (i : ℕ) : ℕ := (i - 1) / 2

/-- Move the element at a position up until its parent is no larger. -/
def siftUp : ℕ → List α → ℕ → List α
  | 0, h, _ => h
  | fuel + 1, h, i =>
    if 0 < i ∧ less key h i (parent i) = true then
      siftUp fuel (swap h i (parent i)) (parent i)
    else h

/-- Add an element. -/
def push (h : List α) (x : α) : List α := siftUp key h.length (h ++ [x]) h.length

/-- The position of the least of an element and its two children. -/
def smallest (h : List α) (i : ℕ) : ℕ :=
  let s := if less key h (2 * i + 1) i then 2 * i + 1 else i
  if less key h (2 * i + 2) s then 2 * i + 2 else s

/-- Move the element at a position down until no child is smaller. -/
def siftDown : ℕ → List α → ℕ → List α
  | 0, h, _ => h
  | fuel + 1, h, i =>
    if smallest key h i = i then h
    else siftDown fuel (swap h i (smallest key h i)) (smallest key h i)

/-- Remove the first element: the last one takes its place and is sifted down. -/
def pop (h : List α) : List α :=
  match h.getLast? with
  | none => []
  | some last => siftDown key h.length (h.set 0 last).dropLast 0

/-- Sift down the positions below `n`, the last one first. -/
def heapifyLoop : ℕ → List α → List α
  | 0, h => h
  | n + 1, h => heapifyLoop n (siftDown key h.length h n)

/-- Make a list a heap. -/
def heapify (h : List α) : List α := heapifyLoop key (h.length / 2) h

/-! ## Exchanging two elements -/

variable {key} {h : List α} {i j k : ℕ} {x y : α}

theorem length_swap (h : List α) (i j : ℕ) : (swap h i j).length = h.length := by
  unfold swap
  split <;> simp

theorem swap_perm (h : List α) (i j : ℕ) : (swap h i j).Perm h := by
  unfold swap
  split
  · rename_i a b ha hb
    obtain ⟨hi, rfl⟩ := List.getElem?_eq_some_iff.mp ha
    obtain ⟨hj, rfl⟩ := List.getElem?_eq_some_iff.mp hb
    exact set_set_perm hi hj
  · exact .refl h

theorem get_swap_left (hi : i < h.length) (hj : j < h.length) : (swap h i j)[i]? = h[j]? := by
  rw [swap, getElem?_eq_getElem hi, getElem?_eq_getElem hj]
  by_cases hij : j = i <;> simp [hij, hi]

theorem get_swap_right (hi : i < h.length) (hj : j < h.length) : (swap h i j)[j]? = h[i]? := by
  rw [swap, getElem?_eq_getElem hi, getElem?_eq_getElem hj]
  simp [hj]

theorem get_swap_of_ne (h : List α) (hki : k ≠ i) (hkj : k ≠ j) : (swap h i j)[k]? = h[k]? := by
  unfold swap
  split <;> simp [hki.symm, hkj.symm]

theorem lt_of_less (hless : less key h i j = true) : i < h.length ∧ j < h.length := by
  unfold less at hless
  split at hless
  · rename_i a b ha hb
    exact ⟨(List.getElem?_eq_some_iff.mp ha).1, (List.getElem?_eq_some_iff.mp hb).1⟩
  · simp at hless

/-! ## Order -/

/-- The element at `i` is no larger than the one at `j`, where both exist. -/
def LeAt (key : α → κ) (h : List α) (i j : ℕ) : Prop :=
  ∀ x y, h[i]? = some x → h[j]? = some y → key x ≤ key y

/-- Every parent from position `k` on is no larger than its children. -/
def OrderedFrom (key : α → κ) (k : ℕ) (h : List α) : Prop :=
  ∀ i, 0 < i → k ≤ parent i → LeAt key h (parent i) i

/-- Every parent is no larger than its children. -/
def Ordered (key : α → κ) (h : List α) : Prop := OrderedFrom key 0 h

theorem parent_lt (hi : 0 < i) : parent i < i := by unfold parent; omega

theorem LeAt.refl (key : α → κ) (h : List α) (i : ℕ) : LeAt key h i i := by
  intro x y hx hy
  rw [Option.some.inj (hx.symm.trans hy)]

theorem LeAt.trans (hj : j < h.length) (hij : LeAt key h i j) (hjk : LeAt key h j k) :
    LeAt key h i k := by
  intro x z hx hz
  have hy := getElem?_eq_getElem hj
  exact (hij x _ hx hy).trans (hjk _ z hy hz)

theorem le_of_not_less (hless : less key h i j = false) : LeAt key h j i := by
  intro y x hy hx
  unfold less at hless
  rw [hx, hy] at hless
  simpa using hless

theorem le_of_less (hless : less key h i j = true) : LeAt key h i j := by
  intro x y hx hy
  unfold less at hless
  rw [hx, hy] at hless
  exact le_of_lt (by simpa using hless)

theorem le_at_swap {a b a' b' : ℕ} (ha : (swap h i j)[a]? = h[a']?)
    (hb : (swap h i j)[b]? = h[b']?) : LeAt key (swap h i j) a b ↔ LeAt key h a' b' := by
  unfold LeAt
  rw [ha, hb]

/-! ## Sifting up -/

/-- What sifting up from `hole` needs: the pairs above other positions are in order, and the
children of the hole are no smaller than its parent. -/
structure UpOrder (key : α → κ) (h : List α) (hole : ℕ) : Prop where
  except : ∀ i, 0 < i → i ≠ hole → LeAt key h (parent i) i
  grand : 0 < hole → ∀ c, 0 < c → parent c = hole → LeAt key h (parent hole) c

variable {n fuel hole : ℕ} {top : α} {rest : List α} {bound : Option κ} {skip : α → Bool}

/-- A swap with the parent moves the violation up. -/
theorem UpOrder.move (ho : UpOrder key h hole) (h0 : 0 < hole)
    (hless : less key h hole (parent hole) = true) :
    UpOrder key (swap h hole (parent hole)) (parent hole) := by
  obtain ⟨hhole, hpar⟩ := lt_of_less hless
  have hp : parent hole < hole := parent_lt h0
  have hup := le_of_less hless
  constructor
  · intro i hi0 hip
    by_cases hih : i = hole
    · subst hih
      rw [le_at_swap (get_swap_right hhole hpar) (get_swap_left hhole hpar)]
      exact hup
    · have hi := get_swap_of_ne h hih hip
      by_cases hph : parent i = hole
      · rw [le_at_swap (by rw [hph]; exact get_swap_left hhole hpar) hi]
        exact ho.grand h0 i hi0 hph
      · by_cases hpp : parent i = parent hole
        · -- a sibling of the hole: it was no smaller than the old parent
          rw [le_at_swap (by rw [hpp]; exact get_swap_right hhole hpar) hi]
          have hsib := ho.except i hi0 hih
          rw [hpp] at hsib
          exact hup.trans hpar hsib
        · rw [le_at_swap (get_swap_of_ne h hph hpp) hi]
          exact ho.except i hi0 hih
  · intro hp0 c hc0 hc
    have hpp : parent (parent hole) < parent hole := parent_lt hp0
    have hgrand := ho.except (parent hole) hp0 (by omega)
    have habove := get_swap_of_ne h (show parent (parent hole) ≠ hole by omega)
      (show parent (parent hole) ≠ parent hole by omega)
    by_cases hch : c = hole
    · subst hch
      rw [le_at_swap habove (get_swap_left hhole hpar)]
      exact hgrand
    · have hcp : c ≠ parent hole := by have := parent_lt hc0; omega
      rw [le_at_swap habove (get_swap_of_ne h hch hcp)]
      have hsib := ho.except c hc0 hch
      rw [hc] at hsib
      exact hgrand.trans hpar hsib

/-- Sifting up restores the heap order. -/
theorem ordered_sift_up (hfuel : hole ≤ fuel) (ho : UpOrder key h hole) :
    Ordered key (siftUp key fuel h hole) := by
  induction fuel generalizing h hole with
  | zero =>
    intro i hi0 _
    exact ho.except i hi0 (by omega)
  | succ fuel ih =>
    unfold siftUp
    split_ifs with hmove
    · have hp := parent_lt hmove.1
      exact ih (by omega) (ho.move hmove.1 hmove.2)
    · intro i hi0 _
      by_cases hih : i = hole
      · subst hih
        exact le_of_not_less (by simpa [hi0] using hmove)
      · exact ho.except i hi0 hih

theorem sift_up_perm (fuel : ℕ) : (siftUp key fuel h i).Perm h := by
  induction fuel generalizing h i with
  | zero => exact .refl h
  | succ fuel ih =>
    unfold siftUp
    split_ifs
    · exact ih.trans (swap_perm h _ _)
    · exact .refl h

/-- Adding an element keeps the heap order. -/
theorem ordered_push (ho : Ordered key h) (x : α) : Ordered key (push key h x) := by
  refine ordered_sift_up le_rfl ⟨fun i hi0 hne => ?_, fun _ c hc0 hc => ?_⟩
  · intro a b ha hb
    have hp := parent_lt hi0
    have hi : i < h.length := by
      have := (List.getElem?_eq_some_iff.mp hb).1
      rw [length_append, length_singleton] at this
      omega
    rw [getElem?_append_left (by omega)] at ha hb
    exact ho i hi0 (zero_le _) a b ha hb
  · intro a b _ hb
    have hlt := (List.getElem?_eq_some_iff.mp hb).1
    rw [length_append, length_singleton] at hlt
    have := parent_lt hc0
    omega

theorem mem_push {x y : α} : y ∈ push key h x ↔ y ∈ h ∨ y = x := by
  rw [push, (sift_up_perm _).mem_iff]
  simp

/-! ## Sifting down -/

/-- The smallest of a node and its children. -/
theorem smallest_cases (key : α → κ) (h : List α) (i : ℕ) :
    smallest key h i = i ∨
    (smallest key h i = 2 * i + 1 ∨ smallest key h i = 2 * i + 2) ∧
      less key h (smallest key h i) i = true := by
  unfold smallest
  by_cases hl : less key h (2 * i + 1) i = true
  · simp only [hl, if_true]
    split_ifs with hr
    · refine .inr ⟨.inr rfl, ?_⟩
      obtain ⟨hr', hl'⟩ := lt_of_less hr
      obtain ⟨-, hi'⟩ := lt_of_less hl
      simp only [less, getElem?_eq_getElem hr', getElem?_eq_getElem hl',
        getElem?_eq_getElem hi', decide_eq_true_eq] at hr hl ⊢
      exact hr.trans hl
    · exact .inr ⟨.inl rfl, hl⟩
  · simp only [hl, Bool.false_eq_true, if_false]
    split_ifs with hr
    · exact .inr ⟨.inr rfl, hr⟩
    · exact .inl rfl

/-- The smallest is no larger than any child. -/
theorem smallest_le (hi : i < h.length) {c : ℕ} (hc0 : 0 < c) (hc : parent c = i) :
    LeAt key h (smallest key h i) c := by
  have hcases : c = 2 * i + 1 ∨ c = 2 * i + 2 := by unfold parent at hc; omega
  unfold smallest
  by_cases hl : less key h (2 * i + 1) i = true
  · simp only [hl, if_true]
    split_ifs with hr
    · rcases hcases with rfl | rfl
      · exact le_of_less hr
      · exact LeAt.refl key h _
    · rcases hcases with rfl | rfl
      · exact LeAt.refl key h _
      · exact le_of_not_less (by simpa using hr)
  · simp only [hl, Bool.false_eq_true, if_false]
    have hle := le_of_not_less (show less key h (2 * i + 1) i = false by simpa using hl)
    split_ifs with hr
    · rcases hcases with rfl | rfl
      · exact (le_of_less hr).trans hi hle
      · exact LeAt.refl key h _
    · rcases hcases with rfl | rfl
      · exact hle
      · exact le_of_not_less (by simpa using hr)

/-- What sifting down from `hole` needs, for the positions from `k` on: the pairs below other
positions are in order, and the children of the hole are no smaller than its parent. -/
structure DownOrder (key : α → κ) (k : ℕ) (h : List α) (hole : ℕ) : Prop where
  except : ∀ i, 0 < i → k ≤ parent i → parent i ≠ hole → LeAt key h (parent i) i
  grand : 0 < hole → k ≤ parent hole → ∀ c, 0 < c → parent c = hole → LeAt key h (parent hole) c

/-- A swap with the smallest child moves the violation down. -/
theorem DownOrder.move {s : ℕ} (ho : DownOrder key k h hole) (hk : k ≤ hole)
    (hs : s = 2 * hole + 1 ∨ s = 2 * hole + 2) (hless : less key h s hole = true)
    (hmin : ∀ c, 0 < c → parent c = hole → LeAt key h s c) : DownOrder key k (swap h hole s) s := by
  obtain ⟨hsl, hhl⟩ := lt_of_less hless
  have hps : parent s = hole := by unfold parent; omega
  constructor
  · intro i hi0 hki hpi
    by_cases hih : i = hole
    · subst hih
      have hpar := parent_lt hi0
      rw [le_at_swap (get_swap_of_ne h (by omega) (by omega)) (get_swap_left hhl hsl)]
      exact ho.grand hi0 hki s (by omega) hps
    · by_cases hph : parent i = hole
      · by_cases his : i = s
        · subst his
          rw [le_at_swap (by rw [hph]; exact get_swap_left hhl hsl) (get_swap_right hhl hsl)]
          exact le_of_less hless
        · rw [le_at_swap (by rw [hph]; exact get_swap_left hhl hsl)
            (get_swap_of_ne h hih his)]
          exact hmin i hi0 hph
      · have his : i ≠ s := fun his => hph (by rw [his, hps])
        rw [le_at_swap (get_swap_of_ne h hph hpi) (get_swap_of_ne h hih his)]
        exact ho.except i hi0 hki hph
  · intro hs0 _ c hc0 hc
    have hlt := parent_lt hc0
    rw [hps, le_at_swap (get_swap_left hhl hsl)
      (get_swap_of_ne h (show c ≠ hole by omega) (show c ≠ s by omega))]
    have hbelow := ho.except c hc0 (by omega) (by omega)
    rwa [hc] at hbelow

/-- Sifting down restores the heap order. -/
theorem ordered_sift_down (hfuel : h.length ≤ fuel + hole) (hk : k ≤ hole)
    (ho : DownOrder key k h hole) : OrderedFrom key k (siftDown key fuel h hole) := by
  -- where no child is smaller, the hole itself is in order
  have hstop : ∀ {h : List α} {hole : ℕ}, DownOrder key k h hole → smallest key h hole = hole →
      OrderedFrom key k h := by
    intro h hole ho hs i hi0 hki
    by_cases hph : parent i = hole
    · intro x y hx hy
      have hlt := (List.getElem?_eq_some_iff.mp hx).1
      have hle : LeAt key h (smallest key h (parent i)) i := smallest_le hlt hi0 rfl
      rw [hph, hs] at hle
      rw [hph] at hx
      exact hle x y hx hy
    · exact ho.except i hi0 hki hph
  induction fuel generalizing h hole with
  | zero =>
    refine hstop ho ?_
    rcases smallest_cases key h hole with hs | ⟨-, hless⟩
    · exact hs
    · have := (lt_of_less hless).2
      omega
  | succ fuel ih =>
    unfold siftDown
    split_ifs with hs
    · exact hstop ho hs
    · obtain ⟨hchild, hless⟩ := (smallest_cases key h hole).resolve_left hs
      have hlt := (lt_of_less hless).2
      exact ih (by rw [length_swap]; omega) (by omega)
        (ho.move hk hchild hless fun c hc0 hc => smallest_le hlt hc0 hc)

theorem sift_down_perm (fuel : ℕ) : (siftDown key fuel h i).Perm h := by
  induction fuel generalizing h i with
  | zero => exact .refl h
  | succ fuel ih =>
    unfold siftDown
    split_ifs
    · exact .refl h
    · exact ih.trans (swap_perm h _ _)

/-- A heap whose first element was replaced is in order below it. -/
theorem down_order_root {h' : List α} (ho : Ordered key h)
    (hsame : ∀ i x, 0 < i → h'[i]? = some x → h[i]? = some x) : DownOrder key 0 h' 0 where
  except i hi0 _ hp a b ha hb :=
    ho i hi0 (zero_le _) a b (hsame _ _ (Nat.pos_of_ne_zero hp) ha) (hsame _ _ hi0 hb)
  grand h0 := absurd h0 (lt_irrefl 0)

/-! ## Removing the first element -/

/-- Removing the first element keeps the heap order. -/
theorem ordered_pop (ho : Ordered key h) : Ordered key (pop key h) := by
  unfold pop
  split
  · intro i _ _ x y hx
    simp at hx
  · refine ordered_sift_down (by simp) le_rfl (down_order_root ho fun i x hi0 hx => ?_)
    rw [getElem?_dropLast] at hx
    split_ifs at hx
    rwa [getElem?_set_ne hi0.ne] at hx

/-- Replacing the first element keeps the heap order, once the new one has been sifted down. -/
theorem ordered_replace (ho : Ordered key (top :: rest)) (x : α) :
    Ordered key (siftDown key (top :: rest).length (x :: rest) 0) := by
  refine ordered_sift_down le_rfl le_rfl (down_order_root ho fun i y hi0 hy => ?_)
  obtain ⟨i, rfl⟩ := Nat.exists_eq_succ_of_ne_zero hi0.ne'
  exact hy

theorem mem_pop_of_mem (hx : x ∈ top :: rest) : x = top ∨ x ∈ pop key (top :: rest) := by
  rcases mem_cons.mp hx with rfl | hrest
  · exact .inl rfl
  · right
    rw [pop, getLast?_cons, (sift_down_perm _).mem_iff]
    show x ∈ (rest.getLast?.getD top :: rest).dropLast
    obtain ⟨front, last, rfl⟩ : ∃ front last, rest = front ++ [last] :=
      ⟨rest.dropLast, rest.getLast (ne_nil_of_mem hrest),
        (dropLast_concat_getLast (ne_nil_of_mem hrest)).symm⟩
    rw [getLast?_concat, ← cons_append, dropLast_concat]
    rcases mem_append.mp hrest with hfront | hlast
    · exact mem_cons_of_mem _ hfront
    · rw [mem_singleton.mp hlast]
      exact mem_cons_self

/-! ## Building a heap -/

theorem ordered_heapify_loop (ho : OrderedFrom key n h) : Ordered key (heapifyLoop key n h) := by
  induction n generalizing h with
  | zero => exact ho
  | succ n ih =>
    refine ih (ordered_sift_down (by omega) le_rfl ⟨fun i hi0 hn hp => ?_, fun h0 hn => ?_⟩)
    · exact ho i hi0 (by omega)
    · have := parent_lt h0
      omega

/-- Any list becomes a heap. -/
theorem ordered_heapify (key : α → κ) (h : List α) : Ordered key (heapify key h) := by
  refine ordered_heapify_loop fun i hi0 hk x y _ hy => ?_
  have hlt := (List.getElem?_eq_some_iff.mp hy).1
  unfold parent at hk
  omega

theorem heapify_perm (h : List α) : (heapify key h).Perm h := by
  have hloop : ∀ n (h : List α), (heapifyLoop key n h).Perm h := by
    intro n
    induction n with
    | zero => exact fun h => .refl h
    | succ n ih => exact fun h => (ih _).trans (sift_down_perm _)
  exact hloop _ h

/-! ## The descent past skipped elements -/

/-- `Under i j`: position `j` lies in the subtree below `i`, or is `i`. -/
inductive Under (i : ℕ) : ℕ → Prop
  | refl : Under i i
  | left {j : ℕ} : Under i j → Under i (2 * j + 1)
  | right {j : ℕ} : Under i j → Under i (2 * j + 2)

theorem Under.le (hu : Under i j) : i ≤ j := by
  induction hu with
  | refl => exact le_rfl
  | left _ ih => omega
  | right _ ih => omega

theorem Under.cases_down (hu : Under i j) : j = i ∨ Under (2 * i + 1) j ∨ Under (2 * i + 2) j := by
  induction hu with
  | refl => exact .inl rfl
  | left _ ih =>
    rcases ih with rfl | hl | hr
    · exact .inr (.inl .refl)
    · exact .inr (.inl hl.left)
    · exact .inr (.inr hr.left)
  | right _ ih =>
    rcases ih with rfl | hl | hr
    · exact .inr (.inr .refl)
    · exact .inr (.inl hl.right)
    · exact .inr (.inr hr.right)

theorem under_zero (j : ℕ) : Under 0 j := by
  induction j using Nat.strongRecOn with
  | _ j ih =>
    by_cases h0 : j = 0
    · subst h0
      exact .refl
    · have hrec := ih (parent j) (parent_lt (by omega))
      rcases (show j = 2 * parent j + 1 ∨ j = 2 * parent j + 2 by unfold parent; omega) with hj | hj
      · rw [hj]
        exact hrec.left
      · rw [hj]
        exact hrec.right

theorem Ordered.child {c : ℕ} (ho : Ordered key h) (hc : parent c = j) (hc0 : 0 < c)
    (hle : LeAt key h i j) : LeAt key h i c := by
  intro x y hx hy
  have hlt := (List.getElem?_eq_some_iff.mp hy).1
  have hstep := ho c hc0 (zero_le _)
  rw [hc] at hstep
  exact hle.trans (hc ▸ (parent_lt hc0).trans hlt) hstep x y hx hy

theorem Ordered.le_of_under (ho : Ordered key h) (hu : Under i j) : LeAt key h i j := by
  induction hu with
  | refl => exact LeAt.refl key h i
  | left _ ih | right _ ih => exact ho.child (by unfold parent; omega) (by omega) ih

theorem Ordered.head_le (ho : Ordered key (top :: rest)) (hx : x ∈ top :: rest) :
    key top ≤ key x := by
  obtain ⟨j, hj⟩ := mem_iff_getElem?.mp hx
  exact ho.le_of_under (under_zero j) top x rfl hj

/-- A smaller key replaces the bound found so far. -/
def lower (bound : Option κ) (k : κ) : Option κ :=
  match bound with
  | none => some k
  | some b => if k < b then some k else some b

variable (key) in
/-- The loop of the descent: take a position off the stack; an element that is not skipped lowers
the bound, one that is skipped puts its children on the stack. -/
def frontierLoop (skip : α → Bool) (h : List α) : ℕ → List ℕ → Option κ → Option κ
  | 0, _, bound => bound
  | _ + 1, [], bound => bound
  | fuel + 1, i :: work, bound =>
    match h[i]? with
    | none => frontierLoop skip h fuel work bound
    | some x =>
      if skip x = false then frontierLoop skip h fuel work (lower bound (key x))
      else
        let work := if 2 * i + 1 < h.length then (2 * i + 1) :: work else work
        let work := if 2 * i + 2 < h.length then (2 * i + 2) :: work else work
        frontierLoop skip h fuel work bound

variable (key) in
/-- The least key among the first elements not skipped on each branch down from the root. -/
def frontier (skip : α → Bool) (h : List α) : Option κ :=
  frontierLoop key skip h (2 ^ h.length) [0] none

/-- A bound on the steps the descent takes from a stack of positions. -/
def effort (n : ℕ) (work : List ℕ) : ℕ := (work.map fun i => 2 ^ (n - i)).sum

/-- A bound that is there and not above a key. -/
def AtMost (bound : Option κ) (k : κ) : Prop := ∃ b, bound = some b ∧ b ≤ k

theorem at_most_lower (bound : Option κ) (k : κ) : AtMost (lower bound k) k := by
  unfold lower
  cases bound with
  | none => exact ⟨k, rfl, le_rfl⟩
  | some b =>
    dsimp only
    split_ifs with hlt
    · exact ⟨k, rfl, le_rfl⟩
    · exact ⟨b, rfl, not_lt.mp hlt⟩

theorem AtMost.lower {k : κ} (hb : AtMost bound k) (k' : κ) : AtMost (lower bound k') k := by
  obtain ⟨b, rfl, hle⟩ := hb
  unfold Heap.lower
  dsimp only
  split_ifs with hlt
  · exact ⟨k', rfl, hlt.le.trans hle⟩
  · exact ⟨b, rfl, hle⟩

/-- Trading a node for its children leaves less to visit. -/
theorem effort_children (work : List ℕ) (hi : i < n) :
    effort n (if 2 * i + 2 < n then (2 * i + 2) :: if 2 * i + 1 < n then (2 * i + 1) :: work
      else work else if 2 * i + 1 < n then (2 * i + 1) :: work else work) <
    effort n (i :: work) := by
  have hl : 2 * i + 1 < n → 2 ^ (n - (2 * i + 1)) * 2 ≤ 2 ^ (n - i) := by
    intro hlt
    rw [← pow_succ]
    exact Nat.pow_le_pow_right (by omega) (by omega)
  have hr : 2 * i + 2 < n → 2 ^ (n - (2 * i + 2)) * 4 ≤ 2 ^ (n - i) := by
    intro hlt
    rw [show (4 : ℕ) = 2 ^ 2 from rfl, ← pow_add]
    exact Nat.pow_le_pow_right (by omega) (by omega)
  have hpos : 0 < 2 ^ (n - i) := Nat.pow_pos (by omega)
  simp only [effort]
  split_ifs with h2 h1 h1
  · simp only [map_cons, sum_cons]
    omega
  · omega
  · simp only [map_cons, sum_cons]
    omega
  simp

/-- With enough fuel the descent bounds every element that is not skipped and lies below a
position still on the stack, or was bounded before. -/
theorem frontier_loop_le (ho : Ordered key h) {work : List ℕ}
    (hfuel : effort h.length work ≤ fuel) (hj : h[j]? = some x) (hskip : skip x = false)
    (hcover : AtMost bound (key x) ∨ ∃ i ∈ work, Under i j) :
    AtMost (frontierLoop key skip h fuel work bound) (key x) := by
  have hjl := (List.getElem?_eq_some_iff.mp hj).1
  induction fuel generalizing work bound with
  | zero =>
    rcases hcover with hb | ⟨i, hi, hu⟩
    · exact hb
    · have hle : 2 ^ (h.length - i) ≤ effort h.length work :=
        le_sum_of_mem (mem_map.mpr ⟨i, hi, rfl⟩)
      have hpos : 0 < 2 ^ (h.length - i) := Nat.pow_pos (by omega)
      omega
  | succ fuel ih =>
    cases work with
    | nil =>
      rcases hcover with hb | ⟨i, hi, -⟩
      · exact hb
      · simp at hi
    | cons i work =>
      have hrest : effort h.length work + 2 ^ (h.length - i) ≤ fuel + 1 := by
        rw [Nat.add_comm]
        exact hfuel
      have hpos : 0 < 2 ^ (h.length - i) := Nat.pow_pos (by omega)
      unfold frontierLoop
      split
      · -- outside the list: nothing lies below
        rename_i hnone
        refine ih (by omega) (hcover.imp_right ?_)
        rintro ⟨i', hi', hu⟩
        rcases mem_cons.mp hi' with rfl | hi'
        · have hle := hu.le
          rw [List.getElem?_eq_none_iff] at hnone
          omega
        · exact ⟨i', hi', hu⟩
      · rename_i y hy
        have hil := (List.getElem?_eq_some_iff.mp hy).1
        split
        · -- a frontier element bounds its whole subtree
          refine ih (by omega) ?_
          rcases hcover with hb | ⟨i', hi', hu⟩
          · exact .inl (hb.lower _)
          · rcases mem_cons.mp hi' with rfl | hi'
            · obtain ⟨b, hb, hle⟩ := at_most_lower bound (key y)
              exact .inl ⟨b, hb, hle.trans (ho.le_of_under hu y x hy hj)⟩
            · exact .inr ⟨i', hi', hu⟩
        · rename_i hskipped
          have heffort := effort_children work hil
          refine ih (by omega) (hcover.imp_right ?_)
          rintro ⟨i', hi', hu⟩
          rcases mem_cons.mp hi' with rfl | hi'
          · rcases hu.cases_down with rfl | hl | hr
            · rw [Option.some.inj (hy.symm.trans hj)] at hskipped
              exact absurd hskip hskipped
            · refine ⟨2 * i' + 1, ?_, hl⟩
              have := hl.le
              rw [if_pos (show 2 * i' + 1 < h.length by omega)]
              split <;> simp
            · refine ⟨2 * i' + 2, ?_, hr⟩
              have := hr.le
              rw [if_pos (show 2 * i' + 2 < h.length by omega)]
              exact mem_cons_self
          · refine ⟨i', ?_, hu⟩
            split <;> split <;> simp [hi']

/-- The descent from the root bounds the key of every element that is not skipped. -/
theorem frontier_le (ho : Ordered key h) (hx : x ∈ h) (hskip : skip x = false) :
    AtMost (frontier key skip h) (key x) := by
  obtain ⟨j, hj⟩ := mem_iff_getElem?.mp hx
  exact frontier_loop_le ho (by simp [effort]) hj hskip
    (.inr ⟨0, mem_singleton.mpr rfl, under_zero j⟩)

end Zycord.Heap
