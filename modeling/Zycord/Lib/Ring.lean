import Mathlib.Data.List.GetD
import Mathlib.Data.Nat.ModEq

/-!
# Rings over a history

A ring of `size` entries into which the items of a history are stored one after another, each at
its position modulo `size`. `ringEntry` computes what an index holds from the history alone, newest
item first; the lemmas say that a ring holds exactly the newest `size` items
(`ring_entry_get`, `ring_entry_of_absent`), which item the next store overwrites
(`ring_entry_next`), and that a ring that has just come full circle reads back the last `size`
items in the order they were stored (`map_ring_entry_range`).
-/

universe u

section Ring

open List

variable {α : Type u} (size : ℕ) (blank : α)

/-- What a ring holds at an index after the items of a history were stored, newest first. -/
def ringEntry : List α → ℕ → α
  | [], _ => blank
  | x :: older, index => if older.length % size = index then x else ringEntry older index

variable {size blank} {items : List α} {index : ℕ}

theorem mod_ne_of_lt {m n : ℕ} (hmn : m < n) (hn : n < m + size) : m % size ≠ n % size := by
  intro heq
  have hdvd : size ∣ n - m := (Nat.modEq_iff_dvd' hmn.le).mp heq
  have hle := Nat.le_of_dvd (by omega) hdvd
  omega

/-- Each of the newest `size` items is where it was stored. -/
theorem ring_entry_get {i : ℕ} {x : α} (hi : items[i]? = some x) (hsize : i < size) :
    ringEntry size blank items ((items.length - 1 - i) % size) = x := by
  induction items generalizing i with
  | nil => simp at hi
  | cons y older ih =>
    cases i with
    | zero =>
      obtain rfl : y = x := by simpa using hi
      simp [ringEntry]
    | succ i =>
      rw [getElem?_cons_succ] at hi
      obtain ⟨hlt, -⟩ := List.getElem?_eq_some_iff.mp hi
      have hpos : (y :: older).length - 1 - (i + 1) = older.length - 1 - i := by
        simp only [length_cons]
        omega
      have hne : older.length % size ≠ (older.length - 1 - i) % size :=
        (mod_ne_of_lt (by omega) (by omega)).symm
      rw [hpos, ringEntry, if_neg hne, ih hi (by omega)]

/-- An index at which none of the newest `size` items was stored is blank. -/
theorem ring_entry_of_absent (hpos : 0 < size)
    (h : ∀ i < items.length, i < size → (items.length - 1 - i) % size ≠ index) :
    ringEntry size blank items index = blank := by
  -- an item stored at the index by an older step would have been one of the newest at its time
  suffices habsent : ∀ position < items.length, position % size ≠ index by
    clear h
    induction items with
    | nil => rfl
    | cons x older ih =>
      rw [ringEntry, if_neg (habsent older.length (by simp))]
      exact ih fun position hlt => habsent position (by simp; omega)
  intro position hlt heq
  -- move the position up, a round at a time, until it is among the newest `size`
  have hmod := Nat.mod_lt (items.length - 1 - position) hpos
  have hsum := Nat.div_add_mod' (items.length - 1 - position) size
  generalize (items.length - 1 - position) / size = rounds at hsum
  refine h (items.length - 1 - (position + rounds * size)) (by omega) (by omega) ?_
  have hback : items.length - 1 - (items.length - 1 - (position + rounds * size)) =
      position + rounds * size := by omega
  rw [hback, Nat.add_mul_mod_self_right, heq]

/-- The entry the next store overwrites: the item stored a full round ago, if there is one. -/
theorem ring_entry_next (hpos : 0 < size) :
    ringEntry size blank items (items.length % size) = items.getD (size - 1) blank := by
  by_cases hfull : size ≤ items.length
  · have hlt : size - 1 < items.length := by omega
    have hget : ringEntry size blank items _ = _ :=
      ring_entry_get (getElem?_eq_getElem hlt) (by omega)
    have hround : items.length - 1 - (size - 1) = items.length - size := by omega
    have hmod : (items.length - size) % size = items.length % size := by
      rw [Nat.mod_eq_sub_mod hfull]
    rw [hround, hmod] at hget
    rw [hget, getD_eq_getElem _ _ hlt]
  · rw [getD_eq_default _ _ (by omega)]
    refine ring_entry_of_absent hpos fun i hi _ => ?_
    exact mod_ne_of_lt (by omega) (by omega)

/-- A ring that has just come full circle holds the last `size` items in the order they came. -/
theorem map_ring_entry_range (hpos : 0 < size) (hfull : size ∣ items.length)
    (hne : items ≠ []) :
    (range size).map (ringEntry size blank items) = (items.take size).reverse := by
  have hlen : size ≤ items.length := Nat.le_of_dvd (length_pos_iff.mpr hne) hfull
  refine ext_getElem (by simp [hlen]) fun i hi hi' => ?_
  have hlt : i < size := by simpa using hi
  have hback : size - 1 - i < size := by omega
  have hget : ringEntry size blank items _ = _ :=
    ring_entry_get (getElem?_eq_getElem (hback.trans_le hlen)) hback
  have hindex : (items.length - 1 - (size - 1 - i)) % size = i := by
    obtain ⟨rounds, hrounds⟩ := hfull
    cases rounds with
    | zero => simp only [Nat.mul_zero] at hrounds; omega
    | succ rounds =>
      rw [Nat.mul_succ] at hrounds
      have hshape : items.length - 1 - (size - 1 - i) = i + size * rounds := by omega
      rw [hshape, Nat.add_mul_mod_self_left, Nat.mod_eq_of_lt hlt]
  rw [hindex] at hget
  simp [hget, getElem_reverse, hlen]

end Ring
