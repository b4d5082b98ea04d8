import Mathlib.Data.List.Sort
import Zycord.Core.NextTarget

/-!
# The median of the recent times

`CheckMedianTime` (`core/pow/pow.go`) compares the time of a header with the median of the headers
before it. Single times may go back; along a chain of headers that pass the check the median does
not (`median_time_monotone`), because a new time stands above the old median and the window loses
one time at most.
-/

namespace Zycord.Pow

open List Option

/-! ## Order statistics -/

theorem count_lt_of_get {l : List UInt64} (hl : l.Pairwise (· ≤ ·)) {k : ℕ}
    {m : UInt64} (hm : l[k]? = some m) : l.countP (· < m) ≤ k := by
  induction l generalizing k with
  | nil => simp
  | cons x l ih =>
    obtain ⟨hx, hl⟩ := pairwise_cons.mp hl
    cases k with
    | zero =>
      obtain rfl : x = m := by simpa using hm
      simpa using fun y hy => UInt64.not_lt.mpr (hx y hy)
    | succ k =>
      have := ih hl (k := k) (by simpa using hm)
      rw [countP_cons]
      split <;> omega

theorem le_get_of_count {l : List UInt64} (hl : l.Pairwise (· ≤ ·)) {k : ℕ}
    {m x : UInt64} (hx : l[k]? = some x) (hm : l.countP (· < m) ≤ k) : m ≤ x := by
  by_contra hlt
  -- The elements up to that position are below the bound, one too many.
  have hk : k < l.length := (List.getElem?_eq_some_iff.mp hx).1
  have hall : (l.take (k + 1)).countP (· < m) = (l.take (k + 1)).length := by
    refine countP_eq_length.mpr fun y hy => ?_
    obtain ⟨i, hi, rfl⟩ := mem_take_iff_getElem.mp hy
    obtain rfl : l[k] = x := (List.getElem?_eq_some_iff.mp hx).2
    have := hl.rel_get_of_le (a := ⟨i, by omega⟩) (b := ⟨k, hk⟩) (by simp; omega)
    simpa using UInt64.lt_of_le_of_lt this (UInt64.not_le.mp hlt)
  have hsub := (take_sublist (k + 1) l).countP_le (p := (· < m))
  rw [length_take, Nat.min_eq_left hk] at hall
  omega

/-! ## The median along a chain -/

section
variable {p : Params} {hs : List Header} {h : Header} {m : UInt64}

/-- The times the median is of. -/
def recentTimes (p : Params) (recent : List Header) : List UInt64 :=
  (recent.drop (recent.length - p.medianTimeBlocks.toInt.toNat)).map Header.time

theorem median_time_eq : medianTime hs p = if p.medianTimeBlocks.toInt < 0 then none else
    ((recentTimes p hs).mergeSort (· ≤ ·))[(recentTimes p hs).length / 2]? := by
  have hstart : (hs.length : ℤ) - (if (hs.length : ℤ) < p.medianTimeBlocks.toInt then
      (hs.length : ℤ) else p.medianTimeBlocks.toInt) =
      max 0 (hs.length - p.medianTimeBlocks.toInt) := by
    split <;> omega
  simp only [medianTime, sliceFrom, hstart, recentTimes]
  by_cases hneg : p.medianTimeBlocks.toInt < 0
  · rw [if_pos hneg, if_neg (by omega)]
    rfl
  · rw [if_neg hneg, if_pos (by omega),
      show (max 0 ((hs.length : ℤ) - p.medianTimeBlocks.toInt)).toNat =
        hs.length - p.medianTimeBlocks.toInt.toNat by omega]
    simp

theorem recent_times_concat (hs : List Header) (h : Header)
    (hpos : 0 < p.medianTimeBlocks.toInt) :
    ∃ kept, kept.Sublist (recentTimes p hs) ∧ recentTimes p (hs ++ [h]) = kept ++ [h.time] ∧
      (recentTimes p hs).length ≤ kept.length + 1 := by
  refine ⟨(hs.drop (hs.length + 1 - p.medianTimeBlocks.toInt.toNat)).map Header.time,
    ((drop_sublist_drop_left hs (by omega)).map _), ?_, ?_⟩
  · rw [recentTimes, length_append, length_singleton,
      drop_append_of_le_length (by omega), map_append]
    rfl
  · simp [recentTimes]
    omega

/-- A header past the median does not lower the median. -/
theorem median_time_step (hm : medianTime hs p = some m) (hheight : h.height ≠ 0)
    (hcheck : checkMedianTime h hs p = some true) :
    ∃ m', medianTime (hs ++ [h]) p = some m' ∧ m ≤ m' := by
  have hlate : m < h.time := by
    have hne : hs.length ≠ 0 := by
      intro hnil
      obtain rfl := length_eq_zero_iff.mp hnil
      simp [median_time_eq, recentTimes] at hm
    simpa [checkMedianTime, hheight, hne, hm] using hcheck
  rw [median_time_eq] at hm ⊢
  split at hm
  · cases hm
  · rename_i hnonneg
    have hpos : 0 < p.medianTimeBlocks.toInt := by
      by_contra hzero
      have : p.medianTimeBlocks.toInt.toNat = 0 := by omega
      simp [recentTimes, this] at hm
    obtain ⟨kept, hkept, hnew, hlen⟩ := recent_times_concat hs h hpos
    have hcount : ((recentTimes p (hs ++ [h])).mergeSort (· ≤ ·)).countP (· < m) ≤
        (recentTimes p (hs ++ [h])).length / 2 := by
      have hold := count_lt_of_get (pairwise_mergeSort' _ _) hm
      rw [(mergeSort_perm _ _).countP_eq] at hold ⊢
      have hsub := hkept.countP_le (p := (· < m))
      have hnew' : [h.time].countP (· < m) = 0 := by simpa using UInt64.le_of_lt hlate
      rw [hnew, countP_append, length_append, length_singleton]
      omega
    have hmid : (recentTimes p (hs ++ [h])).length / 2 <
        ((recentTimes p (hs ++ [h])).mergeSort (· ≤ ·)).length := by
      simp [hnew]
      omega
    have hget := getElem?_eq_getElem hmid
    exact ⟨_, by rw [if_neg hnonneg, hget], le_get_of_count (pairwise_mergeSort' _ _) hget hcount⟩

/-- Headers each of which passed the check over those before it. -/
def TimedChain (p : Params) : (before later : List Header) → Prop
  | _, [] => True
  | before, h :: later => (before ≠ [] → h.height ≠ 0) ∧ checkMedianTime h before p = some true ∧
    TimedChain p (before ++ [h]) later

/-- A chain is continued behind each of its headers. -/
theorem TimedChain.behind {before later : List Header}
    (hchain : TimedChain p before (hs ++ later)) :
    TimedChain p (before ++ hs) later := by
  induction hs generalizing before with
  | nil => simpa using hchain
  | cons h hs ih => simpa using ih hchain.2.2

theorem TimedChain.median_le {later : List Header} (hchain : TimedChain p hs later)
    (hm : medianTime hs p = some m) : ∃ m', medianTime (hs ++ later) p = some m' ∧ m ≤ m' := by
  induction later generalizing hs m with
  | nil => exact ⟨m, by simpa using hm, UInt64.le_refl m⟩
  | cons h later ih =>
    obtain ⟨hheight, hcheck, hchain⟩ := hchain
    have hne : hs ≠ [] := by
      intro hnil
      simp [hnil, median_time_eq, recentTimes] at hm
    obtain ⟨m', hm', hle⟩ := median_time_step hm (hheight hne) hcheck
    obtain ⟨m'', hm'', hle'⟩ := ih hchain hm'
    exact ⟨m'', by simpa using hm'', UInt64.le_trans hle hle'⟩

/-- In a chain whose headers pass the check, the median of the window that ends at a later header is
defined and no earlier than that of the window that ends before it, and a header refused as too old
stays refused. -/
theorem median_time_monotone {later : List Header} (hchain : TimedChain p [] (hs ++ later)) :
    (hs ≠ [] → later ≠ [] → ∃ m m', medianTime hs p = some m ∧
      medianTime (hs ++ later) p = some m' ∧ m ≤ m') ∧
    ∀ h, checkMedianTime h hs p = some false → checkMedianTime h (hs ++ later) p = some false := by
  have hlater : TimedChain p hs later := hchain.behind
  constructor
  · intro hne hnext
    cases later with
    | nil => exact absurd rfl hnext
    | cons h later =>
      have ⟨hheight, hcheck, _⟩ := hlater
      have hlen : hs.length ≠ 0 := fun hnil => hne (length_eq_zero_iff.mp hnil)
      rw [checkMedianTime, if_neg (by simp [hlen, hheight hne])] at hcheck
      obtain ⟨m, hm, -⟩ := map_eq_some_iff.mp hcheck
      obtain ⟨m', hm', hle⟩ := hlater.median_le hm
      exact ⟨m, m', hm, hm', hle⟩
  · intro h hrefused
    unfold checkMedianTime at hrefused ⊢
    split_ifs at hrefused with hchecked
    · cases hrefused
    · obtain ⟨m, hm, hearly⟩ := map_eq_some_iff.mp hrefused
      obtain ⟨m', hm', hle⟩ := hlater.median_le hm
      have hearly : h.time ≤ m := by simpa using hearly
      rw [if_neg (by simp_all), hm']
      simpa using UInt64.le_trans hearly hle

end

/-- A header dated as the first one is refused behind it, and refused behind the next. -/
theorem sample_median_time_monotone :
    let next := { Sample.header 30 1 with height := 1 }
    checkMedianTime { Sample.header 0 1 with height := 1 } [Sample.header 0 1, next]
      Shipped.mainnet = some false := by
  intro next
  have hchain : TimedChain Shipped.mainnet [] ([Sample.header 0 1] ++ [next]) :=
    ⟨nofun, rfl, nofun, by decide +kernel, trivial⟩
  exact (median_time_monotone hchain).2 _ (by decide +kernel)

end Zycord.Pow
