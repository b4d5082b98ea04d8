import Mathlib.Algebra.Order.BigOperators.Group.List
import Mathlib.Data.List.Chain
import Zycord.Core.Difficulty
import Zycord.Core.Shipped
import Zycord.Core.Validate

/-!
# The difficulty rule in exact arithmetic

`NextTarget` (`core/pow/pow.go`) weighs solve times in a signed 64-bit word, adds up weights and
remainders in unsigned ones and averages 256-bit targets. `exactTarget` is the same rule over
numbers of any size. `Safe` says that the source computes it: every operation of its loops is exact
and the result is a target in range. `safe_iff_fits` says for which parameters and headers that is
so, `DifficultyFits.fits` gives a condition on the parameters alone, and `next_target_exact` is the
result for the shipped parameter sets.
-/

namespace Zycord.Pow

open Int Nat Params List U256

/-! ## The rule over numbers of any size -/

/-- The signed solve time between two timestamps, clamped. -/
def exactSolve (maxSolve previous time : ℕ) : ℤ :=
  max (-maxSolve) (min maxSolve ((time : ℤ) - previous))

/-- The solve times behind a header, each multiplied by its position, the first of them `i`. -/
def exactWeighted (maxSolve : ℕ) : (i previous : ℕ) → List Header → ℤ
  | _, _, [] => 0
  | i, previous, h :: rest =>
    exactSolve maxSolve previous h.time.toNat * i + exactWeighted maxSolve (i + 1) h.time.toNat rest

/-- The sum of as many positions, the first of them `i`. -/
def exactWeights : ℕ → List Header → ℕ
  | _, [] => 0
  | i, _ :: rest => i + exactWeights (i + 1) rest

/-- The weighted solve times of a window. -/
def weightedOf (p : Params) : List Header → ℤ
  | [] => 0
  | h :: rest => exactWeighted (p.targetBlockSeconds.toNat * p.difficultyClampFactor.toNat) 1
      h.time.toNat rest

/-- The sum of the weights. -/
def weightsOf (window : List Header) : ℕ := exactWeights 1 window.tail

/-- The mean target. -/
def meanOf (window : List Header) : ℕ :=
  (window.map fun h => h.target.toNat).sum / window.length

/-- The newest target. -/
def lastOf (window : List Header) : ℕ := ((window.getLast?).map fun h => h.target.toNat).getD 0

/-- A target brought into the relative bounds around the last one, then into the absolute ones. -/
def exactClamp (p : Params) (last next : ℕ) : ℕ :=
  max 1 (min p.maxTarget.toNat (max (last / p.difficultyClampFactor.toNat)
    (min (last * p.difficultyClampFactor.toNat) next)))

/-- The rule over numbers of any size. -/
def exactTarget (p : Params) (window : List Header) : ℕ :=
  exactClamp p (lastOf window) (meanOf window * (max 1 (weightedOf p window)).toNat /
    (weightsOf window * p.targetBlockSeconds.toNat))

/-! ## Words -/

/-- A number that a signed word holds. -/
def InInt64 (x : ℤ) : Prop := -2 ^ 63 ≤ x ∧ x < 2 ^ 63

/-- Fitting a word can be decided. -/
instance (x : ℤ) : Decidable (InInt64 x) := inferInstanceAs (Decidable (_ ∧ _))

theorem bmod_eq_iff {x : ℤ} : x.bmod (2 ^ 64) = x ↔ InInt64 x := by
  have hle := le_bmod (x := x) (m := 2 ^ 64) (by decide)
  have hlt := bmod_lt (x := x) (m := 2 ^ 64) (by decide)
  constructor
  · intro h
    unfold InInt64
    omega
  · intro ⟨hlo, hhi⟩
    exact bmod_eq_of_le (by omega) (by omega)

theorem to_int_to_int64 (u : UInt64) : u.toInt64.toInt = (u.toNat : ℤ).bmod (2 ^ 64) :=
  BitVec.toInt_eq_toNat_bmod _

theorem to_nat_to_uint64 {x : Int64} (h : 0 ≤ x.toInt) : x.toUInt64.toNat = x.toInt.toNat := by
  have hword := Params.to_nat_of_nonneg h
  omega

/-- The code's solve time is the exact one, wrapped to 64 bits. -/
theorem to_int_solve_time (maxSolve previous time : UInt64) :
    (solveTime maxSolve previous time).toInt =
      (exactSolve maxSolve.toNat previous.toNat time.toNat).bmod (2 ^ 64) := by
  have hclamp : ∀ d : UInt64, (if d > maxSolve then maxSolve else d).toNat =
      min maxSolve.toNat d.toNat := by
    intro d
    split_ifs with h
    · have h := UInt64.lt_iff_toNat_lt.mp h
      omega
    · have h := UInt64.le_iff_toNat_le.mp (UInt64.not_lt.mp h)
      omega
  unfold solveTime exactSolve
  split_ifs with hge
  · have hle := UInt64.le_iff_toNat_le.mp hge
    rw [to_int_to_int64, hclamp, UInt64.toNat_sub_of_le _ _ hge]
    congr 1
    omega
  · have hle : time ≤ previous := UInt64.le_of_lt (UInt64.not_le.mp hge)
    have hleNat := UInt64.le_iff_toNat_le.mp hle
    rw [Int64.toInt_neg, to_int_to_int64, hclamp, UInt64.toNat_sub_of_le _ _ hle, Int.bmod_neg_bmod]
    congr 1
    omega

/-! ## The loop over the solve times -/

/-- An iteration of the source's loop in which no operation wraps. -/
structure IterExact (maxSolve i previous : UInt64) (acc : Int64 × UInt64) (h : Header) : Prop where
  index : i.toInt64.toInt = i.toNat
  solve : (solveTime maxSolve previous h.time).toInt =
    exactSolve maxSolve.toNat previous.toNat h.time.toNat
  product : (solveTime maxSolve previous h.time * i.toInt64).toInt =
    (solveTime maxSolve previous h.time).toInt * i.toInt64.toInt
  weighted : (acc.1 + solveTime maxSolve previous h.time * i.toInt64).toInt =
    acc.1.toInt + (solveTime maxSolve previous h.time * i.toInt64).toInt
  weights : (acc.2 + i).toNat = acc.2.toNat + i.toNat

/-- No iteration of the loop wraps. -/
def LoopExact (maxSolve : UInt64) : (i previous : UInt64) → List Header → Int64 × UInt64 → Prop
  | _, _, [], _ => True
  | i, previous, h :: rest, acc =>
    IterExact maxSolve i previous acc h ∧ LoopExact maxSolve (i + 1) h.time rest
      (acc.1 + solveTime maxSolve previous h.time * i.toInt64, acc.2 + i)

/-- The numbers of an iteration fit in their words. -/
structure IterFits (maxSolve i previous : ℕ) (weighted : ℤ) (weights : ℕ) (h : Header) : Prop where
  index : i < 2 ^ 63
  solve : InInt64 (exactSolve maxSolve previous h.time.toNat)
  product : InInt64 (exactSolve maxSolve previous h.time.toNat * i)
  weighted : InInt64 (weighted + exactSolve maxSolve previous h.time.toNat * i)
  weights : weights + i < 2 ^ 64

/-- The numbers of every iteration fit. -/
def LoopFits (maxSolve : ℕ) : (i previous : ℕ) → List Header → ℤ → ℕ → Prop
  | _, _, [], _, _ => True
  | i, previous, h :: rest, weighted, weights =>
    IterFits maxSolve i previous weighted weights h ∧ LoopFits maxSolve (i + 1) h.time.toNat rest
      (weighted + exactSolve maxSolve previous h.time.toNat * i) (weights + i)

variable {a b i maxSolve previous : UInt64} {acc : Int64 × UInt64} {h : Header} {hs : List Header}

theorem to_int_index_iff : i.toInt64.toInt = i.toNat ↔ i.toNat < 2 ^ 63 := by
  rw [to_int_to_int64, bmod_eq_iff, InInt64]
  omega

theorem to_nat_add_iff : (a + b).toNat = a.toNat + b.toNat ↔ a.toNat + b.toNat < 2 ^ 64 := by
  simp

theorem to_nat_mul_iff : (a * b).toNat = a.toNat * b.toNat ↔ a.toNat * b.toNat < 2 ^ 64 := by
  simp

/-- An iteration is exact where its integers fit. -/
theorem iter_exact_iff :
    IterExact maxSolve i previous acc h ↔
      IterFits maxSolve.toNat i.toNat previous.toNat acc.1.toInt acc.2.toNat h := by
  constructor
  · intro hx
    obtain ⟨hindex, hsolve, hproduct, hweighted, hweights⟩ := hx
    rw [Int64.toInt_add, hproduct, hindex, hsolve] at hweighted
    rw [Int64.toInt_mul, hindex, hsolve] at hproduct
    rw [to_int_solve_time] at hsolve
    exact ⟨to_int_index_iff.mp hindex, bmod_eq_iff.mp hsolve, bmod_eq_iff.mp hproduct,
      bmod_eq_iff.mp hweighted, to_nat_add_iff.mp hweights⟩
  · intro hf
    have hindex := to_int_index_iff.mpr hf.index
    have hsolve : (solveTime maxSolve previous h.time).toInt =
        exactSolve maxSolve.toNat previous.toNat h.time.toNat := by
      rw [to_int_solve_time]
      exact bmod_eq_iff.mpr hf.solve
    have hproduct : (solveTime maxSolve previous h.time * i.toInt64).toInt =
        (solveTime maxSolve previous h.time).toInt * i.toInt64.toInt := by
      rw [Int64.toInt_mul, hsolve, hindex]
      exact bmod_eq_iff.mpr hf.product
    refine ⟨hindex, hsolve, hproduct, ?_, to_nat_add_iff.mpr hf.weights⟩
    rw [Int64.toInt_add, hproduct, hsolve, hindex]
    exact bmod_eq_iff.mpr hf.weighted

theorem IterExact.weighted_eq (hx : IterExact maxSolve i previous acc h) :
    (acc.1 + solveTime maxSolve previous h.time * i.toInt64).toInt =
      acc.1.toInt + exactSolve maxSolve.toNat previous.toNat h.time.toNat * i.toNat := by
  rw [hx.weighted, hx.product, hx.solve, hx.index]

theorem to_nat_succ (h : i.toNat < 2 ^ 63) : (i + 1).toNat = i.toNat + 1 := by
  refine to_nat_add_iff.mpr ?_
  show i.toNat + 1 < 2 ^ 64
  omega

theorem loop_exact_iff :
    LoopExact maxSolve i previous hs acc ↔
      LoopFits maxSolve.toNat i.toNat previous.toNat hs acc.1.toInt acc.2.toNat := by
  induction hs generalizing i previous acc with
  | nil => exact Iff.rfl
  | cons h rest ih =>
    rw [LoopExact, LoopFits, ← iter_exact_iff, ih]
    refine and_congr_right fun hx => ?_
    rw [hx.weighted_eq, hx.weights, to_nat_succ (to_int_index_iff.mp hx.index)]

theorem LoopExact.weigh_eq (hx : LoopExact maxSolve i previous hs acc) :
    (weighSolves maxSolve i previous hs acc).1.toInt =
        acc.1.toInt + exactWeighted maxSolve.toNat i.toNat previous.toNat hs ∧
      (weighSolves maxSolve i previous hs acc).2.toNat = acc.2.toNat + exactWeights i.toNat hs := by
  induction hs generalizing i previous acc with
  | nil => simp [weighSolves, exactWeighted, exactWeights]
  | cons h rest ih =>
    obtain ⟨hiter, hrest⟩ := hx
    have hnext := to_nat_succ (to_int_index_iff.mp hiter.index)
    obtain ⟨hweighted, hweights⟩ := ih hrest
    rw [hnext, hiter.weighted_eq] at hweighted
    rw [hnext, hiter.weights] at hweights
    rw [weighSolves, exactWeighted, exactWeights]
    omega

/-! ## The mean -/

/-- The sums of the quotients and of the remainders, in machine words. -/
def targetShares (window : List Header) : U256 × UInt64 :=
  window.foldl (fun (acc : U256 × UInt64) h =>
    (acc.1.satAdd (h.target.div64 (.ofNat window.length)).1,
      acc.2 + (h.target.div64 (.ofNat window.length)).2)) (0, 0)

theorem mean_target_eq (window : List Header) : meanTarget window = (targetShares window).1.satAdd
      (.fromUint64 ((targetShares window).2 / .ofNat window.length)) := rfl

/-- The sum of the quotients. -/
def quotientsOf (window : List Header) : ℕ :=
  (window.map fun h => h.target.toNat / window.length).sum

/-- The sum of the remainders. -/
def remaindersOf (window : List Header) : ℕ :=
  (window.map fun h => h.target.toNat % window.length).sum

theorem shares_loop (count : UInt64) (hcount : 0 < count.toNat) (hs : List Header)
    (acc : U256 × UInt64) {a : ℕ} (ha : acc.1.Saturates a) :
    (hs.foldl (fun (acc : U256 × UInt64) h =>
        (acc.1.satAdd (h.target.div64 count).1, acc.2 + (h.target.div64 count).2)) acc).1.Saturates
        (a + (hs.map fun h => h.target.toNat / count.toNat).sum) ∧
      (hs.foldl (fun (acc : U256 × UInt64) h =>
        (acc.1.satAdd (h.target.div64 count).1, acc.2 + (h.target.div64 count).2)) acc).2.toNat =
        (acc.2.toNat + (hs.map fun h => h.target.toNat % count.toNat).sum) % 2 ^ 64 := by
  induction hs generalizing acc a with
  | nil => exact ⟨ha, (mod_eq_of_lt acc.2.toNat_lt).symm⟩
  | cons h rest ih =>
    obtain ⟨hquotients, hremainders⟩ := ih (acc.1.satAdd (h.target.div64 count).1,
      acc.2 + (h.target.div64 count).2) (ha.sat_add (saturates_of_eq to_nat_div64))
    rw [foldl_cons, map_cons, map_cons, sum_cons, sum_cons]
    refine ⟨by rwa [← add_assoc], ?_⟩
    rw [hremainders, UInt64.toNat_add, to_nat_rem64 hcount, Nat.mod_add_mod, Nat.add_assoc]

theorem sum_targets_eq (c : ℕ) (hs : List Header) :
    (hs.map fun h => h.target.toNat).sum =
      c * (hs.map fun h => h.target.toNat / c).sum + (hs.map fun h => h.target.toNat % c).sum := by
  induction hs with
  | nil => rfl
  | cons h rest ih =>
    have hdiv := div_add_mod h.target.toNat c
    simp only [map_cons, sum_cons, mul_add] at ih ⊢
    omega

theorem mean_eq {window : List Header} (hne : 0 < window.length) :
    meanOf window = quotientsOf window + remaindersOf window / window.length := by
  rw [meanOf, sum_targets_eq window.length window, mul_add_div hne]
  rfl

theorem mean_lt (window : List Header) : meanOf window < 2 ^ 256 := by
  have hsum : (window.map fun h => h.target.toNat).sum ≤ window.length * (2 ^ 256 - 1) := by
    induction window with
    | nil => simp
    | cons h rest ih =>
      have hlt := h.target.isLt
      simp only [map_cons, sum_cons, length_cons, succ_mul]
      omega
  have hmean : meanOf window ≤ 2 ^ 256 - 1 := Nat.div_le_of_le_mul hsum
  omega

/-- The mean target is exact where the remainders do not wrap. -/
theorem to_nat_mean_target {window : List Header} (hne : 0 < window.length)
    (hcount : (UInt64.ofNat window.length).toNat = window.length) :
    (targetShares window).1.toNat = quotientsOf window ∧
      (targetShares window).2.toNat = remaindersOf window % 2 ^ 64 ∧
      (remaindersOf window < 2 ^ 64 → (meanTarget window).toNat = meanOf window) := by
  obtain ⟨hquotients, hremainders⟩ := shares_loop (.ofNat window.length)
    (by rwa [hcount]) window (0, 0) (a := 0) (saturates_of_eq rfl)
  rw [hcount, Nat.zero_add] at hquotients
  rw [hcount, UInt64.toNat_zero, Nat.zero_add] at hremainders
  have hlt := mean_lt window
  have hmean := mean_eq hne
  have hshares : (targetShares window).1.toNat = quotientsOf window := by
    have hle : quotientsOf window ≤ meanOf window := hmean ▸ Nat.le_add_right _ _
    refine hquotients.trans (min_eq_left ?_)
    change quotientsOf window ≤ _
    omega
  refine ⟨hshares, hremainders, fun hfits => ?_⟩
  have hrest : (targetShares window).2.toNat = remaindersOf window :=
    hremainders.trans (Nat.mod_eq_of_lt hfits)
  rw [mean_target_eq, to_nat_sat_add, to_nat_from_uint64, UInt64.toNat_div, hcount, hrest]
  omega

/-! ## The clamps -/

/-- The clamp is the exact clamp of the saturated target. -/
theorem to_nat_clamp_target {p : Params} {last next : U256} {x : ℕ} (hnext : next.Saturates x) :
    (clampTarget p last next).toNat = exactClamp p last.toNat x := by
  have hupper := saturates_mul_div64 last p.difficultyClampFactor 1
  have hlower : (last.div64 p.difficultyClampFactor).1.toNat =
      last.toNat / p.difficultyClampFactor.toNat := to_nat_div64
  have hmaxTarget := p.maxTarget.isLt
  rw [UInt64.toNat_one] at hupper
  unfold U256.Saturates at hnext hupper
  -- each comparison is a minimum or a maximum of numbers
  have hmin : ∀ u v : U256, (if u > v then v else u).toNat = min u.toNat v.toNat := by
    intro u v
    split <;> rename_i h <;> rw [gt_iff_lt, lt_def] at h <;> omega
  have hmax : ∀ u v : U256, (if u < v then v else u).toNat = max u.toNat v.toNat := by
    intro u v
    split <;> rename_i h <;> rw [lt_def] at h <;> omega
  have hone : ∀ u : U256, (if u.isZero then (1 : U256) else u).toNat = max 1 u.toNat := by
    intro u
    split_ifs with hzero
    · rw [is_zero_iff.mp hzero]
      rfl
    · have hpos := to_nat_pos (mt is_zero_iff.mpr hzero)
      omega
  simp only [clampTarget, exactClamp, hone, hmin, hmax, hlower, hnext, hupper]
  omega

/-! ## A window -/

theorem two_mul_weights (i : ℕ) (hs : List Header) :
    2 * exactWeights i hs + hs.length = hs.length * (2 * i + hs.length) := by
  induction hs generalizing i with
  | nil => simp [exactWeights]
  | cons h rest ih =>
    have hrest := ih (i + 1)
    have hexpand : (rest.length + 1) * (2 * i + (rest.length + 1)) =
        rest.length * (2 * (i + 1) + rest.length) + 2 * i + 1 := by ring
    rw [exactWeights, length_cons]
    omega

theorem weights_pos {window : List Header} (hlen : 2 ≤ window.length) : 0 < weightsOf window := by
  match window, hlen with
  | _ :: _ :: _, _ =>
    rw [weightsOf, tail_cons, exactWeights]
    omega

/-- The computation of the source on a window, with nothing wrapped. -/
structure WindowExact (p : Params) (window : List Header) : Prop where
  maxSolve : (p.targetBlockSeconds * p.difficultyClampFactor).toNat =
    p.targetBlockSeconds.toNat * p.difficultyClampFactor.toNat
  loop : ∀ h rest, window = h :: rest →
    LoopExact (p.targetBlockSeconds * p.difficultyClampFactor) 1 h.time rest (0, 0)
  denominator :
    ((weighWindow (p.targetBlockSeconds * p.difficultyClampFactor) window).2 *
        p.targetBlockSeconds).toNat =
      (weighWindow (p.targetBlockSeconds * p.difficultyClampFactor) window).2.toNat *
        p.targetBlockSeconds.toNat
  count : (UInt64.ofNat window.length).toNat = window.length
  shares : (targetShares window).1.toNat = quotientsOf window
  remainders : (targetShares window).2.toNat = remaindersOf window

/-- The numbers of the computation fit in their words. -/
structure WindowFits (p : Params) (window : List Header) : Prop where
  maxSolve : p.targetBlockSeconds.toNat * p.difficultyClampFactor.toNat < 2 ^ 64
  loop : ∀ h rest, window = h :: rest →
    LoopFits (p.targetBlockSeconds.toNat * p.difficultyClampFactor.toNat) 1 h.time.toNat rest 0 0
  denominator : weightsOf window * p.targetBlockSeconds.toNat < 2 ^ 64
  remainders : remaindersOf window < 2 ^ 64

section

variable {p : Params} {window : List Header}

theorem WindowExact.weigh_eq (hx : WindowExact p window) (hlen : 2 ≤ window.length) :
    (weighWindow (p.targetBlockSeconds * p.difficultyClampFactor) window).1.toInt =
        weightedOf p window ∧
      (weighWindow (p.targetBlockSeconds * p.difficultyClampFactor) window).2.toNat =
        weightsOf window := by
  cases window with
  | nil => simp at hlen
  | cons h rest =>
    obtain ⟨hweighted, hweights⟩ := (hx.loop h rest rfl).weigh_eq
    rw [hx.maxSolve] at hweighted
    exact ⟨hweighted.trans (zero_add _), hweights.trans (zero_add _)⟩

theorem length_lt_of_weights (hgoal : 0 < p.targetBlockSeconds.toNat)
    (h : weightsOf window * p.targetBlockSeconds.toNat < 2 ^ 64) : window.length < 2 ^ 64 := by
  have htwo := two_mul_weights 1 window.tail
  have hle : weightsOf window ≤ weightsOf window * p.targetBlockSeconds.toNat :=
    Nat.le_mul_of_pos_right _ hgoal
  have htail : window.length ≤ window.tail.length + 1 := by
    rw [length_tail]
    omega
  rw [mul_add] at htwo
  by_contra hlong
  have hsquare : 2 ^ 63 * window.tail.length ≤ window.tail.length * window.tail.length :=
    mul_le_mul_right _ (by omega)
  unfold weightsOf at *
  omega

/-- A window is evaluated exactly where every integer fits. -/
theorem window_exact_iff (hgoal : 0 < p.targetBlockSeconds.toNat) (hlen : 2 ≤ window.length) :
    WindowExact p window ↔ WindowFits p window := by
  constructor
  · intro hx
    have hweights := (hx.weigh_eq hlen).2
    have hdenominator := hx.denominator
    refine ⟨to_nat_mul_iff.mp hx.maxSolve, fun h rest hsplit => ?_, ?_, ?_⟩
    · have hloop := loop_exact_iff.mp (hx.loop h rest hsplit)
      rw [hx.maxSolve] at hloop
      exact hloop
    · rw [← hweights]
      exact to_nat_mul_iff.mp hdenominator
    · exact hx.remainders ▸ (targetShares window).2.toNat_lt
  · intro hf
    have hmaxSolve := to_nat_mul_iff.mpr hf.maxSolve
    have hcount : (UInt64.ofNat window.length).toNat = window.length :=
      UInt64.toNat_ofNat_of_lt' (length_lt_of_weights hgoal hf.denominator)
    obtain ⟨hshares, hremainders, -⟩ := to_nat_mean_target (by omega) hcount
    have hloop : ∀ h rest, window = h :: rest →
        LoopExact (p.targetBlockSeconds * p.difficultyClampFactor) 1 h.time rest (0, 0) := by
      intro h rest hsplit
      refine loop_exact_iff.mpr ?_
      rw [hmaxSolve]
      exact hf.loop h rest hsplit
    have hweights : (weighWindow (p.targetBlockSeconds * p.difficultyClampFactor) window).2.toNat =
        weightsOf window := by
      cases window with
      | nil => simp at hlen
      | cons h rest => exact ((hloop h rest rfl).weigh_eq).2.trans (zero_add _)
    refine ⟨hmaxSolve, hloop, to_nat_mul_iff.mpr (hweights ▸ hf.denominator), hcount, hshares, ?_⟩
    exact hremainders.trans (Nat.mod_eq_of_lt hf.remainders)

/-- Evaluated exactly, a window gives the exact target. -/
theorem WindowExact.window_target (hx : WindowExact p window)
    (hgoal : 0 < p.targetBlockSeconds.toNat) (hfactor : 0 < p.difficultyClampFactor.toNat)
    (hlen : 2 ≤ window.length) :
    ∃ t, windowTarget p window = some t ∧ t.toNat = exactTarget p window := by
  obtain ⟨hweighted, hweights⟩ := hx.weigh_eq hlen
  have hdenominator := hx.denominator
  have hremainders : remaindersOf window < 2 ^ 64 :=
    hx.remainders ▸ (targetShares window).2.toNat_lt
  have hmean := (to_nat_mean_target (by omega) hx.count).2.2 hremainders
  obtain ⟨last, hlast⟩ : ∃ last, window.getLast? = some last :=
    ⟨_, List.getLast?_eq_some_getLast (ne_nil_of_length_pos (by omega))⟩
  have hpos := weights_pos hlen
  have hfactorNe : p.difficultyClampFactor ≠ 0 := fun h0 => by
    rw [h0] at hfactor
    exact absurd hfactor (by decide)
  unfold windowTarget
  dsimp only
  generalize weighWindow (p.targetBlockSeconds * p.difficultyClampFactor) window = acc at *
  obtain ⟨weighted, weights⟩ := acc
  dsimp only at hweighted hweights hdenominator
  have hweightsNe : weights ≠ 0 := fun h0 => by
    rw [h0] at hweights
    exact absurd hweights (by rw [UInt64.toNat_zero]; omega)
  have hdenominatorNe : weights * p.targetBlockSeconds ≠ 0 := fun h0 => by
    rw [h0, hweights] at hdenominator
    exact absurd hdenominator (Nat.mul_pos hpos hgoal).ne
  have hnumerator : (if weighted ≤ 0 then 1 else weighted.toUInt64).toNat =
      (max 1 (weightedOf p window)).toNat := by
    split_ifs with hle
    · have hle : weighted.toInt ≤ 0 := Int64.le_iff_toInt_le.mp hle
      rw [UInt64.toNat_one]
      omega
    · have hle : ¬ weighted.toInt ≤ (0 : Int64).toInt := mt Int64.le_iff_toInt_le.mpr hle
      have hzero : (0 : Int64).toInt = 0 := rfl
      rw [to_nat_to_uint64 (by omega)]
      omega
  refine ⟨_, by simp [hlast, hweightsNe, hdenominatorNe, hfactorNe, guard]; rfl, ?_⟩
  have hnext := saturates_mul_div64 (meanTarget window)
    (if weighted ≤ 0 then 1 else weighted.toUInt64) (weights * p.targetBlockSeconds)
  rw [hmean, hnumerator, hdenominator, hweights] at hnext
  rw [to_nat_clamp_target hnext, exactTarget, lastOf, hlast]
  rfl

end

/-! ## The rule -/

/-- The headers that the rule looks at. -/
def windowOf (recent : List Header) (p : Params) : Option (List Header) :=
  let n := p.difficultyWindow.toInt64
  let width : ℤ := if (recent.length : ℤ) < (n + 1).toInt then recent.length else (n + 1).toInt
  sliceFrom recent (recent.length - width)

/-- The computation of the source ends with a target in range, without a wrapped word on the way. -/
structure Safe (p : Params) (recent : List Header) : Prop where
  result : ∃ t, nextTarget recent p = some t ∧ 1 ≤ t ∧ t ≤ p.maxTarget
  exact : 2 ≤ recent.length → ∀ window, windowOf recent p = some window → WindowExact p window

/-- The headers that the rule reads. -/
def recentWindow (p : Params) (recent : List Header) : List Header :=
  recent.drop (recent.length - (p.difficultyWindow.toNat + 1))

/-- The window width is a signed word, and the numbers of the computation on it fit. -/
structure Fits (p : Params) (recent : List Header) : Prop where
  width : p.difficultyWindow.toNat + 1 < 2 ^ 63
  fits : WindowFits p (recentWindow p recent)

section

variable {p : Params} {recent : List Header}

theorem next_target_eq (hlen : 2 ≤ recent.length) :
    nextTarget recent p = (windowOf recent p).bind (windowTarget p) := by
  rw [nextTarget, if_neg (by omega)]
  rfl

theorem window_of_eq (hwidth : p.difficultyWindow.toNat + 1 < 2 ^ 63) :
    windowOf recent p = some (recentWindow p recent) := by
  have hn : p.difficultyWindow.toInt64.toInt = p.difficultyWindow.toNat :=
    to_int_index_iff.mpr (by omega)
  have hone : (1 : Int64).toInt = 1 := rfl
  have hnext : (p.difficultyWindow.toInt64 + 1).toInt = p.difficultyWindow.toNat + 1 := by
    rw [Int64.toInt_add, hn]
    exact bmod_eq_iff.mpr ⟨by omega, by omega⟩
  have hdrop : ((recent.length : ℤ) - if (recent.length : ℤ) < p.difficultyWindow.toNat + 1 then
      (recent.length : ℤ) else p.difficultyWindow.toNat + 1).toNat =
        recent.length - (p.difficultyWindow.toNat + 1) := by
    split <;> omega
  simp only [windowOf, sliceFrom, hnext, recentWindow]
  rw [if_pos (by split <;> omega), hdrop]

/-- A window width past 2^63 makes the retargeting panic. -/
theorem next_target_eq_none (hlen : 2 ≤ recent.length)
    (hwidth : 2 ^ 63 ≤ p.difficultyWindow.toNat + 1) : nextTarget recent p = none := by
  have hlt := p.difficultyWindow.toNat_lt
  have hn := to_int_to_int64 p.difficultyWindow
  have hone : (1 : Int64).toInt = 1 := rfl
  have hnext : (p.difficultyWindow.toInt64 + 1).toInt =
      (p.difficultyWindow.toNat + 1 : ℤ) - 2 ^ 64 := by
    rw [Int64.toInt_add, hn, Int.bmod_add_bmod, ← Int.sub_bmod_right]
    exact bmod_eq_iff.mpr ⟨by omega, by omega⟩
  rw [next_target_eq hlen]
  simp only [windowOf, sliceFrom, hnext]
  rw [if_neg (c := (recent.length : ℤ) < _) (by omega)]
  split
  · -- a width of zero: the last header of an empty window does not exist
    have hdrop : recent.drop ((recent.length : ℤ) -
        ((p.difficultyWindow.toNat + 1 : ℤ) - 2 ^ 64)).toNat = [] := drop_eq_nil_of_le (by omega)
    rw [hdrop]
    rfl
  · rfl

theorem two_le_window (hn : 0 < p.difficultyWindow.toNat) (hlen : 2 ≤ recent.length) :
    2 ≤ (recentWindow p recent).length := by
  rw [recentWindow, length_drop]
  omega

theorem exact_target_range (hmax : 0 < p.maxTarget.toNat) (hs : List Header) :
    1 ≤ exactTarget p hs ∧ exactTarget p hs ≤ p.maxTarget.toNat := by
  unfold exactTarget exactClamp
  omega

/-- The parameters the rule divides by, and the bounds of its result. -/
structure Usable (p : Params) : Prop where
  goal : 0 < p.targetBlockSeconds.toNat
  factor : 0 < p.difficultyClampFactor.toNat
  window : 0 < p.difficultyWindow.toNat
  maxTarget : 0 < p.maxTarget.toNat
  genesis_pos : 0 < p.genesisTarget.toNat
  genesis_le : p.genesisTarget ≤ p.maxTarget

theorem Fits.next_target (hf : Fits p recent) (hp : Usable p) (hlen : 2 ≤ recent.length) :
    WindowExact p (recentWindow p recent) ∧
      ∃ t, nextTarget recent p = some t ∧ t.toNat = exactTarget p (recentWindow p recent) := by
  have htwo := two_le_window hp.window hlen
  have hx := (window_exact_iff hp.goal htwo).mpr hf.fits
  obtain ⟨t, ht, heq⟩ := hx.window_target hp.goal hp.factor htwo
  refine ⟨hx, t, ?_, heq⟩
  rw [next_target_eq hlen, window_of_eq hf.width]
  exact ht

/-- The computation is safe if and only if there is nothing to compute or its numbers fit. -/
theorem safe_iff_fits (hp : Usable p) : Safe p recent ↔ recent.length < 2 ∨ Fits p recent := by
  by_cases hlen : recent.length < 2
  · refine ⟨fun _ => Or.inl hlen, fun _ => ⟨⟨p.genesisTarget, ?_, hp.genesis_pos, hp.genesis_le⟩,
      fun h => absurd h (by omega)⟩⟩
    rw [nextTarget, if_pos hlen]
    rfl
  · have hlen : 2 ≤ recent.length := by omega
    constructor
    · intro hs
      obtain ⟨t, ht, -⟩ := hs.result
      have hwidth : p.difficultyWindow.toNat + 1 < 2 ^ 63 := by
        by_contra hwide
        rw [next_target_eq_none hlen (by omega)] at ht
        cases ht
      refine Or.inr ⟨hwidth, ?_⟩
      exact (window_exact_iff hp.goal (two_le_window hp.window hlen)).mp
        (hs.exact hlen _ (window_of_eq hwidth))
    · intro h
      have hf := h.resolve_left (by omega)
      obtain ⟨hx, t, ht, heq⟩ := hf.next_target hp hlen
      have hrange := exact_target_range hp.maxTarget (recentWindow p recent)
      refine ⟨⟨t, ht, ?_, ?_⟩, fun _ w hw => ?_⟩
      · rw [U256.le_def, heq]
        exact hrange.1
      · rw [U256.le_def, heq]
        exact hrange.2
      · rw [window_of_eq hf.width, Option.some.injEq] at hw
        exact hw ▸ hx

end

/-! ## Parameters under which everything fits -/

/-- The largest weighted sum of solve times that the parameters allow is a signed word. -/
structure DifficultyFits (p : Params) : Prop where
  width : p.difficultyWindow.toNat + 1 < 2 ^ 63
  weighted : p.difficultyWindow.toNat * (p.difficultyWindow.toNat + 1) *
    (p.targetBlockSeconds.toNat * p.difficultyClampFactor.toNat) < 2 ^ 64

theorem exact_solve_bounds (maxSolve previous time : ℕ) :
    -(maxSolve : ℤ) ≤ exactSolve maxSolve previous time ∧
      exactSolve maxSolve previous time ≤ maxSolve := by
  unfold exactSolve
  omega

/-- A bound on the weights times the longest solve time is enough to fit. -/
theorem loop_fits_of_bound {maxSolve : ℕ} (hmax : 0 < maxSolve) {i previous : ℕ} (hi : 0 < i)
    {hs : List Header} {weighted : ℤ} {weights : ℕ}
    (hlo : -((weights * maxSolve : ℕ) : ℤ) ≤ weighted)
    (hhi : weighted ≤ ((weights * maxSolve : ℕ) : ℤ))
    (hfit : (weights + exactWeights i hs) * maxSolve < 2 ^ 63) :
    LoopFits maxSolve i previous hs weighted weights := by
  induction hs generalizing i previous weighted weights with
  | nil => exact trivial
  | cons h rest ih =>
    obtain ⟨hsolveLo, hsolveHi⟩ := exact_solve_bounds maxSolve previous h.time.toNat
    generalize hsolve : exactSolve maxSolve previous h.time.toNat = solve at *
    have hproductLo : -((i * maxSolve : ℕ) : ℤ) ≤ solve * i := by
      push_cast
      rw [mul_comm (i : ℤ), ← neg_mul]
      exact Int.mul_le_mul_of_nonneg_right hsolveLo (by omega)
    have hproductHi : solve * i ≤ ((i * maxSolve : ℕ) : ℤ) := by
      push_cast
      rw [mul_comm (i : ℤ)]
      exact Int.mul_le_mul_of_nonneg_right hsolveHi (by omega)
    have hsplit : (weights + i) * maxSolve = weights * maxSolve + i * maxSolve := add_mul _ _ _
    have hrest : (weights + i) * maxSolve ≤ (weights + exactWeights i (h :: rest)) * maxSolve := by
      refine mul_le_mul_right _ ?_
      rw [exactWeights]
      omega
    have hcount : weights + i ≤ (weights + i) * maxSolve := Nat.le_mul_of_pos_right _ hmax
    refine ⟨⟨by omega, ?_, ?_, ?_, by omega⟩, ?_⟩
    · have hone : maxSolve ≤ i * maxSolve := Nat.le_mul_of_pos_left _ hi
      exact ⟨by omega, by omega⟩
    · rw [hsolve]
      exact ⟨by omega, by omega⟩
    · rw [hsolve]
      exact ⟨by omega, by omega⟩
    · rw [hsolve]
      refine ih i.succ_pos (by omega) (by omega) ?_
      rw [exactWeights, ← add_assoc] at hfit
      exact hfit

section

variable {p : Params} {recent : List Header}

theorem remainders_le (window : List Header) :
    remaindersOf window ≤ window.length * (window.length - 1) := by
  have hle : ∀ x ∈ window.map fun h => h.target.toNat % window.length, x ≤ window.length - 1 := by
    intro x hx
    obtain ⟨h, hh, rfl⟩ := mem_map.mp hx
    have hlt := mod_lt h.target.toNat (length_pos_of_mem hh)
    omega
  have hsum := sum_le_card_nsmul _ _ hle
  rwa [length_map] at hsum

/-- Parameters that fit make every computation safe. -/
theorem DifficultyFits.fits (h : DifficultyFits p) (hp : Usable p) (recent : List Header) :
    Fits p recent := by
  have hwidth : (recentWindow p recent).tail.length ≤ p.difficultyWindow.toNat := by
    rw [length_tail, recentWindow, length_drop]
    omega
  have hlength : (recentWindow p recent).length ≤ (recentWindow p recent).tail.length + 1 := by
    rw [length_tail]
    omega
  have htwo := two_mul_weights 1 (recentWindow p recent).tail
  generalize hk : (recentWindow p recent).tail.length = k at *
  have hsolve : 0 < p.targetBlockSeconds.toNat * p.difficultyClampFactor.toNat :=
    mul_pos hp.goal hp.factor
  have hweights : 2 * weightsOf (recentWindow p recent) = k * (k + 1) := by
    rw [weightsOf]
    rw [mul_add] at htwo ⊢
    omega
  have hgrid : k * (k + 1) ≤ p.difficultyWindow.toNat * (p.difficultyWindow.toNat + 1) :=
    Nat.mul_le_mul hwidth (by omega)
  have hbound : k * (k + 1) * (p.targetBlockSeconds.toNat * p.difficultyClampFactor.toNat) <
      2 ^ 64 := (mul_le_mul_right _ hgrid).trans_lt h.weighted
  have htotal : weightsOf (recentWindow p recent) *
      (p.targetBlockSeconds.toNat * p.difficultyClampFactor.toNat) < 2 ^ 63 := by
    rw [← hweights, mul_assoc] at hbound
    omega
  refine ⟨h.width, ⟨?_, fun h₀ rest hsplit => ?_, ?_, ?_⟩⟩
  · have hn := hp.window
    have hpos : 0 < p.difficultyWindow.toNat * (p.difficultyWindow.toNat + 1) :=
      mul_pos hn (by omega)
    exact (Nat.le_mul_of_pos_left _ hpos).trans_lt h.weighted
  · refine loop_fits_of_bound hsolve one_pos (by simp) (by simp) ?_
    rw [zero_add]
    rw [hsplit] at htotal
    exact htotal
  · have hle := Nat.mul_le_mul_left (weightsOf (recentWindow p recent))
      (Nat.le_mul_of_pos_right p.targetBlockSeconds.toNat hp.factor)
    omega
  · have hrem := remainders_le (recentWindow p recent)
    have hsize : (recentWindow p recent).length * ((recentWindow p recent).length - 1) ≤
        (k + 1) * k := Nat.mul_le_mul hlength (by omega)
    have hall := Nat.le_mul_of_pos_right (k * (k + 1)) hsolve
    rw [mul_comm (k + 1)] at hsize
    omega

theorem usable_of_validate (h : p.validate = .ok ()) : Usable p := by
  simp only [validate, validateRelations, Except.seq_eq_ok, reject_if_eq_ok] at h
  obtain ⟨-, -, hall, -, -, -, -, -, -, -, -, -, -, -, -, -, -, -, -, -, -, hgenesis, -⟩ := h
  exact {
    goal := u64_pos_of_check (n := "target_block_seconds") hall (by simp [consensusFields])
    factor := u64_pos_of_check (n := "difficulty_clamp_factor") hall (by simp [consensusFields])
    window := u64_pos_of_check (n := "difficulty_window") hall (by simp [consensusFields])
    maxTarget := u256_pos_of_check (n := "max_target") hall (by simp [consensusFields])
    genesis_pos := u256_pos_of_check (n := "genesis_target") hall (by simp [consensusFields])
    genesis_le := not_lt.mp hgenesis }

/-- Under accepted parameters the rule divides by nothing that is zero, stays within its slices,
wraps no word and returns a target in range, exactly when there are fewer than two headers or the
numbers of the computation fit. A condition on the parameters alone is enough for that. -/
theorem next_target_safe (hp : p.validate = .ok ()) :
    (Safe p recent ↔ recent.length < 2 ∨ Fits p recent) ∧ (DifficultyFits p → Safe p recent) := by
  have husable := usable_of_validate hp
  refine ⟨safe_iff_fits husable, fun h => ?_⟩
  exact (safe_iff_fits husable).mpr (Or.inr (h.fits husable recent))

end

namespace Sample

/-- A header of a time and a target. -/
def header (time : UInt64) (target : U256) : Header where
  version := 0
  height := 0
  parentID := 0
  time := time
  certRoot := 0
  citesRoot := 0
  stateRoot := 0
  emissionAddr := 0
  pow := ⟨0, 0, 0⟩
  target := target
  powHash := 0

/-- The main network with a schedule of one epoch. -/
def flat : Params := { Shipped.mainnet with tailEmission := Shipped.mainnet.genesisEmission }

/-- Half a word of seconds between blocks. -/
def slow : Params := { flat with targetBlockSeconds := 0x8000000000000000 }

theorem flat_validate : flat.validate = .ok () := by decide +kernel

theorem flat_fits : DifficultyFits flat := ⟨by decide, by decide⟩

end Sample

open Sample

/-- Two headers of the main network. -/
theorem sample_next_target_safe : flat.validate = .ok () ∧ Safe flat [header 0 1, header 30 1] :=
  ⟨flat_validate, (next_target_safe flat_validate).2 flat_fits⟩

/-- Accepted parameters under which four headers make the rule divide by zero: their weights add up
to 6, and 6 * 2^63 is a multiple of 2^64. -/
theorem slow_blocks_divide_by_zero : slow.validate = .ok () ∧
    nextTarget [header 0 1, header 0 1, header 0 1, header 0 1] slow = none ∧
    ¬ Safe slow [header 0 1, header 0 1, header 0 1, header 0 1] := by
  have hnone : nextTarget [header 0 1, header 0 1, header 0 1, header 0 1] slow = none := by
    decide +kernel
  refine ⟨by decide +kernel, hnone, fun hs => ?_⟩
  obtain ⟨t, ht, -⟩ := hs.result
  cases ht

/-! ## The shipped parameters -/

/-- Every block came exactly on time. -/
def OnGoal (p : Params) (window : List Header) : Prop :=
  window.IsChain fun a b => b.time.toNat = a.time.toNat + p.targetBlockSeconds.toNat

section

variable {p : Params} {recent : List Header}

theorem exact_weighted_of_chain {maxSolve goal i : ℕ} (hle : goal ≤ maxSolve) {h : Header}
    {hs : List Header}
    (hchain : (h :: hs).IsChain fun a b => b.time.toNat = a.time.toNat + goal) :
    exactWeighted maxSolve i h.time.toNat hs = (exactWeights i hs * goal : ℕ) := by
  induction hs generalizing i h with
  | nil => simp [exactWeighted, exactWeights]
  | cons next rest ih =>
    obtain ⟨htime, hrest⟩ := isChain_cons_cons.mp hchain
    have hsolve : exactSolve maxSolve h.time.toNat next.time.toNat = goal := by
      unfold exactSolve
      omega
    rw [exactWeighted, exactWeights, ih hrest, hsolve]
    push_cast
    ring

/-- Blocks on schedule at one target keep that target. -/
theorem exact_target_uniform (hp : Usable p) {window : List Header} {t : U256}
    (hlen : 2 ≤ window.length) (ht : 1 ≤ t) (hmax : t ≤ p.maxTarget)
    (htargets : ∀ h ∈ window, h.target = t) (hgoal : OnGoal p window) :
    exactTarget p window = t.toNat := by
  have hgoalPos := hp.goal
  have hfactor := hp.factor
  have hweights := weights_pos hlen
  have hmean : meanOf window = t.toNat := by
    have hsum : (window.map fun h => h.target.toNat).sum = window.length * t.toNat := by
      rw [map_congr_left fun h hh => congrArg U256.toNat (htargets h hh), map_const',
        sum_replicate, Nat.nsmul_eq_mul]
    rw [meanOf, hsum, Nat.mul_div_cancel_left _ (by omega)]
  have hlast : lastOf window = t.toNat := by
    have hne : window ≠ [] := ne_nil_of_length_pos (by omega)
    rw [lastOf, List.getLast?_eq_some_getLast hne]
    exact congrArg U256.toNat (htargets _ (getLast_mem hne))
  have hweighted : weightedOf p window = (weightsOf window * p.targetBlockSeconds.toNat : ℕ) := by
    cases window with
    | nil => simp at hlen
    | cons h rest => exact exact_weighted_of_chain (Nat.le_mul_of_pos_right _ hfactor) hgoal
  have hdenominator := Nat.mul_pos hweights hgoalPos
  have hone : (max 1 ((weightsOf window * p.targetBlockSeconds.toNat : ℕ) : ℤ)).toNat =
      weightsOf window * p.targetBlockSeconds.toNat := by omega
  rw [exactTarget, hmean, hlast, hweighted, hone, Nat.mul_div_cancel _ hdenominator, exactClamp]
  have hlow : t.toNat / p.difficultyClampFactor.toNat ≤ t.toNat := Nat.div_le_self _ _
  have hhigh : t.toNat ≤ t.toNat * p.difficultyClampFactor.toNat :=
    Nat.le_mul_of_pos_right _ hfactor
  rw [U256.le_def] at ht hmax
  rw [min_eq_right hhigh, max_eq_right hlow, min_eq_right hmax]
  exact max_eq_right ht

theorem shipped_fits (hp : p ∈ Shipped.sets) :
    Usable p ∧ DifficultyFits p ∧ p.difficultyWindow = 90 := by
  simp only [Shipped.sets, mem_cons, not_mem_nil, or_false] at hp
  obtain rfl | rfl | rfl | rfl := hp
  all_goals
    exact ⟨⟨by decide, by decide, by decide, by decide, by decide, by decide⟩,
      ⟨by decide, by decide⟩, rfl⟩

/-- Under the shipped parameters, from two headers on: no accumulator wraps, the sums and the mean
are the exact ones and the result is the exact target; a uniform window with on-goal solve times is
a fixed point. -/
theorem next_target_exact (hp : p ∈ Shipped.sets) (hlen : 2 ≤ recent.length) :
    let window := recentWindow p recent
    let maxSolve := p.targetBlockSeconds * p.difficultyClampFactor
    window = recent.drop (recent.length - 91) ∧ windowOf recent p = some window ∧
    WindowExact p window ∧
    (weighWindow maxSolve window).1.toInt = weightedOf p window ∧
    (weighWindow maxSolve window).2.toNat = weightsOf window ∧
    (meanTarget window).toNat = meanOf window ∧
    (∃ t, nextTarget recent p = some t ∧ t.toNat = exactTarget p window) ∧
    ∀ t, 1 ≤ t → t ≤ p.maxTarget → (∀ h ∈ window, h.target = t) → OnGoal p window →
      nextTarget recent p = some t := by
  intro window maxSolve
  obtain ⟨husable, hfits, hwindow⟩ := shipped_fits hp
  have htwo : 2 ≤ window.length := two_le_window husable.window hlen
  obtain ⟨hx, t, ht, heq⟩ := (hfits.fits husable recent).next_target husable hlen
  obtain ⟨hweighted, hweights⟩ := hx.weigh_eq htwo
  have hremainders : remaindersOf window < 2 ^ 64 :=
    hx.remainders ▸ (targetShares window).2.toNat_lt
  refine ⟨?_, window_of_eq hfits.width, hx, hweighted, hweights,
    (to_nat_mean_target (Nat.zero_lt_of_lt htwo) hx.count).2.2 hremainders, ⟨t, ht, heq⟩, ?_⟩
  · show recent.drop (recent.length - (p.difficultyWindow.toNat + 1)) = _
    rw [hwindow]
    rfl
  · intro t' hone hmax htargets hgoal
    have hsame : t = t' := U256.ext
      (heq.trans (exact_target_uniform husable htwo hone hmax htargets hgoal))
    rw [ht, hsame]

end

/-- Two headers of the main network, 30 seconds apart, keep their target. -/
theorem sample_next_target_exact :
    nextTarget [header 0 1, header 30 1] Shipped.mainnet = some 1 := by
  have hset : Shipped.mainnet ∈ Shipped.sets := mem_cons_self
  have hlen : 2 ≤ [header 0 1, header 30 1].length := le_refl 2
  obtain ⟨-, -, -, -, -, -, -, hfixed⟩ := next_target_exact hset hlen
  exact hfixed 1 le_rfl (by decide) (by decide +kernel) (by simp [OnGoal]; decide +kernel)

end Zycord.Pow
