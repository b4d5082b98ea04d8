import Mathlib.Data.UInt

/-!
# Unsigned 256-bit integers

The cell values of the ledger (package `core/u256`). The source keeps four 64-bit limbs; here a
value is the number they spell. No operation wraps silently: `add`, `sub` and `mul` return the
wrapped result together with an overflow flag, the saturating ones clamp.
-/

namespace Zycord

/-- An unsigned 256-bit integer. -/
structure U256 where
  toNat : ℕ
  isLt : toNat < 2 ^ 256

namespace U256

/-- Reduce a number modulo `2 ^ 256`. -/
def ofNat (n : ℕ) : U256 := ⟨n % 2 ^ 256, Nat.mod_lt _ (by decide)⟩

/-- Lift a 64-bit value. -/
def fromUint64 (v : UInt64) : U256 := ⟨v.toNat, v.toNat_lt.trans (by decide)⟩

/-- The largest value, `2 ^ 256 - 1`. -/
def max : U256 := ⟨2 ^ 256 - 1, by decide⟩

/-- Zero. -/
instance : Zero U256 := ⟨⟨0, by decide⟩⟩

/-- One. -/
instance : One U256 := ⟨⟨1, by decide⟩⟩

/-- Zero is the default. -/
instance : Inhabited U256 := ⟨0⟩

@[ext] theorem ext {u v : U256} (h : u.toNat = v.toNat) : u = v := by
  cases u; cases v; simpa using h

theorem to_nat_injective : Function.Injective toNat := fun _ _ => ext

/-- Compared as numbers. -/
instance : LinearOrder U256 := LinearOrder.lift' toNat to_nat_injective

theorem le_def {u v : U256} : u ≤ v ↔ u.toNat ≤ v.toNat := Iff.rfl

theorem lt_def {u v : U256} : u < v ↔ u.toNat < v.toNat := Iff.rfl

theorem eq_def {u v : U256} : u = v ↔ u.toNat = v.toNat := ⟨fun h => h ▸ rfl, ext⟩

/-- Whether the value is zero. -/
def isZero (u : U256) : Bool := u = 0

/-- The low 64 bits, and whether the value fits in them. -/
def uint64 (u : U256) : UInt64 × Bool := (UInt64.ofNat u.toNat, u.toNat < 2 ^ 64)

/-- The wrapped sum, and whether it overflowed. -/
def add (u v : U256) : U256 × Bool := (ofNat (u.toNat + v.toNat), 2 ^ 256 ≤ u.toNat + v.toNat)

/-- The wrapped difference, and whether it underflowed. -/
def sub (u v : U256) : U256 × Bool :=
  (ofNat (2 ^ 256 + u.toNat - v.toNat), u.toNat < v.toNat)

/-- The wrapped product, and whether it overflowed. -/
def mul (u v : U256) : U256 × Bool := (ofNat (u.toNat * v.toNat), 2 ^ 256 ≤ u.toNat * v.toNat)

/-- Quotient and remainder by a 64-bit divisor. The source panics when the divisor is zero. -/
def div64 (u : U256) (d : UInt64) : U256 × UInt64 :=
  (⟨u.toNat / d.toNat, (Nat.div_le_self _ _).trans_lt u.isLt⟩, UInt64.ofNat (u.toNat % d.toNat))

/-- The quotient `u * m / d` of the exact 320-bit product, saturating at `max`. The source
panics when the divisor is zero. -/
def mulDiv64 (u : U256) (m d : UInt64) : U256 :=
  let q := u.toNat * m.toNat / d.toNat
  if h : q < 2 ^ 256 then ⟨q, h⟩ else max

/-- The sum, saturating at `max`. -/
def satAdd (u v : U256) : U256 := if (u.add v).2 then max else (u.add v).1

/-- The difference, saturating at zero. -/
def satSub (u v : U256) : U256 := if (u.sub v).2 then 0 else (u.sub v).1

/-- The smaller of two values. -/
def minOf (a b : U256) : U256 := if a < b then a else b

/-- The larger of two values. -/
def maxOf (a b : U256) : U256 := if a > b then a else b

/-- The result of an operation whose flag is down. -/
def checked (r : U256 × Bool) : Option U256 := if r.2 then none else some r.1

/-! ## Values of the operations -/

variable {u v : U256} {a b : UInt64}

@[simp] theorem to_nat_zero : (0 : U256).toNat = 0 := rfl

@[simp] theorem to_nat_one : (1 : U256).toNat = 1 := rfl

@[simp] theorem to_nat_from_uint64 : (fromUint64 a).toNat = a.toNat := rfl

@[simp] theorem is_zero_iff : u.isZero = true ↔ u = 0 := by simp [isZero]

theorem to_nat_pos (h : u ≠ 0) : 0 < u.toNat := Nat.pos_of_ne_zero fun h0 => h (ext h0)

theorem add_overflow_iff : (u.add v).2 = true ↔ 2 ^ 256 ≤ u.toNat + v.toNat := by simp [add]

theorem add_overflow_eq_false : (u.add v).2 = false ↔ u.toNat + v.toNat < 2 ^ 256 := by simp [add]

theorem to_nat_add (h : u.toNat + v.toNat < 2 ^ 256) :
    (u.add v).1.toNat = u.toNat + v.toNat := Nat.mod_eq_of_lt h

theorem sub_underflow_iff : (u.sub v).2 = true ↔ u.toNat < v.toNat := by simp [sub]

theorem sub_underflow_eq_false : (u.sub v).2 = false ↔ v.toNat ≤ u.toNat := by simp [sub]

theorem to_nat_sub (h : v.toNat ≤ u.toNat) : (u.sub v).1.toNat = u.toNat - v.toNat := by
  have hu := u.isLt
  have heq : 2 ^ 256 + u.toNat - v.toNat = u.toNat - v.toNat + 2 ^ 256 := by omega
  have hlt : u.toNat - v.toNat < 2 ^ 256 := by omega
  simp only [sub, ofNat, heq, Nat.add_mod_right, Nat.mod_eq_of_lt hlt]

theorem mul_overflow_eq_false : (u.mul v).2 = false ↔ u.toNat * v.toNat < 2 ^ 256 := by
  simp [mul]

theorem to_nat_mul (h : u.toNat * v.toNat < 2 ^ 256) :
    (u.mul v).1.toNat = u.toNat * v.toNat := Nat.mod_eq_of_lt h

variable {w : U256} {n : ℕ}

/-- Checked addition succeeds where the sum fits. -/
theorem checked_add_eq_some : checked (u.add v) = some w ↔ w.toNat = u.toNat + v.toNat := by
  have hw := w.isLt
  by_cases h : u.toNat + v.toNat < 2 ^ 256
  · rw [checked, add_overflow_eq_false.mpr h]
    simp [eq_def, to_nat_add h, eq_comm]
  · rw [checked, add_overflow_iff.mpr (by omega)]
    simp
    omega

theorem checked_add_eq_none : checked (u.add v) = none ↔ 2 ^ 256 ≤ u.toNat + v.toNat := by
  simp [checked, add]

theorem checked_sub_eq_some : checked (u.sub v) = some w ↔ w.toNat + v.toNat = u.toNat := by
  by_cases h : v.toNat ≤ u.toNat
  · rw [checked, sub_underflow_eq_false.mpr h]
    simp [eq_def, to_nat_sub h]
    omega
  · rw [checked, sub_underflow_iff.mpr (by omega)]
    simp
    omega

theorem checked_sub_eq_none : checked (u.sub v) = none ↔ u.toNat < v.toNat := by
  simp [checked, sub]

theorem checked_mul_eq_some : checked (u.mul v) = some w ↔ w.toNat = u.toNat * v.toNat := by
  have hw := w.isLt
  by_cases h : u.toNat * v.toNat < 2 ^ 256
  · rw [checked, mul_overflow_eq_false.mpr h]
    simp [eq_def, to_nat_mul h, eq_comm]
  · have hover : (u.mul v).2 = true := by simp [mul]; omega
    rw [checked, hover]
    simp
    omega

theorem to_nat_div64 : (u.div64 a).1.toNat = u.toNat / a.toNat := rfl

theorem to_nat_mul_div64 (h : a.toNat ≤ b.toNat) :
    (u.mulDiv64 a b).toNat = u.toNat * a.toNat / b.toNat := by
  have hle : u.toNat * a.toNat / b.toNat ≤ u.toNat :=
    Nat.div_le_of_le_mul (by rw [Nat.mul_comm b.toNat]; exact Nat.mul_le_mul_left _ h)
  rw [mulDiv64, dif_pos (hle.trans_lt u.isLt)]

/-- Saturating subtraction, over the naturals. -/
theorem to_nat_sat_sub : (u.satSub v).toNat = u.toNat - v.toNat := by
  unfold satSub
  split_ifs with h
  · rw [sub_underflow_iff] at h
    simp
    omega
  · rw [Bool.not_eq_true, sub_underflow_eq_false] at h
    exact to_nat_sub h

@[simp] theorem sat_sub_zero : u.satSub 0 = u := ext (by simp [to_nat_sat_sub])

/-- Saturating addition, over the naturals. -/
theorem to_nat_sat_add : (u.satAdd v).toNat = min (u.toNat + v.toNat) (2 ^ 256 - 1) := by
  unfold satAdd
  split_ifs with h
  · rw [add_overflow_iff] at h
    show 2 ^ 256 - 1 = _
    omega
  · rw [Bool.not_eq_true, add_overflow_eq_false] at h
    rw [to_nat_add h]
    omega

theorem to_nat_min_of : (minOf u v).toNat = min u.toNat v.toNat := by
  unfold minOf
  split <;> rename_i h <;> rw [lt_def] at h <;> omega

theorem to_nat_max_of : (maxOf u v).toNat = Max.max u.toNat v.toNat := by
  unfold maxOf
  split <;> rename_i h <;> rw [gt_iff_lt, lt_def] at h <;> omega

theorem to_nat_rem64 (h : 0 < a.toNat) : (u.div64 a).2.toNat = u.toNat % a.toNat :=
  UInt64.toNat_ofNat_of_lt' ((Nat.mod_lt _ h).trans a.toNat_lt)

/-! ## Saturating values -/

/-- A word that holds a number as far as it fits. -/
def Saturates (u : U256) (n : ℕ) : Prop := u.toNat = min n (2 ^ 256 - 1)

theorem saturates_of_eq (h : u.toNat = n) : Saturates u n := by
  have hlt := u.isLt
  unfold Saturates
  omega

theorem saturates_max (h : 2 ^ 256 ≤ n) : Saturates max n := by
  show 2 ^ 256 - 1 = _
  omega

theorem Saturates.sat_add {m : ℕ} (hu : Saturates u n) (hv : Saturates v m) :
    Saturates (u.satAdd v) (n + m) := by
  unfold Saturates at *
  rw [to_nat_sat_add]
  omega

theorem le_of_mul_overflow (h : (u.mul v).2 = true) : 2 ^ 256 ≤ u.toNat * v.toNat := by
  simpa [mul] using h

/-- The product that is capped where it leaves 256 bits. -/
theorem saturates_mul (u v : U256) :
    Saturates (if (u.mul v).2 then max else (u.mul v).1) (u.toNat * v.toNat) := by
  split_ifs with hover
  · exact saturates_max (le_of_mul_overflow hover)
  · exact saturates_of_eq (to_nat_mul (mul_overflow_eq_false.mp (by simpa using hover)))

theorem saturates_mul_div64 (u : U256) (a b : UInt64) :
    Saturates (u.mulDiv64 a b) (u.toNat * a.toNat / b.toNat) := by
  unfold mulDiv64
  dsimp only
  split
  · exact saturates_of_eq rfl
  · exact saturates_max (by omega)

end U256

end Zycord
