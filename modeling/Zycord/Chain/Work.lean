import Mathlib.Data.Nat.Bitwise
import Zycord.Core.Block

/-!
# Work

The work of a header and of a list of headers (`node/chain/forkchoice.go`). The source divides
256-bit values bit by bit; `to_nat_div_wide` says that the loop is the exact division wherever
doubling a remainder cannot saturate, and `block_work_exact` that the work of a target `t` is
`2 ^ 256 / (t + 1)`, clamped to the largest value. A sum of works saturates at the same bound
(`to_nat_sum_work`).
-/

namespace Zycord.Chain

open Bool List Nat U256

/-! ## Division -/

/-- Bit `i` of a big-endian string, counting from the most significant. -/
def bitAt (b : Bytes) (i : ℕ) : Bool :=
  b.getD (i / 8) 0 &&& (1 <<< UInt8.ofNat (7 - i % 8)) ≠ 0

/-- Double a value, saturating. -/
def shiftLeftOne (v : U256) : U256 := v.satAdd v

/-- One round of the long division: the quotient and the remainder after one more bit. -/
def divStep (d : U256) (qr : U256 × U256) (bit : Bool) : U256 × U256 :=
  let remainder := shiftLeftOne qr.2
  let remainder := if bit then remainder.satAdd 1 else remainder
  let quotient := shiftLeftOne qr.1
  if remainder ≥ d then (quotient.satAdd 1, (remainder.sub d).1) else (quotient, remainder)

/-- Long division of 256-bit words, bit by bit. -/
def divWide (n d : U256) : U256 :=
  if d.isZero then .max
  else if n < d then 0
  else ((List.range 256).foldl (fun qr i => divStep d qr (bitAt n.bytes32.bytes i)) (0, 0)).1

/-- The expected number of hashes needed to solve a header. A zero target is clamped to the
maximum. -/
def blockWork (target : U256) : U256 :=
  if target.isZero then .max
  else
    let (divisor, overflow) := target.add 1
    if overflow then 1
    else
      let numerator := (U256.max.sub target).1
      (divWide numerator divisor).satAdd 1

/-- The work of headers, saturating. -/
def sumWork (headers : List Header) : U256 :=
  headers.foldl (fun total h => total.satAdd (blockWork h.target)) 0

/-! ## Exactness -/

variable {i k : ℕ} {d n : U256}

theorem byte_and_bit (x : UInt8) (hk : k < 8) :
    (x &&& (1 <<< UInt8.ofNat k) ≠ 0) ↔ x.toNat.testBit k = true := by
  have hshift : (1 <<< UInt8.ofNat k : UInt8).toNat = 2 ^ k := by
    have hlt : 2 ^ k < 256 := Nat.pow_lt_pow_right (show 1 < 2 by omega) hk
    simp [Nat.shiftLeft_eq, Nat.mod_eq_of_lt hk, hlt]
  rw [ne_eq, ← UInt8.toNat_inj, UInt8.toNat_and, hshift, Nat.and_two_pow]
  cases x.toNat.testBit k <;> simp

theorem bit_at_bytes (n : U256) (hi : i < 256) :
    bitAt n.bytes32.bytes i = n.toNat.testBit (255 - i) := by
  have hbyte : n.bytes32.bytes.getD (i / 8) 0 = UInt8.ofNat (n.toNat / 256 ^ (31 - i / 8)) := by
    rw [List.getD_eq_getElem?_getD, Bytes32.bytes, List.getElem?_map,
      List.getElem?_range (by omega)]
    rfl
  have hexp : (256 : ℕ) ^ (31 - i / 8) = 2 ^ (8 * (31 - i / 8)) := by
    rw [pow_mul]
    rfl
  rw [bitAt, hbyte, Bool.eq_iff_iff, decide_eq_true_eq, byte_and_bit _ (by omega),
    UInt8.toNat_ofNat', hexp, Nat.testBit_mod_two_pow, Nat.testBit_div_two_pow]
  have hpos : 7 - i % 8 + 8 * (31 - i / 8) = 255 - i := by omega
  simp [hpos, show 7 - i % 8 < 8 by omega]

/-- The quotient and the remainder of the leading part of a dividend. -/
def DividesTo (d : U256) (m : ℕ) (qr : U256 × U256) : Prop :=
  qr.1.toNat = m / d.toNat ∧ qr.2.toNat = m % d.toNat

/-- One round takes the division of a leading part to that of the part with one more bit. -/
theorem DividesTo.step {m : ℕ} {qr : U256 × U256} (hd : 0 < d.toNat) (hsmall : d.toNat ≤ 2 ^ 255)
    (bit : Bool) (hm : 2 * m + bit.toNat < 2 ^ 256) (h : DividesTo d m qr) :
    DividesTo d (2 * m + bit.toNat) (divStep d qr bit) := by
  obtain ⟨hq, hr⟩ := h
  have hlt : m % d.toNat < d.toNat := mod_lt _ hd
  have hbit : bit.toNat ≤ 1 := by cases bit <;> simp
  have hqle : m / d.toNat ≤ m := div_le_self _ _
  have hsplit : 2 * m + bit.toNat =
      2 * (m % d.toNat) + bit.toNat + d.toNat * (2 * (m / d.toNat)) := by
    have := mod_add_div m d.toNat
    rw [mul_left_comm]
    omega
  -- the remainder stays below 2^255, so doubling it cannot saturate
  have hrem : (if bit then (shiftLeftOne qr.2).satAdd 1 else shiftLeftOne qr.2).toNat =
      2 * (m % d.toNat) + bit.toNat := by
    cases bit <;> simp only [shiftLeftOne, to_nat_sat_add, to_nat_one, hr, if_true,
      false_eq_true, if_false, toNat_true, toNat_false] <;> omega
  have hquot : (shiftLeftOne qr.1).toNat = 2 * (m / d.toNat) := by
    rw [shiftLeftOne, to_nat_sat_add]
    omega
  unfold divStep DividesTo
  rw [hsplit, add_mul_div_left _ _ hd, add_mul_mod_self_left]
  by_cases hge : d.toNat ≤ 2 * (m % d.toNat) + bit.toNat
  · have hone : (2 * (m % d.toNat) + bit.toNat) / d.toNat = 1 := by
      rw [Nat.div_eq_iff (by omega)]
      omega
    have hmod : (2 * (m % d.toNat) + bit.toNat) % d.toNat =
        2 * (m % d.toNat) + bit.toNat - d.toNat := by
      rw [mod_eq_sub_mod hge, mod_eq_of_lt (by omega)]
    rw [if_pos (by rw [ge_iff_le, le_def, hrem]; exact hge)]
    refine ⟨?_, ?_⟩
    · have hquotLe : 2 * (m / d.toNat) + 1 < 2 ^ 256 := by
        omega
      show (satAdd _ _).toNat = _
      rw [to_nat_sat_add, hquot, to_nat_one, hone, min_eq_left (le_sub_one_of_lt hquotLe), add_comm]
    · show (sub _ _).1.toNat = _
      rw [to_nat_sub (by rw [hrem]; exact hge), hrem, hmod]
  · rw [if_neg (by rw [ge_iff_le, le_def, hrem]; exact hge)]
    have hlow : 2 * (m % d.toNat) + bit.toNat < d.toNat := by omega
    refine ⟨?_, ?_⟩
    · show (shiftLeftOne qr.1).toNat = _
      rw [hquot, div_eq_of_lt hlow, zero_add]
    · rw [hrem, mod_eq_of_lt hlow]

theorem div_two_pow_succ (n : ℕ) (hi : i < 256) :
    n / 2 ^ (256 - (i + 1)) = 2 * (n / 2 ^ (256 - i)) + (n.testBit (255 - i)).toNat := by
  have hexp : 256 - i = 255 - i + 1 := by omega
  have hhalf : n / 2 ^ (255 - i + 1) = n / 2 ^ (255 - i) / 2 := by
    rw [pow_succ, Nat.div_div_eq_div_mul]
  rw [hexp, testBit_eq_decide_div_mod_eq]
  by_cases hbit : n / 2 ^ (255 - i) % 2 = 1 <;> simp [hbit] <;> omega

theorem divides_to_leading (hd : 0 < d.toNat) (hsmall : d.toNat ≤ 2 ^ 255) (hk : k ≤ 256) :
    DividesTo d (n.toNat / 2 ^ (256 - k))
      ((List.range k).foldl (fun qr i => divStep d qr (bitAt n.bytes32.bytes i)) (0, 0)) := by
  induction k with
  | zero =>
    have hzero : n.toNat / 2 ^ 256 = 0 := div_eq_of_lt n.isLt
    show DividesTo d (n.toNat / 2 ^ 256) (0, 0)
    rw [hzero, DividesTo, Nat.zero_div]
    exact ⟨rfl, rfl⟩
  | succ k ih =>
    have hlead := div_two_pow_succ n.toNat (show k < 256 by omega)
    rw [range_succ, foldl_append, foldl_cons, bit_at_bytes n (by omega), hlead]
    refine (ih (by omega)).step hd hsmall _ ?_
    rw [← hlead]
    exact (div_le_self _ _).trans_lt n.isLt

/-- Long division is division, provided that the remainders can be doubled. -/
theorem to_nat_div_wide (hd : 0 < d.toNat) (h : n < d ∨ d.toNat ≤ 2 ^ 255) :
    (divWide n d).toNat = n.toNat / d.toNat := by
  have hne : d.isZero = false := by
    rw [eq_false_iff, ne_eq, is_zero_iff]
    rintro rfl
    simp at hd
  unfold divWide
  rw [if_neg (by simp [hne])]
  split_ifs with hlt
  · rw [div_eq_of_lt (lt_def.mp hlt)]
    rfl
  · have hsmall : d.toNat ≤ 2 ^ 255 := h.resolve_left hlt
    have hall := (divides_to_leading (n := n) hd hsmall le_rfl).1
    simpa using hall

theorem div_wide_call {target : U256} (hover : target.toNat + 1 < 2 ^ 256) :
    (target.add 1).1.toNat = target.toNat + 1 ∧
      (U256.max.sub target).1.toNat = 2 ^ 256 - 1 - target.toNat ∧
      (divWide (U256.max.sub target).1 (target.add 1).1).toNat =
        (2 ^ 256 - 1 - target.toNat) / (target.toNat + 1) := by
  have hdiv : (target.add 1).1.toNat = target.toNat + 1 := to_nat_add hover
  have hnum : (max.sub target).1.toNat = 2 ^ 256 - 1 - target.toNat :=
    to_nat_sub (by show target.toNat ≤ 2 ^ 256 - 1; omega)
  have hside : (max.sub target).1 < (target.add 1).1 ∨ (target.add 1).1.toNat ≤ 2 ^ 255 := by
    rw [lt_def]
    omega
  refine ⟨hdiv, hnum, ?_⟩
  rw [to_nat_div_wide (by omega) hside, hnum, hdiv]

/-- The work of a target is 2^256 / (target + 1), saturated. -/
theorem to_nat_block_work (target : U256) :
    (blockWork target).toNat = min (2 ^ 256 / (target.toNat + 1)) (2 ^ 256 - 1) := by
  have hlt := target.isLt
  unfold blockWork
  by_cases hzero : target = 0
  · subst hzero
    simp [U256.max]
  · rw [if_neg (by simpa using hzero)]
    dsimp only
    by_cases hover : target.toNat + 1 < 2 ^ 256
    · have hflag : (target.add 1).2 = false := U256.add_overflow_eq_false.mpr hover
      have hsplit : 2 ^ 256 = (2 ^ 256 - 1 - target.toNat) + (target.toNat + 1) * 1 := by omega
      have hquot : 2 ^ 256 / (target.toNat + 1) =
          (2 ^ 256 - 1 - target.toNat) / (target.toNat + 1) + 1 := by
        conv_lhs => rw [hsplit]
        exact Nat.add_mul_div_left _ _ (by omega)
      rw [hflag, if_neg (by simp), U256.to_nat_sat_add, (div_wide_call hover).2.2, hquot,
        U256.to_nat_one]
    · have hflag : (target.add 1).2 = true := U256.add_overflow_iff.mpr (by
        show 2 ^ 256 ≤ target.toNat + 1
        omega)
      have htop : target.toNat + 1 = 2 ^ 256 := by omega
      rw [hflag, htop]
      rfl

/-- Work is exact: the floor of `2 ^ 256 / (t + 1)`, saturated at a zero target only. It does not
increase with the target, and every division on the way has the exact quotient. -/
theorem block_work_exact (target : U256) :
    (blockWork target).toNat = (if target = 0 then 2 ^ 256 - 1 else 2 ^ 256 / (target.toNat + 1)) ∧
      (∀ easier, target ≤ easier → blockWork easier ≤ blockWork target) ∧
      ((target.add 1).2 = false → (target.add 1).1 ≠ 0 ∧
        (divWide (U256.max.sub target).1 (target.add 1).1).toNat =
          (U256.max.sub target).1.toNat / (target.add 1).1.toNat) := by
  refine ⟨?_, fun easier hle => ?_, fun hflag => ?_⟩
  · rw [to_nat_block_work]
    split_ifs with hzero
    · rw [hzero]
      rfl
    · have hpos := to_nat_pos hzero
      have hhalf : 2 ^ 256 / (target.toNat + 1) ≤ 2 ^ 256 / 2 :=
        div_le_div_left (by omega) (by omega)
      omega
  · rw [le_def, to_nat_block_work, to_nat_block_work]
    rw [le_def] at hle
    have hquot : 2 ^ 256 / (easier.toNat + 1) ≤ 2 ^ 256 / (target.toNat + 1) :=
      div_le_div_left (by omega) (by omega)
    omega
  · obtain ⟨hdiv, hnum, hcall⟩ := div_wide_call (add_overflow_eq_false.mp hflag)
    refine ⟨fun hzero => ?_, by rw [hcall, hnum, hdiv]⟩
    rw [hzero, to_nat_zero] at hdiv
    omega

/-- A target of one: half of all hashes solve it. -/
theorem sample_block_work_exact : (blockWork 1).toNat = 2 ^ 255 ∧
    (divWide (U256.max.sub 1).1 (U256.add 1 1).1).toNat = 2 ^ 255 - 1 := by
  obtain ⟨hwork, -, hdivide⟩ := block_work_exact 1
  refine ⟨hwork.trans (by decide), (hdivide (by decide)).2.trans (by decide)⟩

/-! ## Sums -/

/-- The work of headers as a number. -/
def exactWork (headers : List Header) : ℕ := (headers.map fun h => (blockWork h.target).toNat).sum

@[simp] theorem exact_work_nil : exactWork [] = 0 := rfl

@[simp] theorem exact_work_cons (h : Header) (rest : List Header) :
    exactWork (h :: rest) = (blockWork h.target).toNat + exactWork rest := by
  simp [exactWork]

@[simp] theorem exact_work_append (hs hs' : List Header) :
    exactWork (hs ++ hs') = exactWork hs + exactWork hs' := by
  simp [exactWork]

@[simp] theorem exact_work_reverse (hs : List Header) : exactWork hs.reverse = exactWork hs := by
  simp [exactWork, sum_reverse]

theorem to_nat_foldl_work (headers : List Header) (acc : U256) :
    (headers.foldl (fun total h => total.satAdd (blockWork h.target)) acc).toNat =
      min (acc.toNat + exactWork headers) (2 ^ 256 - 1) := by
  induction headers generalizing acc with
  | nil =>
    have := acc.isLt
    simp
    omega
  | cons h rest ih =>
    rw [foldl_cons, ih, to_nat_sat_add, exact_work_cons]
    omega

/-- A sum of works is exact until it saturates. -/
theorem to_nat_sum_work (headers : List Header) :
    (sumWork headers).toNat = min (exactWork headers) (2 ^ 256 - 1) := by
  rw [sumWork, to_nat_foldl_work, to_nat_zero, zero_add]

theorem exact_work_lt_of_sum_work {hs hs' : List Header} (h : sumWork hs > sumWork hs') :
    exactWork hs' < exactWork hs ∧ exactWork hs' < 2 ^ 256 - 1 := by
  rw [gt_iff_lt, lt_def, to_nat_sum_work, to_nat_sum_work] at h
  omega

end Zycord.Chain
