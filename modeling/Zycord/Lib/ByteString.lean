import Mathlib.Data.List.Lex
import Mathlib.Tactic.Ring

/-!
# Byte strings

Numbers written as byte strings, and byte strings cut into pieces. Reading the bytes of a number
gives the number back up to the width (`little_endian_nat_bytes`), writing the number a string
spells gives the string back (`bytes_little_endian_nat`), and the pieces that a string is cut into,
at given positions (`extract_append_extract`) or at a fixed size (`flatten_chunks`), make it up
again.
-/

namespace ByteString

open Nat List

/-- The number a byte string spells, least significant byte first. -/
def littleEndianNat : List UInt8 → ℕ
  | [] => 0
  | b :: rest => b.toNat + 256 * littleEndianNat rest

/-- The number a byte string spells, most significant byte first. -/
def bigEndianNat (bytes : List UInt8) : ℕ := littleEndianNat bytes.reverse

theorem little_endian_nat_append (a b : List UInt8) :
    littleEndianNat (a ++ b) = littleEndianNat a + 256 ^ a.length * littleEndianNat b := by
  induction a with
  | nil => simp [littleEndianNat]
  | cons x rest ih =>
    simp only [cons_append, littleEndianNat, ih, length_cons, pow_succ]
    ring

/-- Reading a number back from its bytes, up to the width. -/
theorem little_endian_nat_bytes (width n : ℕ) :
    littleEndianNat ((List.range width).map fun i => UInt8.ofNat (n / 256 ^ i)) =
      n % 256 ^ width := by
  induction width with
  | zero => simp [littleEndianNat, Nat.mod_one]
  | succ k ih =>
    rw [range_succ, map_append, little_endian_nat_append, ih]
    simp only [length_map, length_range, map_cons, map_nil, littleEndianNat,
      UInt8.toNat_ofNat', mul_zero, add_zero]
    rw [pow_succ 256 k, Nat.mod_mul]

theorem bytes_succ (width n : ℕ) :
    (List.range (width + 1)).map (fun i => UInt8.ofNat (n / 256 ^ i)) =
      UInt8.ofNat n :: (List.range width).map fun i => UInt8.ofNat (n / 256 / 256 ^ i) := by
  rw [range_succ_eq_map, map_cons, map_map]
  refine congrArg₂ _ (by simp) (map_congr_left fun i _ => ?_)
  rw [Function.comp_apply, Nat.div_div_eq_div_mul, ← pow_succ']

/-- Writing down the number a string spells gives the string back. -/
theorem bytes_little_endian_nat (bytes : List UInt8) :
    (List.range bytes.length).map (fun i => UInt8.ofNat (littleEndianNat bytes / 256 ^ i)) =
      bytes := by
  induction bytes with
  | nil => rfl
  | cons b rest ih =>
    have hb := b.toNat_lt
    have hdiv : littleEndianNat (b :: rest) / 256 = littleEndianNat rest := by
      simp only [littleEndianNat]
      omega
    have hmod : UInt8.ofNat (littleEndianNat (b :: rest)) = b := by
      refine UInt8.toNat_inj.mp ?_
      simp only [littleEndianNat, UInt8.toNat_ofNat']
      omega
    rw [length_cons, bytes_succ, hdiv, hmod, ih]

theorem little_endian_nat_lt (bytes : List UInt8) : littleEndianNat bytes < 256 ^ bytes.length := by
  induction bytes with
  | nil => simp [littleEndianNat]
  | cons b rest ih =>
    have hb := b.toNat_lt
    simp only [littleEndianNat, length_cons, pow_succ]
    omega

/-! ## Order -/

/-- Bytes compare as numbers, so byte strings compare byte by byte from the left. -/
instance instLinearOrderUInt8 : LinearOrder UInt8 where
  le_refl := UInt8.le_refl
  le_trans _ _ _ := UInt8.le_trans
  lt_iff_le_not_ge a b := by
    simp only [UInt8.lt_iff_toNat_lt, UInt8.le_iff_toNat_le]
    omega
  le_antisymm _ _ := UInt8.le_antisymm
  le_total a b := UInt8.le_total a b
  toDecidableLE := inferInstance

/-! ## The IEEE checksum -/

/-- One bit of the checksum. -/
def crcBit (crc : UInt32) : UInt32 :=
  if crc &&& 1 = 1 then (crc >>> 1) ^^^ 0xEDB88320 else crc >>> 1

/-- Feed one byte to the checksum register. -/
def crcByte (crc : UInt32) (b : UInt8) : UInt32 :=
  crcBit (crcBit (crcBit (crcBit (crcBit (crcBit (crcBit (crcBit (crc ^^^ b.toUInt32))))))))

/-- The CRC-32 checksum with the IEEE polynomial. -/
def crc32 (bytes : List UInt8) : UInt32 := (bytes.foldl crcByte 0xFFFFFFFF) ^^^ 0xFFFFFFFF

-- the check value of the polynomial's specification, for the digits 1 to 9
example : crc32 [0x31, 0x32, 0x33, 0x34, 0x35, 0x36, 0x37, 0x38, 0x39] = 0xCBF43926 := by
  decide +kernel

/-! ## Cutting -/

variable {α : Type*} {l : List α} {i j k : ℕ}

/-- Adjacent pieces join. -/
theorem extract_append_extract (hij : i ≤ j) (hjk : j ≤ k) :
    l.extract i j ++ l.extract j k = l.extract i k := by
  have hsplit : k - i = (j - i) + (k - j) := by omega
  have hdrop : l.drop j = (l.drop i).drop (j - i) := by rw [drop_drop]; congr 1; omega
  simp only [extract, hsplit, take_add, hdrop]

theorem extract_self (h : l.length ≤ k) : l.extract 0 k = l := by
  exact take_of_length_le h

theorem extract_length : l.extract i l.length = l.drop i := take_of_length_le (by simp)

theorem length_extract (h : j ≤ l.length) : (l.extract i j).length = j - i := by
  simp only [extract, length_take, length_drop]
  omega

theorem takeD_eq_append {l : List α} {n : ℕ} {a : α} (h : l.length ≤ n) :
    l.takeD n a = l ++ List.replicate (n - l.length) a := by
  induction l generalizing n with
  | nil => simp [takeD_nil]
  | cons b rest ih =>
    obtain ⟨n, rfl⟩ : ∃ m, n = m + 1 := exists_eq_succ_of_ne_zero (by
      rw [length_cons] at h
      omega)
    rw [length_cons, succ_le_succ_iff] at h
    rw [takeD_succ, head?_cons, tail_cons, ih h, length_cons, succ_sub_succ]
    rfl

variable {a b : List α} {size : ℕ}

theorem extract_append_left (h : j ≤ a.length) : (a ++ b).extract i j = a.extract i j := by
  rcases le_total i a.length with hi | hi
  · simp only [extract, drop_append_of_le_length hi]
    exact take_append_of_le_length (by simp only [length_drop]; omega)
  · have hzero : j - i = 0 := by omega
    simp [extract, hzero]

theorem extract_append_right (h : a.length ≤ i) :
    (a ++ b).extract i j = b.extract (i - a.length) (j - a.length) := by
  have hlen : j - i = j - a.length - (i - a.length) := by omega
  simp only [extract, drop_append, drop_of_length_le h, nil_append, hlen]

theorem extract_middle (a b c : List α) :
    (a ++ (b ++ c)).extract a.length (a.length + b.length) = b := by
  simp [extract]

/-- Pieces of one size. -/
def chunks (size : ℕ) (l : List α) : List (List α) :=
  (List.range (l.length / size)).map fun i => l.extract (i * size) ((i + 1) * size)

theorem flatten_map_extract (size n : ℕ) :
    ((List.range n).map fun i => l.extract (i * size) ((i + 1) * size)).flatten =
      l.extract 0 (n * size) := by
  induction n with
  | zero => simp [extract]
  | succ n ih =>
    rw [range_succ, map_append, flatten_append, ih]
    simp only [map_cons, map_nil, flatten_cons, flatten_nil, append_nil]
    exact extract_append_extract (zero_le _) (mul_le_mul_right _ (le_succ n))

/-- A list that is a whole number of pieces is made up of them. -/
theorem flatten_chunks (h : size ∣ l.length) : (chunks size l).flatten = l := by
  rw [chunks, flatten_map_extract, Nat.div_mul_cancel h, extract_self (le_refl _)]

theorem length_of_mem_chunks {piece : List α} (h : piece ∈ chunks size l) :
    piece.length = size := by
  obtain ⟨i, hi, rfl⟩ := mem_map.mp h
  have hle : (i + 1) * size ≤ l.length :=
    (mul_le_mul_right size (mem_range.mp hi)).trans (div_mul_le_self _ _)
  rw [length_extract hle, Nat.succ_mul, Nat.add_sub_cancel_left]

/-- Pieces of one size are cut apart again. -/
theorem chunks_flatten (hsize : 0 < size) {pieces : List (List α)}
    (h : ∀ piece ∈ pieces, piece.length = size) : chunks size pieces.flatten = pieces := by
  have hlen : pieces.flatten.length = pieces.length * size := by
    rw [length_flatten, map_congr_left h]
    simp
  rw [chunks, hlen, Nat.mul_div_cancel _ hsize]
  refine ext_getElem (by simp) fun n hn hn' => ?_
  simp only [getElem_map, getElem_range]
  -- cut the list before and behind the piece
  have hsplit : pieces = pieces.take n ++ pieces[n] :: pieces.drop (n + 1) := by simp
  have hfront : (pieces.take n).flatten.length = n * size := by
    rw [length_flatten, map_congr_left fun p hp => h p (mem_of_mem_take hp)]
    simp [le_of_lt hn']
  have hpiece := h pieces[n] (getElem_mem hn')
  have hflat : pieces.flatten =
      (pieces.take n).flatten ++ (pieces[n] ++ (pieces.drop (n + 1)).flatten) := by
    rw [← flatten_cons, ← flatten_append]
    exact congrArg flatten hsplit
  have hend : (n + 1) * size = (pieces.take n).flatten.length + pieces[n].length := by
    rw [hfront, hpiece, succ_mul]
  rw [hflat, hend, ← hfront, extract_middle]

end ByteString
