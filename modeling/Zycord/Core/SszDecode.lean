import Mathlib.Algebra.Order.BigOperators.Group.List
import Zycord.Core.Ssz
import Zycord.Lib.Mut

/-!
# Canonical decoding

The decoder half of package `core/ssz`. A container is accepted when its offsets start right behind
the fixed section, never move backwards and stay inside the input. What is accepted is then the
encoding of the fields that were found (`encode_of_decode`, `encode_of_decode_variable_list`), and
what was encoded is accepted as long as its offsets fit in 32 bits (`decode_encode`). A list is
determined by its encoding (`encode_variable_list_injective`).
-/

namespace Zycord

open Except Nat List

/-- Why a decoder refuses its input. -/
inductive DecodeError where
  | short
  | trailing
  | offset
  | elementCount
  | limit
  | malformed
  | programKind
deriving DecidableEq

/-- The text of a refusal. -/
def DecodeError.message : DecodeError → String
  | short => "ssz: input too short"
  | trailing => "ssz: trailing bytes"
  | offset => "ssz: non-canonical offset"
  | elementCount => "ssz: input is not a whole number of elements"
  | limit => "ssz: list exceeds its genesis-fixed maximum length"
  | malformed => "types: malformed encoding"
  | programKind => "types: unknown program kind"

namespace Ssz

open ByteString

/-! ## Integers -/

/-- Read four bytes. -/
def readUint32 (b : Bytes) : UInt32 := .ofNat (littleEndianNat (b.take 4))

/-- Read eight bytes. -/
def readUint64 (b : Bytes) : UInt64 := .ofNat (littleEndianNat (b.take 8))

variable {b data : Bytes} {len width minElemSize : ℕ} {layout : List Width}
  {elems fields : List Bytes} {limit : ℤ}

theorem little_endian_read (h : b.length = width) : littleEndian width (littleEndianNat b) = b := by
  subst h
  exact bytes_little_endian_nat b

theorem read_little_endian {n : ℕ} (h : n < 256 ^ width) :
    littleEndianNat (littleEndian width n) = n := by
  rw [littleEndian, little_endian_nat_bytes, mod_eq_of_lt h]

theorem read_take_lt (b : Bytes) (n : ℕ) : littleEndianNat (b.take n) < 256 ^ n :=
  (little_endian_nat_lt _).trans_le (Nat.pow_le_pow_right (by decide) (length_take_le n b))

theorem to_nat_read_uint32 (b : Bytes) : (readUint32 b).toNat = littleEndianNat (b.take 4) :=
  UInt32.toNat_ofNat_of_lt' (read_take_lt b 4)

theorem to_nat_read_uint64 (b : Bytes) : (readUint64 b).toNat = littleEndianNat (b.take 8) :=
  UInt64.toNat_ofNat_of_lt' (read_take_lt b 8)

@[simp] theorem uint32_read_uint32 (h : b.length = 4) : uint32 (readUint32 b).toNat = b := by
  rw [uint32, mod_eq_of_lt (readUint32 b).toNat_lt, to_nat_read_uint32,
    take_of_length_le (le_of_eq h), little_endian_read h]

@[simp] theorem uint64_read_uint64 (h : b.length = 8) : uint64 (readUint64 b) = b := by
  rw [uint64, to_nat_read_uint64, take_of_length_le (le_of_eq h), little_endian_read h]

@[simp] theorem read_uint64_uint64 (v : UInt64) : readUint64 (uint64 v) = v := by
  have hlen : (uint64 v).take 8 = uint64 v := take_of_length_le (by simp)
  refine UInt64.toNat_inj.mp ?_
  rw [to_nat_read_uint64, hlen]
  exact read_little_endian (by simpa using v.toNat_lt)

theorem read_uint32_uint32 {n : ℕ} (h : n < 2 ^ 32) (rest : Bytes) :
    (readUint32 (uint32 n ++ rest)).toNat = n := by
  have hlen : (uint32 n ++ rest).take 4 = uint32 n := take_left' (by simp [bytesPerLengthOffset])
  rw [to_nat_read_uint32, hlen, uint32, mod_eq_of_lt h]
  exact read_little_endian (by simpa using h)

@[simp] theorem read_uint32_of_uint32 (v : UInt32) : readUint32 (uint32 v.toNat) = v := by
  have hread := read_uint32_uint32 v.toNat_lt []
  exact UInt32.toNat_inj.mp hread

/-! ## Containers -/

/-- What the fixed section holds of a field: the field, or the offset of one. -/
inductive Part where
  | field (bytes : Bytes)
  | offset (off : ℕ)

/-- Take the fixed part apart. -/
def scan : List Width → Bytes → List Part
  | [], _ => []
  | .var :: layout, data =>
    .offset (readUint32 data).toNat :: scan layout (data.drop bytesPerLengthOffset)
  | .fixed n :: layout, data => .field (data.take n) :: scan layout (data.drop n)

/-- The offsets in it. -/
def offsets : List Part → List ℕ
  | [] => []
  | .field _ :: parts => offsets parts
  | .offset off :: parts => off :: offsets parts

/-- Where a variable field ends. -/
def fieldEnd (len : ℕ) (parts : List Part) : ℕ := (offsets parts).headD len

/-- Put the variable fields in the place of their offsets. -/
def fill (data : Bytes) : List Part → List Bytes
  | [] => []
  | .field bytes :: parts => bytes :: fill data parts
  | .offset off :: parts => data.extract off (fieldEnd data.length parts) :: fill data parts

/-- Refuse offsets that move backwards or leave the input. -/
def checkOffsets (len : ℕ) : ℕ → List ℕ → Except DecodeError Unit
  | _, [] => .ok ()
  | prev, off :: rest => do
      rejectIf (off < prev) .offset
      rejectIf (off > len) .offset
      checkOffsets len off rest

/-- Split a container encoding into its fields, enforcing canonical offsets. -/
def decode (layout : List Width) (data : Bytes) : Except DecodeError (List Bytes) := do
  rejectIf (data.length < fixedLen layout) .short
  rejectIf (.var ∉ layout ∧ data.length ≠ fixedLen layout) .trailing
  let parts := scan layout data
  rejectIf (∃ off ∈ (offsets parts).head?, off ≠ fixedLen layout) .offset
  checkOffsets data.length 0 (offsets parts)
  return fill data parts

/-- Decode elements of one size. -/
def decodeFixedList (data : Bytes) (elemSize : ℕ) (limit : ℤ) :
    Except DecodeError (List Bytes) := do
  rejectIf (data.length % elemSize ≠ 0) .elementCount
  rejectIf ((data.length / elemSize : ℕ) > limit) .limit
  return chunks elemSize data

/-- Split the encoding of a list of variable-size elements: an offset table and the elements
behind it. No element is shorter than `minElemSize`. -/
def decodeVariableList (data : Bytes) (limit : ℤ) (minElemSize : ℕ) :
    Except DecodeError (List Bytes) := do
  if data.length = 0 then return []
  rejectIf (data.length < bytesPerLengthOffset) .short
  let first := (readUint32 data).toNat
  rejectIf (first % bytesPerLengthOffset ≠ 0 ∨ first = 0 ∨ first > data.length) .offset
  let n := first / bytesPerLengthOffset
  rejectIf (n > limit) .limit
  rejectIf (minElemSize > 0 ∧ n > data.length / (bytesPerLengthOffset + minElemSize)) .offset
  let table := scan (List.replicate n .var) data
  checkOffsets data.length first (offsets table).tail
  return fill data table

/-- A field has its width. -/
def Width.Fits : Width → Bytes → Prop
  | fixed n, field => field.length = n
  | var, _ => True

/-! ## What is accepted is canonical -/

theorem check_offsets_eq_ok {prev : ℕ} {offs : List ℕ} :
    checkOffsets len prev offs = .ok () ↔
      (prev :: offs).Pairwise (· ≤ ·) ∧ ∀ off ∈ offs, off ≤ len := by
  rw [← isChain_iff_pairwise]
  induction offs generalizing prev with
  | nil => simp [checkOffsets]
  | cons off rest ih =>
    simp only [checkOffsets, seq_eq_ok, reject_if_eq_ok, not_lt, ih, isChain_cons_cons,
      forall_mem_cons]
    tauto

theorem le_field_end {off : ℕ} {parts : List Part} (hoff : off ≤ len)
    (h : (off :: offsets parts).Pairwise (· ≤ ·)) : off ≤ fieldEnd len parts := by
  unfold fieldEnd
  cases hparts : offsets parts with
  | nil => exact hoff
  | cons next rest =>
    rw [hparts] at h
    exact rel_of_pairwise_cons h mem_cons_self

theorem fixed_len_cons (w : Width) (layout : List Width) :
    fixedLen (w :: layout) = w.fixedLen + fixedLen layout := by
  simp [fixedLen]

/-- Encoding what was found behind the parts already written gives the input back. -/
theorem encode_fields_fill {fixed : ℕ} (data : Bytes) (layout : List Width) (head rest : Bytes)
    (hdata : data = head ++ rest) (hlen : head.length + fixedLen layout = fixed)
    (hfixed : fixed ≤ data.length)
    (hsorted : (fixed :: offsets (scan layout rest)).Pairwise (· ≤ ·))
    (hle : ∀ off ∈ offsets (scan layout rest), off ≤ data.length) :
    encodeFields fixed (layout.zip (fill data (scan layout rest))) head
        (data.extract fixed (fieldEnd data.length (scan layout rest))) = data ∧
      Forall₂ Width.Fits layout (fill data (scan layout rest)) := by
  induction layout generalizing head rest with
  | nil =>
    have hhead : data.take fixed = head := by
      rw [hdata, take_left' (by simpa [fixedLen] using hlen)]
    refine ⟨?_, .nil⟩
    simp only [scan, fill, offsets, fieldEnd, headD_nil, zip_nil_right, encodeFields]
    rw [extract_length, ← hhead]
    exact take_append_drop fixed data
  | cons w layout ih =>
    have hrest : head.length + rest.length = data.length := by simp [hdata]
    cases w with
    | fixed n =>
      rw [fixed_len_cons, Width.fixedLen] at hlen
      have hn : n ≤ rest.length := by omega
      have hstep := ih (head ++ rest.take n) (rest.drop n) (by simp [hdata])
        (by rw [length_append, length_take]; omega) hsorted hle
      exact ⟨hstep.1, .cons (by simpa [Width.Fits] using hn) hstep.2⟩
    | var =>
      rw [fixed_len_cons, Width.fixedLen] at hlen
      have hn : bytesPerLengthOffset ≤ rest.length := by omega
      obtain ⟨hfirst, hsorted'⟩ := pairwise_cons.mp hsorted
      have hoff : fixed ≤ (readUint32 rest).toNat := hfirst _ mem_cons_self
      have hofflen : (readUint32 rest).toNat ≤ data.length := hle _ mem_cons_self
      have hend := le_field_end hofflen hsorted'
      have hfields : ∀ off ∈ offsets (scan layout (rest.drop bytesPerLengthOffset)),
          fixed ≤ off := fun off hmem => hfirst off (mem_cons_of_mem _ hmem)
      have hstep := ih (head ++ rest.take bytesPerLengthOffset)
        (rest.drop bytesPerLengthOffset) (by simp [hdata])
        (by rw [length_append, length_take]; omega)
        (pairwise_cons.mpr ⟨hfields, (pairwise_cons.mp hsorted').2⟩)
        fun off hmem => hle off (mem_cons_of_mem _ hmem)
      -- the offset that is written is the one that was read
      have hwritten : uint32 (fixed + (data.extract fixed (readUint32 rest).toNat).length) =
          rest.take bytesPerLengthOffset := by
        have hfour : (rest.take 4).length = 4 := by
          simpa [bytesPerLengthOffset] using hn
        have hread : (readUint32 rest) = readUint32 (rest.take 4) := by
          rw [readUint32, readUint32, take_take, min_self]
        rw [length_extract hofflen, Nat.add_sub_cancel' hoff, hread, uint32_read_uint32 hfour]
        rfl
      refine ⟨?_, .cons trivial hstep.2⟩
      have hnow : fieldEnd data.length (scan (.var :: layout) rest) = (readUint32 rest).toNat := rfl
      rw [hnow, scan, fill, zip_cons_cons, encodeFields, hwritten, extract_append_extract hoff hend]
      exact hstep.1

theorem encode_fields_scan (hfixed : fixedLen layout ≤ data.length)
    (hsorted : (fixedLen layout :: offsets (scan layout data)).Pairwise (· ≤ ·))
    (hle : ∀ off ∈ offsets (scan layout data), off ≤ data.length)
    (hend : fieldEnd data.length (scan layout data) = fixedLen layout) :
    encodeFields (fixedLen layout) (layout.zip (fill data (scan layout data))) [] [] = data ∧
      Forall₂ Width.Fits layout (fill data (scan layout data)) := by
  have hempty : data.extract (fixedLen layout) (fixedLen layout) = [] := by simp [extract]
  have hfill := encode_fields_fill data layout [] data rfl (by simp) hfixed hsorted hle
  rw [hend, hempty] at hfill
  exact hfill

theorem not_var_of_offsets (h : offsets (scan layout data) = []) : .var ∉ layout := by
  induction layout generalizing data with
  | nil => simp
  | cons w layout ih =>
    cases w with
    | fixed n => simpa using ih h
    | var => simp [scan, offsets] at h

theorem pairwise_cons_self {first : ℕ} {offs : List ℕ}
    (h : (first :: offs).Pairwise (· ≤ ·)) : (first :: first :: offs).Pairwise (· ≤ ·) :=
  pairwise_cons.mpr ⟨forall_mem_cons.mpr ⟨le_rfl, (pairwise_cons.mp h).1⟩, h⟩

/-- An accepted container is the encoding of its fields. -/
theorem encode_of_decode (h : decode layout data = .ok fields) :
    encode layout fields = data ∧ List.Forall₂ Width.Fits layout fields := by
  simp only [decode, Except.seq_eq_ok, reject_if_eq_ok, check_offsets_eq_ok, not_lt] at h
  obtain ⟨hshort, htrailing, hfirst, ⟨hsorted, hle⟩, hfields⟩ := h
  obtain rfl := Except.pure_eq_ok.mp hfields
  -- the variable section starts where the fixed one ends
  have hstart : (fixedLen layout :: offsets (scan layout data)).Pairwise (· ≤ ·) ∧
      fieldEnd data.length (scan layout data) = fixedLen layout := by
    unfold fieldEnd
    cases hoffs : offsets (scan layout data) with
    | nil =>
      have hnot := not_var_of_offsets hoffs
      simp only [hnot, not_false_eq_true, true_and, ne_eq, not_not] at htrailing
      exact ⟨pairwise_singleton _ _, htrailing⟩
    | cons first rest =>
      rw [hoffs] at hsorted hfirst
      obtain rfl : first = fixedLen layout := by simpa using hfirst
      exact ⟨pairwise_cons_self (pairwise_cons.mp hsorted).2, rfl⟩
  exact encode_fields_scan hshort hstart.1 hle hstart.2

theorem fixed_len_replicate_var (n : ℕ) :
    fixedLen (replicate n .var) = bytesPerLengthOffset * n := by
  simp [fixedLen, Width.fixedLen, mul_comm]

theorem zip_replicate_var {n : ℕ} (h : elems.length = n) :
    (replicate n Width.var).zip elems = elems.map fun e => (.var, e) := by
  induction elems generalizing n with
  | nil => simp
  | cons e rest ih =>
    subst h
    simp [replicate_succ, ih rfl]

/-- An accepted list of variable-size elements is the encoding of its elements. -/
theorem encode_of_decode_variable_list (h : decodeVariableList data limit minElemSize = .ok elems) :
    encodeVariableList elems = data := by
  unfold decodeVariableList at h
  split at h
  · rename_i hempty
    obtain rfl := pure_eq_ok.mp h
    exact (length_eq_zero_iff.mp hempty).symm
  simp only [Except.seq_eq_ok, reject_if_eq_ok, check_offsets_eq_ok, not_lt, not_or, not_not] at h
  obtain ⟨hshort, ⟨hwhole, hzero, hfirst⟩, -, -, ⟨hsorted, hle⟩, helems⟩ := h
  generalize hn : (readUint32 data).toNat / bytesPerLengthOffset = n at *
  have hfixed : fixedLen (replicate n .var) = (readUint32 data).toNat := by
    rw [fixed_len_replicate_var, ← hn]
    exact Nat.mul_div_cancel' (Nat.dvd_of_mod_eq_zero hwhole)
  have hscan : ∃ rest, offsets (scan (replicate n .var) data) =
      (readUint32 data).toNat :: rest := by
    cases n with
    | zero =>
      simp [fixedLen] at hfixed
      omega
    | succ n => exact ⟨_, rfl⟩
  obtain ⟨rest, hoffs⟩ := hscan
  obtain rfl := pure_eq_ok.mp helems
  rw [hoffs] at hsorted hle
  have hsorted' : (fixedLen (replicate n .var) ::
      offsets (scan (replicate n .var) data)).Pairwise (· ≤ ·) := by
    rw [hoffs, hfixed]
    exact pairwise_cons_self hsorted
  have hle' : ∀ off ∈ offsets (scan (replicate n .var) data), off ≤ data.length := by
    rw [hoffs]
    exact forall_mem_cons.mpr ⟨hfirst, hle⟩
  have hend : fieldEnd data.length (scan (replicate n .var) data) =
      fixedLen (replicate n .var) := by
    rw [fieldEnd, hoffs, hfixed]
    rfl
  have hfill := encode_fields_scan (hfixed ▸ hfirst) hsorted' hle' hend
  have hlen : (fill data (scan (replicate n .var) data)).length = n := by
    simpa using hfill.2.length_eq.symm
  rw [encodeVariableList, hlen, ← fixed_len_replicate_var, ← zip_replicate_var hlen]
  exact hfill.1

/-! ## What is encoded is accepted -/

section

variable (hfits : Forall₂ Width.Fits layout fields)

include hfits

/-- What decoding finds in an encoding, behind the fields `head` and `tail` hold already: the two
sections as they were written, the remaining fields, and offsets that start behind `tail` and
increase. -/
theorem scan_encode_fields {fixed : ℕ} (head tail data : Bytes)
    (hlen : head.length + fixedLen layout = fixed)
    (hdata : encodeFields fixed (layout.zip fields) head tail = data)
    (hsize : data.length < 2 ^ 32) :
    ∃ rest, data = head ++ rest ∧ data.extract fixed (fixed + tail.length) = tail ∧
      fixed + tail.length ≤ data.length ∧ fill data (scan layout rest) = fields ∧
      fieldEnd data.length (scan layout rest) = fixed + tail.length ∧
      (offsets (scan layout rest)).Pairwise (· ≤ ·) ∧
      ∀ off ∈ offsets (scan layout rest), fixed + tail.length ≤ off ∧ off ≤ data.length := by
  induction hfits generalizing head tail with
  | nil =>
    simp only [fixedLen, map_nil, sum_nil, add_zero] at hlen
    subst hlen hdata
    exact ⟨tail, rfl, by simp [encodeFields], by simp [encodeFields], rfl,
      by simp [fieldEnd, scan, offsets, encodeFields], .nil, nofun⟩
  | @cons w field layout fields hw hfits ih =>
    rw [fixed_len_cons] at hlen
    cases w with
    | fixed n =>
      obtain rfl : field.length = n := hw
      obtain ⟨rest, hrest, htail, hbound, hfill, hend, hsorted, hoffs⟩ :=
        ih (head ++ field) tail (by rw [length_append, add_assoc]; exact hlen) hdata
      have hscan : scan (.fixed field.length :: layout) (field ++ rest) =
          .field field :: scan layout rest := by
        rw [scan, take_left, drop_left]
      refine ⟨field ++ rest, by rw [hrest, append_assoc], htail, hbound, ?_, ?_⟩ <;> rw [hscan]
      · rw [fill, hfill]
      · exact ⟨hend, hsorted, hoffs⟩
    | var =>
      obtain ⟨rest, hrest, htail, hbound, hfill, hend, hsorted, hoffs⟩ :=
        ih (head ++ uint32 (fixed + tail.length)) (tail ++ field)
          (by rw [length_append, length_uint32, add_assoc]; exact hlen) hdata
      rw [length_append] at hbound hoffs
      rw [length_append, ← add_assoc] at htail hend
      have hscan : scan (.var :: layout) (uint32 (fixed + tail.length) ++ rest) =
          .offset (fixed + tail.length) :: scan layout rest := by
        rw [scan, read_uint32_uint32 (by omega), drop_left' (length_uint32 _)]
      -- the piece behind `fixed` splits into what was there and the field
      have hsplit : data.extract fixed (fixed + tail.length) = tail ∧
          data.extract (fixed + tail.length) (fixed + tail.length + field.length) = field := by
        refine append_inj ?_ ?_
        · rw [extract_append_extract (le_add_right _ _) (le_add_right _ _), htail]
        · rw [length_extract (by omega), Nat.add_sub_cancel_left]
      refine ⟨uint32 (fixed + tail.length) ++ rest, by rw [hrest, append_assoc], hsplit.1,
        by omega, ?_⟩
      rw [hscan]
      refine ⟨by rw [fill, hend, hfill, hsplit.2], rfl,
        pairwise_cons.mpr ⟨fun off hoff => ?_, hsorted⟩,
        forall_mem_cons.mpr ⟨⟨le_refl _, by omega⟩, fun off hoff => ?_⟩⟩
      · have hle := (hoffs off hoff).1
        omega
      · have hle := hoffs off hoff
        omega

theorem sum_field_size :
    fixedLen layout ≤ ((layout.zip fields).map fieldSize).sum ∧
      (.var ∉ layout → ((layout.zip fields).map fieldSize).sum = fixedLen layout) := by
  induction hfits with
  | nil => simp [fixedLen]
  | @cons w field layout fields hw _ ih =>
    simp only [fixedLen, zip_cons_cons, map_cons, sum_cons] at ih ⊢
    cases w with
    | fixed n =>
      simp only [fieldSize, Width.fixedLen, show field.length = n from hw, mem_cons,
        reduceCtorEq, false_or]
      exact ⟨by omega, fun h => by rw [ih.2 h]⟩
    | var =>
      simp only [fieldSize, Width.fixedLen, mem_cons, true_or, not_true, false_implies, and_true]
      omega

/-- What is encoded with offsets below 2^32 is accepted. -/
theorem decode_encode (hsize : (encode layout fields).length < 2 ^ 32) :
    decode layout (encode layout fields) = .ok fields := by
  obtain ⟨rest, hrest, -, -, hfill, hend, hsorted, hoffs⟩ :=
    scan_encode_fields hfits [] [] (encode layout fields) (by simp) rfl hsize
  obtain rfl : _ = rest := hrest
  obtain ⟨hle, heq⟩ := sum_field_size hfits
  rw [← length_encode] at hle heq
  simp only [decode, seq_eq_ok, reject_if_eq_ok, check_offsets_eq_ok]
  refine ⟨not_lt.mpr hle, fun h => h.2 (heq h.1), ?_, ⟨?_, fun off hoff => (hoffs off hoff).2⟩, ?_⟩
  · rintro ⟨off, hoff, hne⟩
    cases hparts : offsets (scan layout (encode layout fields)) with
    | nil => simp [hparts] at hoff
    | cons first rest =>
      rw [fieldEnd, hparts] at hend
      rw [hparts] at hoff
      exact hne ((Option.some.inj hoff).symm.trans hend)
  · exact pairwise_cons.mpr ⟨fun off _ => zero_le off, hsorted⟩
  · exact congrArg ok hfill

end

theorem scan_encode_variable_list (hdata : encodeVariableList elems = data)
    (hsize : data.length < 2 ^ 32) :
    fill data (scan (replicate elems.length .var) data) = elems ∧
      (elems ≠ [] → (readUint32 data).toNat = bytesPerLengthOffset * elems.length) ∧
      (offsets (scan (replicate elems.length .var) data)).Pairwise (· ≤ ·) ∧
      ∀ off ∈ offsets (scan (replicate elems.length .var) data), off ≤ data.length := by
  have hfits : Forall₂ Width.Fits (replicate elems.length .var) elems :=
    forall₂_iff_get.mpr ⟨by simp, fun i h₁ h₂ => by simp [Width.Fits]⟩
  have hzip := zip_replicate_var (rfl : elems.length = elems.length)
  obtain ⟨rest, hrest, -, -, hfill, hend, hsorted, hle⟩ := scan_encode_fields hfits [] [] data
    (by simp [fixed_len_replicate_var] : _ = bytesPerLengthOffset * elems.length)
    (by rw [hzip]; exact hdata) hsize
  obtain rfl : data = rest := hrest
  refine ⟨hfill, fun hne => ?_, hsorted, fun off hoff => (hle off hoff).2⟩
  obtain ⟨e, rest, rfl⟩ := exists_cons_of_ne_nil hne
  simpa [replicate_succ, scan, fieldEnd, offsets] using hend

theorem length_encode_variable_list (elems : List Bytes) :
    (encodeVariableList elems).length =
      (elems.map fun e => bytesPerLengthOffset + e.length).sum := by
  rw [encodeVariableList, length_encode_fields]
  simp [Function.comp_def, fieldSize]

theorem table_le_encode_variable_list (elems : List Bytes) :
    bytesPerLengthOffset * elems.length ≤ (encodeVariableList elems).length := by
  rw [length_encode_variable_list]
  induction elems with
  | nil => simp
  | cons e rest ih =>
    rw [map_cons, sum_cons, length_cons, mul_succ]
    omega

theorem length_le_encode_variable_list {e : Bytes} (h : e ∈ elems) :
    e.length ≤ (encodeVariableList elems).length := by
  rw [length_encode_variable_list]
  refine (le_add_left _ bytesPerLengthOffset).trans ?_
  exact le_sum_of_mem (mem_map.mpr ⟨e, h, rfl⟩)

/-- A list of variable elements decodes from its own encoding. -/
theorem decode_encode_variable_list (hlimit : (elems.length : ℤ) ≤ limit)
    (hmin : ∀ e ∈ elems, minElemSize ≤ e.length)
    (hsize : (encodeVariableList elems).length < 2 ^ 32) :
    decodeVariableList (encodeVariableList elems) limit minElemSize = .ok elems := by
  cases elems with
  | nil => rfl
  | cons e rest =>
    obtain ⟨hfill, hfirst, hsorted, hle⟩ := scan_encode_variable_list rfl hsize
    have htable := table_le_encode_variable_list (e :: rest)
    have hshort : (e :: rest).length * (bytesPerLengthOffset + minElemSize) ≤
        (encodeVariableList (e :: rest)).length := by
      rw [length_encode_variable_list]
      have hcard := card_nsmul_le_sum
        ((e :: rest).map fun x => bytesPerLengthOffset + x.length)
        (bytesPerLengthOffset + minElemSize) (by
          intro x hx
          obtain ⟨y, hy, rfl⟩ := mem_map.mp hx
          exact Nat.add_le_add_left (hmin y hy) _)
      simpa using hcard
    generalize hdata : encodeVariableList (e :: rest) = data at *
    have hn := hfirst (by simp)
    simp only [bytesPerLengthOffset, length_cons] at hn htable hshort
    have hcount : (readUint32 data).toNat / bytesPerLengthOffset = (e :: rest).length := by
      simp only [hn, bytesPerLengthOffset, length_cons]
      omega
    have hroom : (e :: rest).length ≤ data.length / (bytesPerLengthOffset + minElemSize) := by
      rw [le_div_iff_mul_le (by simp [bytesPerLengthOffset])]
      simpa [bytesPerLengthOffset] using hshort
    unfold decodeVariableList
    simp only [hcount]
    rw [if_neg (by omega)]
    simp only [seq_eq_ok, reject_if_eq_ok, check_offsets_eq_ok, pure_eq_ok, hfill, and_true]
    refine ⟨by simp only [bytesPerLengthOffset]; omega, ?_, by omega, by omega, ?_, ?_⟩
    · simp only [bytesPerLengthOffset]
      omega
    · exact hsorted
    · intro off hoff
      exact hle off (mem_of_mem_tail hoff)

/-- A list is determined by its encoding. -/
theorem encode_variable_list_injective {xs ys : List Bytes}
    (h : encodeVariableList xs = encodeVariableList ys)
    (hsize : (encodeVariableList xs).length < 2 ^ 32) : xs = ys := by
  have hx := decode_encode_variable_list (le_max_left (xs.length : ℤ) ys.length)
    (fun _ _ => zero_le _) hsize
  have hy := decode_encode_variable_list (le_max_right (xs.length : ℤ) ys.length)
    (fun _ _ => zero_le _) (h ▸ hsize)
  exact ok.inj (hx.symm.trans (h ▸ hy))

theorem decode_fixed_list_eq_ok {elemSize : ℕ} (hsize : 0 < elemSize) :
    decodeFixedList data elemSize limit = .ok elems ↔
      elems.flatten = data ∧ (∀ e ∈ elems, e.length = elemSize) ∧ elems.length ≤ limit := by
  simp only [decodeFixedList, Except.seq_eq_ok, reject_if_eq_ok, Except.pure_eq_ok, not_not, not_lt,
    gt_iff_lt]
  constructor
  · rintro ⟨hwhole, hlimit, rfl⟩
    exact ⟨flatten_chunks (Nat.dvd_of_mod_eq_zero hwhole), fun e he => length_of_mem_chunks he,
      by simpa [chunks] using hlimit⟩
  · rintro ⟨rfl, helems, hlimit⟩
    have hlen : elems.flatten.length = elems.length * elemSize := by
      rw [length_flatten, map_congr_left helems]
      simp
    rw [hlen, Nat.mul_mod_left, Nat.mul_div_cancel _ hsize]
    exact ⟨rfl, hlimit, chunks_flatten hsize helems⟩

end Ssz

end Zycord
