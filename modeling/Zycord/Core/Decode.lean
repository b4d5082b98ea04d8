import Zycord.Core.Block
import Zycord.Core.SszDecode

/-!
# Decoding consensus objects

The decoders of package `core/types`. Each has a specification of the same form: it returns an
object exactly for the object's encoding, if the object has the canonical form the decoder checks
(`unmarshal_read_eq_ok` and its siblings; `unmarshal_list_eq_ok` for the lists). Whatever decodes is
therefore the encoding of what it decodes to: `decoding_canonical`.
-/

namespace Zycord

variable {b : Bytes}

open Bytes32 Except ByteString Ssz List

/-! ## Bytes -/

/-- Bytes read as a big-endian number. -/
def Bytes32.ofBytes (b : Bytes) : Bytes32 := ⟨bigEndianNat b % 2 ^ 256, Nat.mod_lt _ (by decide)⟩

namespace Bytes32

@[simp] theorem of_bytes_bytes (a : Bytes32) : ofBytes a.bytes = a := by
  have hnat : (ofBytes a.bytes).toNat = bigEndianNat a.bytes % 2 ^ 256 := rfl
  rw [big_endian_nat_bytes] at hnat
  exact ext (hnat.trans (Nat.mod_eq_of_lt a.isLt))

@[simp] theorem of_bytes_take (a : Bytes32) : ofBytes (a.bytes.take 32) = a := by
  rw [take_of_length_le (le_of_eq a.length_bytes), of_bytes_bytes]

theorem bytes_of_bytes (h : b.length = 32) : (ofBytes b).bytes = b := by
  have hlen : b.reverse.length = 32 := by rw [length_reverse, h]
  have hlt := little_endian_nat_lt b.reverse
  rw [hlen] at hlt
  have hnat : (ofBytes b).toNat = littleEndianNat b.reverse := Nat.mod_eq_of_lt hlt
  have hrev := reverse_bytes (ofBytes b)
  rw [hnat, ← hlen, bytes_little_endian_nat] at hrev
  exact reverse_injective hrev

theorem bytes_injective : Function.Injective bytes := fun a b h => by
  rw [← of_bytes_bytes a, h, of_bytes_bytes]

theorem bytes_extract {i j : ℕ} (hj : j = i + 32) (h : j ≤ b.length) :
    (ofBytes (b.extract i j)).bytes = b.extract i j :=
  bytes_of_bytes (by rw [length_extract h]; omega)

end Bytes32

/-! ## Records of fixed width -/

/-- Decode a slot. -/
def unmarshalSlot (b : Bytes) : Except DecodeError Slot := do
  rejectIf (b.length ≠ 64) .malformed
  return ⟨.ofBytes (b.extract 0 32), .ofBytes (b.extract 32 64)⟩

@[simp] theorem Slot.length_marshal (s : Slot) : s.marshal.length = 64 := by
  simp [marshal]

theorem unmarshal_slot_eq_ok {s : Slot} : unmarshalSlot b = .ok s ↔ s.marshal = b := by
  simp only [unmarshalSlot, seq_eq_ok, reject_if_eq_ok, not_not, pure_eq_ok]
  constructor
  · rintro ⟨hlen, rfl⟩
    simp (disch := omega) only [Slot.marshal, bytes_extract, extract_append_extract,
      extract_self]
  · rintro rfl
    exact ⟨s.length_marshal, by simp [Slot.marshal]⟩

/-- The access of a code. -/
def Access.ofByte (b : UInt8) : Access :=
  if b = 0 then .exact else if b = 1 then .guardGE else if b = 2 then .guardLE
  else if b = 3 then .guardEQ
  else .unknown ⟨b.toNat - 4, by have := b.toNat_lt; omega⟩

/-- The operation of a code. -/
def Op.ofByte (b : UInt8) : Op :=
  if b = 0 then .set else if b = 1 then .deltaAdd else if b = 2 then .deltaSub
  else if b = 3 then .markSpent
  else .unknown ⟨b.toNat - 4, by have := b.toNat_lt; omega⟩

theorem byte_cases {b : UInt8} (h : ¬ b > 3) : b = 0 ∨ b = 1 ∨ b = 2 ∨ b = 3 := by
  simp only [gt_iff_lt, UInt8.lt_iff_toNat_lt, ← UInt8.toNat_inj] at h ⊢
  have hnat : b.toNat = 0 ∨ b.toNat = 1 ∨ b.toNat = 2 ∨ b.toNat = 3 := by
    have h3 : (3 : UInt8).toNat = 3 := rfl
    omega
  exact hnat

theorem unknown_byte (code : Fin 252) : UInt8.ofNat (code + 4) > 3 := by
  rw [gt_iff_lt, UInt8.lt_iff_toNat_lt, UInt8.toNat_ofNat_of_lt' (by simp [UInt8.size]; omega)]
  simp

theorem Access.byte_of_byte {b : UInt8} (h : ¬ b > 3) : (Access.ofByte b).byte = b := by
  rcases byte_cases h with rfl | rfl | rfl | rfl <;> rfl

variable {a : Access} {op : Op}

theorem Access.of_byte_byte (h : ¬ a.byte > 3) : Access.ofByte a.byte = a := by
  cases a with
  | unknown code => exact absurd (unknown_byte code) h
  | _ => rfl

theorem Op.byte_of_byte {b : UInt8} (h : ¬ b > 3) : (Op.ofByte b).byte = b := by
  rcases byte_cases h with rfl | rfl | rfl | rfl <;> rfl

theorem Op.of_byte_byte (h : ¬ op.byte > 3) : Op.ofByte op.byte = op := by
  cases op with
  | unknown code => exact absurd (unknown_byte code) h
  | _ => rfl

theorem Access.byte_le (h : ∀ code, a ≠ .unknown code) : ¬ a.byte > 3 := by
  cases a with
  | unknown code => exact absurd rfl (h code)
  | _ => decide

theorem Op.byte_le (h : ∀ code, op ≠ .unknown code) : ¬ op.byte > 3 := by
  cases op with
  | unknown code => exact absurd rfl (h code)
  | _ => decide

/-- Decode a read, refusing access disciplines out of range. -/
def unmarshalRead (b : Bytes) : Except DecodeError Read := do
  rejectIf (b.length ≠ 97) .malformed
  let slot ← unmarshalSlot (b.extract 0 64)
  rejectIf (b.getD 64 0 > 3) .malformed
  return ⟨slot, .ofByte (b.getD 64 0), .fromBytes (.ofBytes (b.extract 65 97))⟩

@[simp] theorem Read.length_marshal (r : Read) : r.marshal.length = 97 := by
  simp [marshal]

theorem extract_byte {i : ℕ} (h : i < b.length) : b.extract i (i + 1) = [b.getD i 0] := by
  simp only [List.extract, Nat.add_sub_cancel_left, take_one, List.head?_drop]
  simp [h]

/-- A read decodes from its own bytes alone, with a known access kind. -/
theorem unmarshal_read_eq_ok {r : Read} :
    unmarshalRead b = .ok r ↔ r.marshal = b ∧ ¬ r.access.byte > 3 := by
  simp only [unmarshalRead, seq_eq_ok, reject_if_eq_ok, not_not, pure_eq_ok,
    bind_eq_ok (x := unmarshalSlot _), unmarshal_slot_eq_ok]
  constructor
  · rintro ⟨hlen, slot, hslot, hknown, rfl⟩
    refine ⟨?_, by rwa [Access.byte_of_byte hknown]⟩
    simp (disch := omega) only [Read.marshal, hslot, Access.byte_of_byte hknown,
      U256.bytes32_from_bytes, bytes_extract, ← extract_byte, extract_append_extract,
      extract_self]
  · rintro ⟨rfl, hknown⟩
    have hbyte : r.marshal.getD 64 0 = r.access.byte := by simp [Read.marshal]
    refine ⟨r.length_marshal, r.slot, ?_, by rwa [hbyte], ?_⟩
    · simp [Read.marshal]
    · rw [hbyte, Access.of_byte_byte hknown]
      simp [Read.marshal, drop_append, drop_eq_nil_of_le]

/-- Decode a write, refusing operations out of range and a burn that names a word or a value. -/
def unmarshalWrite (b : Bytes) : Except DecodeError Write := do
  rejectIf (b.length ≠ 97) .malformed
  let slot ← unmarshalSlot (b.extract 0 64)
  rejectIf (b.getD 64 0 > 3) .malformed
  let w : Write := ⟨slot, .ofByte (b.getD 64 0), .fromBytes (.ofBytes (b.extract 65 97))⟩
  rejectIf (w.op = .markSpent ∧ (w.slot.word ≠ 0 ∨ w.value.isZero = false)) .malformed
  return w

/-- A write in the form the decoder accepts. -/
structure Write.Canonical (w : Write) : Prop where
  known : ¬ w.op.byte > 3
  burn : w.op = .markSpent → w.slot.word = 0 ∧ w.value = 0

@[simp] theorem Write.length_marshal (w : Write) : w.marshal.length = 97 := by
  simp [marshal]

/-- A write decodes from its own bytes alone. -/
theorem unmarshal_write_eq_ok {w : Write} :
    unmarshalWrite b = .ok w ↔ w.marshal = b ∧ w.Canonical := by
  have hburn : ∀ w : Write, (¬ (w.op = .markSpent ∧ (w.slot.word ≠ 0 ∨ w.value.isZero = false))) ↔
      (w.op = .markSpent → w.slot.word = 0 ∧ w.value = 0) := fun w => by
    simp
  simp only [unmarshalWrite, seq_eq_ok, reject_if_eq_ok, not_not, pure_eq_ok,
    bind_eq_ok (x := unmarshalSlot _), unmarshal_slot_eq_ok]
  constructor
  · rintro ⟨hlen, slot, hslot, hknown, hspent, rfl⟩
    refine ⟨?_, by rwa [Op.byte_of_byte hknown], (hburn _).mp hspent⟩
    simp (disch := omega) only [Write.marshal, hslot, Op.byte_of_byte hknown,
      U256.bytes32_from_bytes, bytes_extract, ← extract_byte, extract_append_extract,
      extract_self]
  · rintro ⟨rfl, hknown, hspent⟩
    have hbyte : w.marshal.getD 64 0 = w.op.byte := by simp [Write.marshal]
    have hvalue : U256.fromBytes (.ofBytes (w.marshal.extract 65 97)) = w.value := by
      simp [Write.marshal, drop_append, drop_eq_nil_of_le]
    refine ⟨w.length_marshal, w.slot, by simp [Write.marshal], by rwa [hbyte], ?_⟩
    rw [hbyte, Op.of_byte_byte hknown, hvalue]
    exact ⟨(hburn w).mpr hspent, rfl⟩

/-- Decode a signature pair. -/
def unmarshalSig (b : Bytes) : Except DecodeError Sig := do
  rejectIf (b.length ≠ 96) .malformed
  return ⟨.ofBytes (b.extract 0 32), .ofBytes (b.extract 32 64), .ofBytes (b.extract 64 96)⟩

@[simp] theorem Sig.length_marshal (s : Sig) : s.marshal.length = 96 := by
  simp [marshal]

theorem unmarshal_sig_eq_ok {s : Sig} : unmarshalSig b = .ok s ↔ s.marshal = b := by
  simp only [unmarshalSig, seq_eq_ok, reject_if_eq_ok, not_not, pure_eq_ok]
  constructor
  · rintro ⟨hlen, rfl⟩
    simp (disch := omega) only [Sig.marshal, bytes_extract, extract_append_extract,
      extract_self]
  · rintro rfl
    exact ⟨s.length_marshal, by
      simp [Sig.marshal, drop_append, drop_eq_nil_of_le]⟩

/-- Decode a deposit. -/
def unmarshalDeposit (b : Bytes) : Except DecodeError Deposit := do
  rejectIf (b.length ≠ 160) .malformed
  let cell ← unmarshalSlot (b.extract 0 64)
  let refund ← unmarshalSlot (b.extract 96 160)
  return ⟨cell, .fromBytes (.ofBytes (b.extract 64 96)), refund⟩

@[simp] theorem Deposit.length_marshal (d : Deposit) : d.marshal.length = 160 := by
  simp [marshal]

theorem unmarshal_deposit_eq_ok {d : Deposit} :
    unmarshalDeposit b = .ok d ↔ d.marshal = b := by
  simp only [unmarshalDeposit, seq_eq_ok, reject_if_eq_ok, not_not, pure_eq_ok,
    bind_eq_ok (x := unmarshalSlot _), unmarshal_slot_eq_ok]
  constructor
  · rintro ⟨hlen, cell, hcell, refund, hrefund, rfl⟩
    simp (disch := omega) only [Deposit.marshal, hcell, hrefund, U256.bytes32_from_bytes,
      bytes_extract, extract_append_extract, extract_self]
  · rintro rfl
    have hrefund : d.marshal.extract 96 160 = d.refundTo.marshal := by
      simp [Deposit.marshal, drop_append, take_of_length_le]
    exact ⟨d.length_marshal, d.cell, by simp [Deposit.marshal], d.refundTo, hrefund.symm, by
      simp [Deposit.marshal]⟩

/-- Decode a fee bid, refusing a priority above its maximum. -/
def unmarshalFeeBid (b : Bytes) : Except DecodeError FeeBid := do
  rejectIf (b.length ≠ 128) .malformed
  let f : FeeBid :=
    ⟨.fromBytes (.ofBytes (b.extract 0 32)), .fromBytes (.ofBytes (b.extract 32 64)),
    .fromBytes (.ofBytes (b.extract 64 96)), .fromBytes (.ofBytes (b.extract 96 128))⟩
  rejectIf (f.seqPriority > f.seqMax ∨ f.parPriority > f.parMax) .malformed
  return f

@[simp] theorem FeeBid.length_marshal (f : FeeBid) : f.marshal.length = 128 := by
  simp [marshal]

/-- A fee bid decodes from its own bytes alone, with each tip within its maximum. -/
theorem unmarshal_fee_bid_eq_ok {f : FeeBid} :
    unmarshalFeeBid b = .ok f ↔
      f.marshal = b ∧ f.seqPriority ≤ f.seqMax ∧ f.parPriority ≤ f.parMax := by
  simp only [unmarshalFeeBid, seq_eq_ok, reject_if_eq_ok, not_not, pure_eq_ok,
    not_or, not_lt, gt_iff_lt]
  constructor
  · rintro ⟨hlen, hle, rfl⟩
    refine ⟨?_, hle⟩
    simp (disch := omega) only [FeeBid.marshal, U256.bytes32_from_bytes, bytes_extract,
      extract_append_extract, extract_self]
  · rintro ⟨rfl, hle⟩
    have hread : Bytes32.ofBytes (f.marshal.extract 0 32) = f.seqMax.bytes32 ∧
        Bytes32.ofBytes (f.marshal.extract 32 64) = f.seqPriority.bytes32 ∧
        Bytes32.ofBytes (f.marshal.extract 64 96) = f.parMax.bytes32 ∧
        Bytes32.ofBytes (f.marshal.extract 96 128) = f.parPriority.bytes32 := by
      simp [FeeBid.marshal, drop_append, drop_eq_nil_of_le]
    obtain ⟨hsm, hsp, hpm, hpp⟩ := hread
    rw [hsm, hsp, hpm, hpp]
    exact ⟨f.length_marshal, hle, rfl⟩

/-- Decode a move. -/
def unmarshalMove (b : Bytes) : Except DecodeError Move := do
  rejectIf (b.length ≠ 128) .malformed
  return ⟨.ofBytes (b.extract 0 32), .ofBytes (b.extract 32 64), .ofBytes (b.extract 64 96),
    .fromBytes (.ofBytes (b.extract 96 128))⟩

@[simp] theorem Move.length_marshal (m : Move) : m.marshal.length = 128 := by
  simp [marshal]

theorem unmarshal_move_eq_ok {m : Move} : unmarshalMove b = .ok m ↔ m.marshal = b := by
  simp only [unmarshalMove, seq_eq_ok, reject_if_eq_ok, not_not, pure_eq_ok]
  constructor
  · rintro ⟨hlen, rfl⟩
    simp (disch := omega) only [Move.marshal, U256.bytes32_from_bytes, bytes_extract,
      extract_append_extract, extract_self]
  · rintro rfl
    exact ⟨m.length_marshal, by simp [Move.marshal, drop_append, drop_eq_nil_of_le]⟩

/-- Decode the parameters of an issue. -/
def unmarshalIssueArgs (b : Bytes) : Except DecodeError IssueArgs := do
  rejectIf (b.length ≠ 129) .malformed
  return ⟨.ofBytes (b.extract 0 32), .fromBytes (.ofBytes (b.extract 32 64)),
    .ofBytes (b.extract 64 96), .ofBytes (b.extract 96 128), b.getD 128 0⟩

@[simp] theorem IssueArgs.length_marshal (args : IssueArgs) : args.marshal.length = 129 := by
  simp [marshal]

theorem unmarshal_issue_args_eq_ok {args : IssueArgs} :
    unmarshalIssueArgs b = .ok args ↔ args.marshal = b := by
  simp only [unmarshalIssueArgs, seq_eq_ok, reject_if_eq_ok, not_not, pure_eq_ok]
  constructor
  · rintro ⟨hlen, rfl⟩
    simp (disch := omega) only [IssueArgs.marshal, U256.bytes32_from_bytes, bytes_extract,
      ← extract_byte, extract_append_extract, extract_self]
  · rintro rfl
    exact ⟨args.length_marshal, by
      simp [IssueArgs.marshal, drop_append, drop_eq_nil_of_le]⟩

/-- Decode the parameters of a mint. -/
def unmarshalMintArgs (b : Bytes) : Except DecodeError MintArgs := do
  rejectIf (b.length ≠ 160) .malformed
  return ⟨.ofBytes (b.extract 0 32), .ofBytes (b.extract 32 64),
    .fromBytes (.ofBytes (b.extract 64 96)), .fromBytes (.ofBytes (b.extract 96 128)),
    .ofBytes (b.extract 128 160)⟩

@[simp] theorem MintArgs.length_marshal (args : MintArgs) : args.marshal.length = 160 := by
  simp [marshal]

theorem unmarshal_mint_args_eq_ok {args : MintArgs} :
    unmarshalMintArgs b = .ok args ↔ args.marshal = b := by
  simp only [unmarshalMintArgs, seq_eq_ok, reject_if_eq_ok, not_not, pure_eq_ok]
  constructor
  · rintro ⟨hlen, rfl⟩
    simp (disch := omega) only [MintArgs.marshal, U256.bytes32_from_bytes, bytes_extract,
      extract_append_extract, extract_self]
  · rintro rfl
    exact ⟨args.length_marshal, by
      simp [MintArgs.marshal, drop_append, drop_eq_nil_of_le]⟩

/-- Decode a proof-of-work seal. -/
def unmarshalPoWSeal (b : Bytes) : Except DecodeError PoWSeal := do
  rejectIf (b.length ≠ 16) .malformed
  return ⟨readUint32 (b.extract 0 4), readUint32 (b.extract 4 8), readUint64 (b.extract 8 16)⟩

@[simp] theorem PoWSeal.length_marshal (s : PoWSeal) : s.marshal.length = 16 := by
  simp [marshal, bytesPerLengthOffset]

/-- A seal decodes from its own bytes alone. -/
theorem unmarshal_pow_seal_eq_ok {s : PoWSeal} :
    unmarshalPoWSeal b = .ok s ↔ s.marshal = b := by
  simp only [unmarshalPoWSeal, seq_eq_ok, reject_if_eq_ok, not_not, pure_eq_ok]
  constructor
  · rintro ⟨hlen, rfl⟩
    simp only [PoWSeal.marshal]
    rw [uint32_read_uint32 (by rw [length_extract (by omega)]),
      uint32_read_uint32 (by rw [length_extract (by omega)]),
      uint64_read_uint64 (by rw [length_extract (by omega)]),
      extract_append_extract (by omega) (by omega), extract_append_extract (by omega) (by omega),
      extract_self (by omega)]
  · rintro rfl
    have hnonce : s.marshal.extract 0 4 = uint32 s.nonce.toNat := by
      simp [PoWSeal.marshal, bytesPerLengthOffset]
    have hextra : s.marshal.extract 4 8 = uint32 s.extraNonce.toNat := by
      simp [PoWSeal.marshal, bytesPerLengthOffset]
    have hepoch : s.marshal.extract 8 16 = uint64 s.seedEpoch := by
      rfl
    rw [hnonce, hextra, hepoch]
    exact ⟨s.length_marshal, by simp⟩

/-- Decode a header. -/
def unmarshalHeader (b : Bytes) : Except DecodeError Header := do
  let fields ← Ssz.decode Header.layout b
  let field := fun i => fields.getD i []
  let pow ← unmarshalPoWSeal (field 8)
  return {
    version := readUint32 (field 0)
    height := readUint64 (field 1)
    parentID := .ofBytes (field 2)
    time := readUint64 (field 3)
    certRoot := .ofBytes (field 4)
    citesRoot := .ofBytes (field 5)
    stateRoot := .ofBytes (field 6)
    emissionAddr := .ofBytes (field 7)
    pow
    target := .fromBytes (.ofBytes (field 9))
    powHash := .ofBytes (field 10) }

/-- A header decodes from its own bytes alone. -/
theorem unmarshal_header_eq_ok {h : Header} :
    unmarshalHeader b = .ok h ↔ h.marshal = b := by
  simp only [unmarshalHeader, bind_eq_ok, pure_eq_ok, unmarshal_pow_seal_eq_ok]
  constructor
  · rintro ⟨fields, hdecode, pow, hpow, rfl⟩
    obtain ⟨hencode, hfits⟩ := encode_of_decode hdecode
    simp only [Header.layout, forall₂_cons_left_iff, forall₂_nil_left_iff, Width.Fits] at hfits
    obtain ⟨f0, _, h0, ⟨f1, _, h1, ⟨f2, _, h2, ⟨f3, _, h3, ⟨f4, _, h4, ⟨f5, _, h5, ⟨f6, _, h6,
      ⟨f7, _, h7, ⟨f8, _, h8, ⟨f9, _, h9, ⟨f10, _, h10, rfl, rfl⟩, rfl⟩, rfl⟩, rfl⟩, rfl⟩, rfl⟩,
      rfl⟩, rfl⟩, rfl⟩, rfl⟩, rfl⟩ := hfits
    simp only [getD_cons_zero, getD_cons_succ] at hpow ⊢
    rw [Header.marshal]
    simp only [hpow, U256.bytes32_from_bytes, uint32_read_uint32 h0, uint64_read_uint64 h1,
      uint64_read_uint64 h3, bytes_of_bytes h2, bytes_of_bytes h4,
      bytes_of_bytes h5, bytes_of_bytes h6, bytes_of_bytes h7,
      bytes_of_bytes h9, bytes_of_bytes h10]
    exact hencode
  · rintro rfl
    refine ⟨_, decode_encode ?_ ?_, h.pow, by simp, by simp⟩
    · simp [Header.layout, Width.Fits, bytesPerLengthOffset]
    · have hlen := h.length_marshal
      rw [Header.marshal] at hlen
      rw [hlen]
      decide

theorem header_marshal_injective {h h' : Header} (heq : h.marshal = h'.marshal) : h = h' := by
  have hread := unmarshal_header_eq_ok.mpr heq
  rw [unmarshal_header_eq_ok.mpr rfl] at hread
  exact (ok.inj hread).symm

/-! ## Lists -/

/-- Decode the elements of a list one after another, each against the one before it. -/
def unmarshalEach {α : Type} (dec : Bytes → Except DecodeError α) (ordered : α → α → Prop)
    [DecidableRel ordered] : Option α → List Bytes → Except DecodeError (List α)
  | _, [] => .ok []
  | prev, e :: rest => do
      let x ← dec e
      rejectIf (∃ y ∈ prev, ¬ ordered y x) .malformed
      let xs ← unmarshalEach dec ordered (some x) rest
      return x :: xs

/-- Decode a list of fixed-size elements under its limit. -/
def unmarshalList {α : Type} (dec : Bytes → Except DecodeError α) (ordered : α → α → Prop)
    [DecidableRel ordered] (elemSize : ℕ) (limit : Int64) (data : Bytes) :
    Except DecodeError (List α) := do
  let elems ← decodeFixedList data elemSize limit.toInt
  unmarshalEach dec ordered none elems

section Lists

variable {α : Type} {dec : Bytes → Except DecodeError α} {ordered : α → α → Prop}
  [DecidableRel ordered] (marshal : α → Bytes) (Canonical : α → Prop) {elemSize : ℕ}
  (hdec : ∀ {b x}, b.length = elemSize → (dec b = .ok x ↔ marshal x = b ∧ Canonical x))

include hdec

variable {xs : List α}

/-- A list decodes element by element, each canonical and in order. -/
theorem unmarshal_each_eq_ok {prev : Option α} {elems : List Bytes}
    (helems : ∀ e ∈ elems, e.length = elemSize) :
    unmarshalEach dec ordered prev elems = .ok xs ↔
      xs.map marshal = elems ∧ (∀ x ∈ xs, Canonical x) ∧ (prev.toList ++ xs).IsChain ordered := by
  induction elems generalizing prev xs with
  | nil => cases prev <;> cases xs <;> simp [unmarshalEach]
  | cons e rest ih =>
    have he := helems e mem_cons_self
    have hrest : ∀ e ∈ rest, e.length = elemSize :=
      fun e he => helems e (mem_cons_of_mem _ he)
    simp only [unmarshalEach, bind_eq_ok (x := dec e), seq_eq_ok, reject_if_eq_ok,
      bind_eq_ok (x := unmarshalEach _ _ _ _), ih hrest, hdec he, pure_eq_ok]
    constructor
    · rintro ⟨x, ⟨hx, hcx⟩, hprev, xs', ⟨hxs, hcxs, hchain⟩, rfl⟩
      refine ⟨by simp [hx, hxs], forall_mem_cons.mpr ⟨hcx, hcxs⟩, ?_⟩
      cases prev with
      | none => simpa using hchain
      | some y =>
        have hyx : ordered y x := by simpa using hprev
        exact List.IsChain.cons_cons hyx (by simpa using hchain)
    · rintro ⟨hmap, hcanon, hchain⟩
      cases xs with
      | nil => simp at hmap
      | cons x xs =>
        obtain ⟨hx, hxs⟩ := cons.inj hmap
        obtain ⟨hcx, hcxs⟩ := forall_mem_cons.mp hcanon
        refine ⟨x, ⟨hx, hcx⟩, ?_, xs, ⟨hxs, hcxs, ?_⟩, rfl⟩
        · cases prev with
          | none => simp
          | some y => simpa using (isChain_cons_cons.mp hchain).1
        · cases prev with
          | none => simpa using hchain
          | some y => simpa using (isChain_cons_cons.mp hchain).2

/-- A list decoder accepts exactly the concatenated encodings of at most `limit` canonical elements
in order. -/
theorem unmarshal_list_eq_ok (hsize : 0 < elemSize)
    (hmarshal : ∀ x, (marshal x).length = elemSize) {limit : Int64} {data : Bytes} :
    unmarshalList dec ordered elemSize limit data = .ok xs ↔
      xs.flatMap marshal = data ∧ (xs.length : ℤ) ≤ limit.toInt ∧ (∀ x ∈ xs, Canonical x) ∧
        xs.IsChain ordered := by
  have hmap : ∀ e ∈ xs.map marshal, e.length = elemSize := by
    intro e he
    obtain ⟨x, -, rfl⟩ := mem_map.mp he
    exact hmarshal x
  simp only [unmarshalList, bind_eq_ok, decode_fixed_list_eq_ok hsize]
  constructor
  · rintro ⟨elems, ⟨rfl, helems, hlimit⟩, hxs⟩
    obtain ⟨rfl, hcanon, hchain⟩ := (unmarshal_each_eq_ok marshal Canonical hdec helems).mp hxs
    exact ⟨flatMap_def, by simpa using hlimit, hcanon, hchain⟩
  · rintro ⟨rfl, hlimit, hcanon, hchain⟩
    exact ⟨xs.map marshal, ⟨flatMap_def.symm, hmap, by simpa using hlimit⟩,
      (unmarshal_each_eq_ok marshal Canonical hdec hmap).mpr ⟨rfl, hcanon, hchain⟩⟩

end Lists

/-! ## Programs -/

/-- Decode a program under the limits of its lists. -/
def unmarshalProgram (b : Bytes) (maxMoves maxRetire : Int64) : Except DecodeError Program := do
  let fields ← Ssz.decode [.fixed 1, .var] b
  let kind := (fields.getD 0 []).getD 0 0
  let body := fields.getD 1 []
  if kind = 0 then
    let moves ← unmarshalList unmarshalMove (fun _ _ => True) 128 maxMoves body
    return .transfer moves
  else if kind = 1 then
    let args ← unmarshalIssueArgs body
    return .issue args
  else if kind = 2 then
    let args ← unmarshalMintArgs body
    return .mint args
  else if kind = 3 then
    let addrs ← unmarshalList (fun e => .ok (Bytes32.ofBytes e)) (· < ·) 32 maxRetire body
    return .retire addrs
  else .error .programKind

/-- A program in the form the decoder accepts. -/
def Program.Canonical (maxMoves maxRetire : Int64) : Program → Prop
  | transfer moves => (moves.length : ℤ) ≤ maxMoves.toInt
  | retire addrs => (addrs.length : ℤ) ≤ maxRetire.toInt ∧ addrs.IsChain (· < ·)
  | _ => True

variable {limit maxMoves maxRetire : Int64} {data : Bytes} {prog : Program} {c : Certificate}

theorem unmarshal_moves_eq_ok {moves : List Move} :
    unmarshalList unmarshalMove (fun _ _ => True) 128 limit data = .ok moves ↔
      moves.flatMap Move.marshal = data ∧ (moves.length : ℤ) ≤ limit.toInt := by
  rw [unmarshal_list_eq_ok Move.marshal (fun _ => True)
    (fun _ => by rw [unmarshal_move_eq_ok, and_true]) (by decide) Move.length_marshal]
  have hchain : moves.IsChain fun _ _ => True := (pairwise_of_forall fun _ _ => trivial).isChain
  simp [hchain]

theorem unmarshal_addrs_eq_ok {addrs : List Address} :
    unmarshalList (fun e => .ok (Bytes32.ofBytes e)) (· < ·) 32 limit data = .ok addrs ↔
      addrs.flatMap Bytes32.bytes = data ∧ (addrs.length : ℤ) ≤ limit.toInt ∧
        addrs.IsChain (· < ·) := by
  rw [unmarshal_list_eq_ok bytes (fun _ => True) ?_ (by decide) length_bytes]
  · simp
  · intro b x hlen
    rw [ok.injEq, and_true]
    constructor
    · rintro rfl
      exact bytes_of_bytes hlen
    · rintro rfl
      exact of_bytes_bytes x

/-- A decoded program encodes back to its bytes. -/
theorem unmarshal_program_canonical
    (h : unmarshalProgram b maxMoves maxRetire = .ok prog) :
    prog.marshal = b ∧ prog.Canonical maxMoves maxRetire := by
  simp only [unmarshalProgram, bind_eq_ok (x := decode _ _)] at h
  obtain ⟨fields, hdecode, h⟩ := h
  obtain ⟨hencode, hfits⟩ := encode_of_decode hdecode
  simp only [forall₂_cons_left_iff, forall₂_nil_left_iff, Width.Fits] at hfits
  obtain ⟨tag, _, htag, ⟨body, _, -, rfl, rfl⟩, rfl⟩ := hfits
  obtain ⟨kind, rfl⟩ := length_eq_one_iff.mp htag
  -- what is left is the tag and the body
  have hmarshal : ∀ prog : Program, prog.kind = kind → prog.body = body → prog.marshal = b := by
    rintro prog rfl rfl
    exact hencode
  split_ifs at h with h0 h1 h2 h3
  · simp only [bind_eq_ok, pure_eq_ok, unmarshal_moves_eq_ok] at h
    obtain ⟨moves, ⟨hbody, hlimit⟩, rfl⟩ := h
    exact ⟨hmarshal _ h0.symm hbody, hlimit⟩
  · simp only [bind_eq_ok, pure_eq_ok, unmarshal_issue_args_eq_ok] at h
    obtain ⟨args, hbody, rfl⟩ := h
    exact ⟨hmarshal _ h1.symm hbody, trivial⟩
  · simp only [bind_eq_ok, pure_eq_ok, unmarshal_mint_args_eq_ok] at h
    obtain ⟨args, hbody, rfl⟩ := h
    exact ⟨hmarshal _ h2.symm hbody, trivial⟩
  · simp only [bind_eq_ok, pure_eq_ok, unmarshal_addrs_eq_ok] at h
    obtain ⟨addrs, ⟨hbody, hlimit⟩, rfl⟩ := h
    exact ⟨hmarshal _ h3.symm hbody, hlimit⟩

/-- A canonical program decodes from its own bytes. -/
theorem unmarshal_program_marshal (h : prog.Canonical maxMoves maxRetire)
    (hsize : prog.marshal.length < 2 ^ 32) :
    unmarshalProgram prog.marshal maxMoves maxRetire = .ok prog := by
  have hdecode : decode [.fixed 1, .var] prog.marshal = .ok [[prog.kind], prog.body] :=
    decode_encode (by simp [Width.Fits]) hsize
  simp only [unmarshalProgram, bind_eq_ok (x := decode _ _)]
  refine ⟨_, hdecode, ?_⟩
  simp only [getD_cons_zero, getD_cons_succ]
  cases prog with
  | transfer moves =>
    simp only [Program.kind, if_true, bind_eq_ok, pure_eq_ok, unmarshal_moves_eq_ok]
    exact ⟨moves, ⟨rfl, h⟩, rfl⟩
  | issue args =>
    rw [Program.kind, if_neg (by decide), if_pos rfl]
    simp only [bind_eq_ok, pure_eq_ok, unmarshal_issue_args_eq_ok]
    exact ⟨args, rfl, rfl⟩
  | mint args =>
    rw [Program.kind, if_neg (by decide), if_neg (by decide), if_pos rfl]
    simp only [bind_eq_ok, pure_eq_ok, unmarshal_mint_args_eq_ok]
    exact ⟨args, rfl, rfl⟩
  | retire addrs =>
    rw [Program.kind, if_neg (by decide), if_neg (by decide), if_neg (by decide), if_pos rfl]
    simp only [bind_eq_ok, pure_eq_ok, unmarshal_addrs_eq_ok]
    exact ⟨addrs, ⟨rfl, h⟩, rfl⟩

/-! ## Certificates -/

/-- Decode a certificate under the genesis limits of its lists. -/
def unmarshalCertificate (b : Bytes) (p : Params) : Except DecodeError Certificate := do
  let fields ← Ssz.decode Certificate.layout b
  let field := fun i => fields.getD i []
  let program ← unmarshalProgram (field 2) p.maxMovesPerTransfer p.maxRetireAddrs
  let reads ← unmarshalList unmarshalRead (fun a b => a.slot < b.slot) 97 p.maxReads (field 3)
  let writes ← unmarshalList unmarshalWrite (fun a b => a.slot < b.slot) 97 p.maxWrites (field 4)
  let sigs ← unmarshalList unmarshalSig (fun a b => a.pubKey < b.pubKey) 96 p.maxSigs (field 5)
  let deposit ← unmarshalDeposit (field 6)
  let feeBid ← unmarshalFeeBid (field 8)
  return {
    chainID := readUint64 (field 0)
    seq := readUint64 (field 1)
    program
    reads
    writes
    sigs
    deposit
    ttl := readUint64 (field 7)
    feeBid }

/-- A certificate in the form the decoder accepts. -/
structure Certificate.Canonical (c : Certificate) (p : Params) : Prop where
  program : c.program.Canonical p.maxMovesPerTransfer p.maxRetireAddrs
  reads_len : (c.reads.length : ℤ) ≤ p.maxReads.toInt
  reads_known : ∀ r ∈ c.reads, ¬ r.access.byte > 3
  reads_sorted : c.reads.IsChain fun a b => a.slot < b.slot
  writes_len : (c.writes.length : ℤ) ≤ p.maxWrites.toInt
  writes : ∀ w ∈ c.writes, w.Canonical
  writes_sorted : c.writes.IsChain fun a b => a.slot < b.slot
  sigs_len : (c.sigs.length : ℤ) ≤ p.maxSigs.toInt
  sigs_sorted : c.sigs.IsChain fun a b => a.pubKey < b.pubKey
  seq_priority : c.feeBid.seqPriority ≤ c.feeBid.seqMax
  par_priority : c.feeBid.parPriority ≤ c.feeBid.parMax

theorem unmarshal_reads_eq_ok {reads : List Read} :
    unmarshalList unmarshalRead (fun a b => a.slot < b.slot) 97 limit data = .ok reads ↔
      reads.flatMap Read.marshal = data ∧ (reads.length : ℤ) ≤ limit.toInt ∧
        (∀ r ∈ reads, ¬ r.access.byte > 3) ∧ reads.IsChain fun a b => a.slot < b.slot :=
  unmarshal_list_eq_ok Read.marshal (fun r => ¬ r.access.byte > 3) (fun _ => unmarshal_read_eq_ok)
    (by decide) Read.length_marshal

theorem unmarshal_writes_eq_ok {writes : List Write} :
    unmarshalList unmarshalWrite (fun a b => a.slot < b.slot) 97 limit data = .ok writes ↔
      writes.flatMap Write.marshal = data ∧ (writes.length : ℤ) ≤ limit.toInt ∧
        (∀ w ∈ writes, w.Canonical) ∧ writes.IsChain fun a b => a.slot < b.slot :=
  unmarshal_list_eq_ok Write.marshal Write.Canonical (fun _ => unmarshal_write_eq_ok) (by decide)
    Write.length_marshal

theorem unmarshal_sigs_eq_ok {sigs : List Sig} :
    unmarshalList unmarshalSig (fun a b => a.pubKey < b.pubKey) 96 limit data = .ok sigs ↔
      sigs.flatMap Sig.marshal = data ∧ (sigs.length : ℤ) ≤ limit.toInt ∧
        sigs.IsChain fun a b => a.pubKey < b.pubKey := by
  rw [unmarshal_list_eq_ok Sig.marshal (fun _ => True)
    (fun _ => by rw [unmarshal_sig_eq_ok, and_true]) (by decide) Sig.length_marshal]
  simp

/-- A decoded certificate encodes back to its bytes. -/
theorem unmarshal_certificate_canonical {p : Params}
    (h : unmarshalCertificate b p = .ok c) : c.marshal = b ∧ c.Canonical p := by
  simp only [unmarshalCertificate, bind_eq_ok, pure_eq_ok, unmarshal_reads_eq_ok,
    unmarshal_writes_eq_ok, unmarshal_sigs_eq_ok, unmarshal_deposit_eq_ok,
    unmarshal_fee_bid_eq_ok] at h
  obtain ⟨fields, hdecode, program, hprogram, reads, ⟨hreads, hrlen, hrknown, hrsorted⟩, writes,
    ⟨hwrites, hwlen, hwknown, hwsorted⟩, sigs, ⟨hsigs, hslen, hssorted⟩, deposit, hdeposit, feeBid,
    ⟨hfee, hseq, hpar⟩, rfl⟩ := h
  obtain ⟨hprogram, hcanon⟩ := unmarshal_program_canonical hprogram
  obtain ⟨hencode, hfits⟩ := encode_of_decode hdecode
  simp only [Certificate.layout, forall₂_cons_left_iff, forall₂_nil_left_iff, Width.Fits] at hfits
  obtain ⟨f0, _, h0, ⟨f1, _, h1, ⟨f2, _, -, ⟨f3, _, -, ⟨f4, _, -, ⟨f5, _, -, ⟨f6, _, -,
    ⟨f7, _, h7, ⟨f8, _, -, rfl, rfl⟩, rfl⟩, rfl⟩, rfl⟩, rfl⟩, rfl⟩, rfl⟩, rfl⟩, rfl⟩ := hfits
  simp only [getD_cons_zero, getD_cons_succ] at *
  refine ⟨?_, hcanon, hrlen, hrknown, hrsorted, hwlen, hwknown, hwsorted, hslen, hssorted,
    hseq, hpar⟩
  simp only [Certificate.marshal, Certificate.marshalWith, hprogram, hreads, hwrites, hsigs,
    hdeposit, hfee, uint64_read_uint64 h0, uint64_read_uint64 h1, uint64_read_uint64 h7]
  exact hencode

/-- A canonical certificate decodes from its own bytes. -/
theorem unmarshal_certificate_marshal {p : Params} (h : c.Canonical p)
    (hsize : c.marshal.length < 2 ^ 32) : unmarshalCertificate c.marshal p = .ok c := by
  have hdecode : Ssz.decode Certificate.layout c.marshal = .ok [Ssz.uint64 c.chainID,
      uint64 c.seq, c.program.marshal, c.reads.flatMap Read.marshal,
      c.writes.flatMap Write.marshal, c.sigs.flatMap Sig.marshal, c.deposit.marshal,
      uint64 c.ttl, c.feeBid.marshal] :=
    decode_encode (by simp [Certificate.layout, Width.Fits]) hsize
  have hprogram : c.program.marshal.length < 2 ^ 32 := by
    have hlen : c.program.marshal.length ≤ c.marshal.length := by
      simp only [Certificate.marshal, Certificate.marshalWith, length_encode, Certificate.layout,
        zip_cons_cons, map_cons, sum_cons, fieldSize]
      omega
    omega
  simp only [unmarshalCertificate, bind_eq_ok, pure_eq_ok, unmarshal_reads_eq_ok,
    unmarshal_writes_eq_ok, unmarshal_sigs_eq_ok, unmarshal_deposit_eq_ok, unmarshal_fee_bid_eq_ok]
  refine ⟨_, hdecode, c.program, unmarshal_program_marshal h.program hprogram, c.reads,
    ⟨rfl, h.reads_len, h.reads_known, h.reads_sorted⟩, c.writes,
    ⟨rfl, h.writes_len, h.writes, h.writes_sorted⟩, c.sigs, ⟨rfl, h.sigs_len, h.sigs_sorted⟩,
    c.deposit, rfl, c.feeBid, ⟨rfl, h.seq_priority, h.par_priority⟩, ?_⟩
  simp

theorem deposit_of_marshal_body {d : Certificate} (h : c.marshalBody = d.marshalBody) :
    c.deposit = d.deposit := by
  have hread : ∀ c : Certificate, c.marshalBody.extract 32 192 = c.deposit.marshal := fun c => by
    simp [Certificate.marshalBody, Certificate.marshalWith, Certificate.layout, Ssz.encode,
      encodeFields, bytesPerLengthOffset, drop_append, drop_eq_nil_of_le]
  have hmarshal : d.deposit.marshal = c.deposit.marshal := by rw [← hread c, ← hread d, h]
  have hd := unmarshal_deposit_eq_ok.mpr hmarshal
  have hc := unmarshal_deposit_eq_ok.mpr (rfl : c.deposit.marshal = c.deposit.marshal)
  exact ok.inj (hc.symm.trans hd)

/-! ## Blocks -/

/-- The least number of bytes a certificate encodes to. -/
def certMinSize : ℕ := fixedLen Certificate.layout

/-- Decode a block under the genesis limits. -/
def unmarshalBlock (data : Bytes) (p : Params) : Except DecodeError Block := do
  let fields ← Ssz.decode [.fixed headerSize, .var, .var] data
  let field := fun i => fields.getD i []
  let header ← unmarshalHeader (field 0)
  let certElems ← decodeVariableList (field 1) p.certListCapacity.toInt certMinSize
  let citeElems ← decodeVariableList (field 2) p.maxCitesPerBlock.toInt headerSize
  let certs ← certElems.mapM fun e => unmarshalCertificate e p
  let cites ← citeElems.mapM unmarshalHeader
  return ⟨header, certs, cites⟩

theorem map_marshal_of_mapM {α : Type} {dec : Bytes → Except DecodeError α} {marshal : α → Bytes}
    (hdec : ∀ {b x}, dec b = .ok x → marshal x = b) {elems : List Bytes} {xs : List α}
    (h : elems.mapM dec = .ok xs) : xs.map marshal = elems := by
  induction elems generalizing xs with
  | nil =>
    obtain rfl := pure_eq_ok.mp h
    rfl
  | cons e rest ih =>
    simp only [mapM_cons, bind_eq_ok, pure_eq_ok] at h
    obtain ⟨x, hx, xs', hxs, rfl⟩ := h
    rw [map_cons, hdec hx, ih hxs]

theorem unmarshal_block_canonical {p : Params} {b : Block} (h : unmarshalBlock data p = .ok b) :
    b.marshal = data := by
  simp only [unmarshalBlock, bind_eq_ok, pure_eq_ok, unmarshal_header_eq_ok] at h
  obtain ⟨fields, hdecode, header, hheader, certElems, hcertElems, citeElems, hciteElems, certs,
    hcerts, cites, hcites, rfl⟩ := h
  obtain ⟨hencode, hfits⟩ := encode_of_decode hdecode
  simp only [forall₂_cons_left_iff, forall₂_nil_left_iff, Width.Fits] at hfits
  obtain ⟨f0, _, -, ⟨f1, _, -, ⟨f2, _, -, rfl, rfl⟩, rfl⟩, rfl⟩ := hfits
  have hcerts' : certs.map Certificate.marshal = certElems :=
    map_marshal_of_mapM (fun hc => (unmarshal_certificate_canonical hc).1) hcerts
  have hcites' : cites.map Header.marshal = citeElems :=
    map_marshal_of_mapM unmarshal_header_eq_ok.mp hcites
  simp only [Block.marshal, hheader, hcerts', hcites',
    encode_of_decode_variable_list hcertElems, encode_of_decode_variable_list hciteElems]
  exact hencode

theorem mapM_map_of_decodes {α : Type} {dec : Bytes → Except DecodeError α} {marshal : α → Bytes}
    {xs : List α} (h : ∀ x ∈ xs, dec (marshal x) = .ok x) : (xs.map marshal).mapM dec = .ok xs := by
  induction xs with
  | nil => rfl
  | cons x rest ih =>
    rw [map_cons, mapM_cons, h x mem_cons_self, ih fun y hy => h y (mem_cons_of_mem _ hy)]
    rfl

section RoundTrip

variable {p : Params} {b b' : Block} (hcanonical : ∀ c ∈ b.certs, c.Canonical p)
  (hsize : b.marshal.length < 2 ^ 32)

include hsize

theorem decode_block_marshal :
    Ssz.decode [.fixed headerSize, .var, .var] b.marshal = .ok [b.header.marshal,
      encodeVariableList (b.certs.map Certificate.marshal),
      encodeVariableList (b.cites.map Header.marshal)] :=
  decode_encode (by simp [Width.Fits, Header.length_marshal]) hsize

theorem length_block_lists :
    (encodeVariableList (b.certs.map Certificate.marshal)).length < 2 ^ 32 ∧
      (encodeVariableList (b.cites.map Header.marshal)).length < 2 ^ 32 := by
  simp only [Block.marshal, length_encode, zip_cons_cons, map_cons, sum_cons, fieldSize] at hsize
  omega

include hcanonical

theorem unmarshal_certs_marshal :
    (b.certs.map Certificate.marshal).mapM (fun e => unmarshalCertificate e p) = .ok b.certs := by
  have hcert : ∀ c ∈ b.certs, unmarshalCertificate c.marshal p = .ok c := fun c hc =>
    unmarshal_certificate_marshal (hcanonical c hc)
      ((length_le_encode_variable_list (mem_map_of_mem hc)).trans_lt (length_block_lists hsize).1)
  exact mapM_map_of_decodes hcert

/-- The bytes of a block decode to no other block. -/
theorem unmarshal_block_marshal (h : unmarshalBlock b.marshal p = .ok b') : b' = b := by
  simp only [unmarshalBlock, bind_eq_ok, pure_eq_ok, unmarshal_header_eq_ok] at h
  obtain ⟨fields, hfields, header, hheader, certElems, hcertElems, citeElems, hciteElems, certs,
    hcerts, cites, hcites, rfl⟩ := h
  obtain rfl := ok.inj (hfields.symm.trans (decode_block_marshal hsize))
  simp only [getD_cons_zero, getD_cons_succ] at hheader hcertElems hciteElems
  have hcertList : b.certs.map Certificate.marshal = certElems :=
    encode_variable_list_injective (encode_of_decode_variable_list hcertElems).symm
      (length_block_lists hsize).1
  have hciteList : b.cites.map Header.marshal = citeElems :=
    encode_variable_list_injective (encode_of_decode_variable_list hciteElems).symm
      (length_block_lists hsize).2
  subst hcertList hciteList
  have hallCerts := unmarshal_certs_marshal hcanonical hsize
  have hallCites : (b.cites.map Header.marshal).mapM unmarshalHeader = .ok b.cites :=
    mapM_map_of_decodes fun _ _ => unmarshal_header_eq_ok.mpr rfl
  rw [ok.inj (hcerts.symm.trans hallCerts), ok.inj (hcites.symm.trans hallCites),
    header_marshal_injective hheader]

/-- A block within the list capacities decodes from its own bytes. -/
theorem unmarshal_block_eq_ok (hcerts : (b.certs.length : ℤ) ≤ p.certListCapacity.toInt)
    (hcites : (b.cites.length : ℤ) ≤ p.maxCitesPerBlock.toInt) :
    unmarshalBlock b.marshal p = .ok b := by
  have hmin : ∀ e ∈ b.certs.map Certificate.marshal, certMinSize ≤ e.length := by
    intro e he
    obtain ⟨c, -, rfl⟩ := mem_map.mp he
    simp only [Certificate.marshal, Certificate.marshalWith, length_encode]
    exact (sum_field_size (by simp [Certificate.layout, Width.Fits])).1
  have hheaders : ∀ e ∈ b.cites.map Header.marshal, headerSize ≤ e.length := by
    intro e he
    obtain ⟨h, -, rfl⟩ := mem_map.mp he
    exact h.length_marshal.ge
  have hcertElems := decode_encode_variable_list (by simpa using hcerts) hmin
    (length_block_lists hsize).1
  have hciteElems := decode_encode_variable_list (by simpa using hcites) hheaders
    (length_block_lists hsize).2
  simp only [unmarshalBlock, bind_eq_ok, pure_eq_ok, unmarshal_header_eq_ok]
  exact ⟨_, decode_block_marshal hsize, b.header, rfl, _, hcertElems, _, hciteElems, b.certs,
    unmarshal_certs_marshal hcanonical hsize, b.cites,
    mapM_map_of_decodes fun _ _ => unmarshal_header_eq_ok.mpr rfl, rfl⟩

end RoundTrip

/-- A decoder that accepts only the encodings of what it returns, so that no two inputs decode to
the same object. -/
structure DecodesCanonically {α : Type} (dec : Bytes → Except DecodeError α) (marshal : α → Bytes) :
    Prop where
  marshal_eq : ∀ d x, dec d = .ok x → marshal x = d
  injective : ∀ d d' x, dec d = .ok x → dec d' = .ok x → d = d'

theorem DecodesCanonically.of_marshal {α : Type} {dec : Bytes → Except DecodeError α}
    {marshal : α → Bytes} (h : ∀ d x, dec d = .ok x → marshal x = d) :
    DecodesCanonically dec marshal where
  marshal_eq := h
  injective d d' x hd hd' := (h d x hd).symm.trans (h d' x hd')

/-- Under any parameters, blocks, certificates, programs and headers are decoded from their
canonical encoding only. -/
theorem decoding_canonical (p : Params) :
    DecodesCanonically (fun d => unmarshalBlock d p) Block.marshal ∧
      DecodesCanonically (fun d => unmarshalCertificate d p) Certificate.marshal ∧
      (∀ maxMoves maxRetire,
        DecodesCanonically (fun d => unmarshalProgram d maxMoves maxRetire) Program.marshal) ∧
      DecodesCanonically unmarshalHeader Header.marshal :=
  ⟨.of_marshal fun _ _ h => unmarshal_block_canonical h,
    .of_marshal fun _ _ h => (unmarshal_certificate_canonical h).1,
    fun _ _ => .of_marshal fun _ _ h => (unmarshal_program_canonical h).1,
    .of_marshal fun _ _ h => unmarshal_header_eq_ok.mp h⟩

end Zycord
