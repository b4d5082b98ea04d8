import Zycord.Core.SszDecode
import Zycord.Storage.Escape

/-!
# Log records

The record format of package `node/storage`: a batch of mutations framed by a header with a
sequence number, the number of records still to come in the same transaction, the payload length
and two checksums, one over the header alone and one over header and payload. A record that was
written is read back whatever follows it (`decode_encode_record`), and every shorter piece of it
reads as a short write (`decode_take_record`).
-/

namespace Zycord.Storage

open ByteString Ssz List

/-! ## Batches -/

/-- One change of a batch. -/
inductive Mutation where
  | put (key value : Bytes)
  | delete (key : Bytes)
deriving DecidableEq

/-- Mutations that commit together or not at all. -/
abbrev Batch := List Mutation

/-- Why a batch is not written: it exceeds the largest record. -/
inductive StoreError where
  | batchTooBig
deriving DecidableEq

/-- The largest payload of one record. -/
def maxRecordLen : ℕ := 2 ^ 30

/-- The marks of the two kinds of mutation. -/
def opPut : UInt8 := 1

/-- See `opPut`. -/
def opDelete : UInt8 := 2

/-- Bytes with their length in front. -/
def lengthPrefixed (b : Bytes) : Bytes := uint32 b.length ++ b

/-- A mutation in its encoding. -/
def Mutation.encode : Mutation → Bytes
  | put key value => opPut :: (lengthPrefixed key ++ lengthPrefixed value)
  | delete key => opDelete :: lengthPrefixed key

/-- The number of bytes a mutation takes. -/
def Mutation.size : Mutation → ℕ
  | put key value => 1 + 4 + key.length + (4 + value.length)
  | delete key => 1 + 4 + key.length

/-- The number of bytes a batch takes. -/
def batchSize (b : Batch) : ℕ := (b.map Mutation.size).sum

/-- The mutations of a batch, one behind the other; an oversized batch is refused before anything
is built. -/
def encodeBatchPayload (b : Batch) : Except StoreError Bytes :=
  if maxRecordLen < batchSize b then .error .batchTooBig else .ok (b.flatMap Mutation.encode)

/-! ## Frames -/

/-- The length of a record header. -/
def recordHeaderLen : ℕ := 32

/-- What the header checksum covers: magic, sequence, remaining parts and payload length. -/
def headerSpan (seq : UInt64) (more : UInt32) (length : UInt64) : Bytes :=
  recordMagic ++ (uint64 seq ++ (uint32 more.toNat ++ uint64 length))

/-- The header up to the record checksum. -/
def headerFront (seq : UInt64) (more : UInt32) (length : UInt64) : Bytes :=
  headerSpan seq more length ++ uint32 (crc32 (headerSpan seq more length)).toNat

/-- A record header. -/
def recordHeader (seq : UInt64) (more : UInt32) (length : UInt64) (crc : UInt32) : Bytes :=
  headerFront seq more length ++ uint32 crc.toNat

/-- A payload with its header. -/
def frameBytes (payload : Bytes) (seq : UInt64) (more : UInt32) : Bytes :=
  let length := UInt64.ofNat payload.length
  recordHeader seq more length (crc32 (headerFront seq more length ++ payload)) ++ payload

/-- Frame a payload unless it is too long. -/
def frameRecord (payload : Bytes) (seq : UInt64) (more : UInt32) : Except StoreError Bytes :=
  if maxRecordLen < payload.length then .error .batchTooBig
  else .ok (frameBytes payload seq more)

/-- A batch as a record. -/
def encodeRecord (b : Batch) (seq : UInt64) (more : UInt32) : Except StoreError Bytes := do
  let payload ← encodeBatchPayload b
  frameRecord (escapePayload payload) seq more

/-! ## Reading -/

/-- The fields of a verified header. -/
structure Header where
  seq : UInt64
  more : UInt32
  length : UInt64
deriving DecidableEq

/-- Check a header against its own checksum. -/
def verifyHeader (raw : Bytes) : Option Header :=
  if raw.length < recordHeaderLen then none
  else if crc32 (raw.take 24) ≠ readUint32 (raw.drop 24) then none
  else if raw.take 4 ≠ recordMagic then none
  else some ⟨readUint64 (raw.drop 4), readUint32 (raw.drop 12), readUint64 (raw.drop 16)⟩

/-- Take length-prefixed bytes off. -/
def takeBytes (raw : Bytes) : Option (Bytes × Bytes) :=
  if raw.length < 4 then none
  else
    let n := (readUint32 raw).toNat
    if raw.length < 4 + n then none else some (raw.extract 4 (4 + n), raw.drop (4 + n))

/-- Parse the mutations of a payload. A mutation takes more than one byte, so the payload's
length bounds their number. -/
def parseMutations : ℕ → Bytes → Option Batch
  | _, [] => some []
  | 0, _ :: _ => none
  | fuel + 1, op :: rest => do
      let (key, rest) ← takeBytes rest
      if op = opPut then
        let (value, rest) ← takeBytes rest
        let batch ← parseMutations fuel rest
        some (.put key value :: batch)
      else if op = opDelete then
        let batch ← parseMutations fuel rest
        some (.delete key :: batch)
      else none

/-- What reading a record establishes. `torn` is a short write; for `payloadBad` the frame is
genuine and ends after the number of bytes given. -/
inductive Decoded where
  | ok (batch : Batch) (seq : UInt64) (more : UInt32) (n : ℕ)
  | torn
  | headerUntrusted
  | maxLenExceeded
  | payloadBad (n : ℕ)
deriving DecidableEq

/-- Decode the payload of a record. -/
def decodePayload (payload : Bytes) : Option Batch := do
  let plain ← unescapePayload payload
  parseMutations plain.length plain

/-- Read the record at the front of a string. -/
def decodeRecord (raw : Bytes) : Decoded :=
  if raw.length < recordHeaderLen then .torn
  else
    match verifyHeader raw with
    | none => .headerUntrusted
    | some h =>
      if maxRecordLen < h.length.toNat then .maxLenExceeded
      else
        let stop := recordHeaderLen + h.length.toNat
        if raw.length < stop then .torn
        else
          let payload := raw.extract recordHeaderLen stop
          if crc32 (raw.take 28 ++ payload) ≠ readUint32 (raw.drop 28) then .payloadBad stop
          else
            match decodePayload payload with
            | none => .payloadBad stop
            | some batch => .ok batch h.seq h.more stop

/-! ## Lengths -/

@[simp] theorem length_record_magic : recordMagic.length = 4 := rfl

@[simp] theorem length_header_span (seq : UInt64) (more : UInt32) (length : UInt64) :
    (headerSpan seq more length).length = 24 := by
  simp [headerSpan, bytesPerLengthOffset]

@[simp] theorem length_header_front (seq : UInt64) (more : UInt32) (length : UInt64) :
    (headerFront seq more length).length = 28 := by
  simp [headerFront, bytesPerLengthOffset]

@[simp] theorem length_record_header (seq : UInt64) (more : UInt32) (length : UInt64)
    (crc : UInt32) : (recordHeader seq more length crc).length = recordHeaderLen := by
  simp [recordHeader, recordHeaderLen, bytesPerLengthOffset]

theorem length_frame_bytes (payload : Bytes) (seq : UInt64) (more : UInt32) :
    (frameBytes payload seq more).length = recordHeaderLen + payload.length := by
  simp [frameBytes]

/-! ## Mutations are read back -/

theorem read_uint32_append (v : UInt32) (rest : Bytes) : readUint32 (uint32 v.toNat ++ rest) = v :=
  UInt32.toNat_inj.mp (read_uint32_uint32 v.toNat_lt rest)

theorem read_uint64_append (v : UInt64) (rest : Bytes) : readUint64 (uint64 v ++ rest) = v := by
  have hread : readUint64 (uint64 v ++ rest) = readUint64 (uint64 v) := by
    rfl
  rw [hread, read_uint64_uint64]

/-- A length-prefixed field reads back. -/
theorem take_bytes_length_prefixed {b : Bytes} (h : b.length < 2 ^ 32) (rest : Bytes) :
    takeBytes (lengthPrefixed b ++ rest) = some (b, rest) := by
  have hlen : (uint32 b.length).length = 4 := length_uint32 _
  have hread : (readUint32 (lengthPrefixed b ++ rest)).toNat = b.length := by
    exact read_uint32_uint32 h (b ++ rest)
  have hsplit : lengthPrefixed b ++ rest = uint32 b.length ++ (b ++ rest) := append_assoc _ _ _
  unfold takeBytes
  rw [if_neg (by simp [lengthPrefixed, bytesPerLengthOffset])]
  simp only [hread]
  rw [if_neg (by simp [lengthPrefixed, bytesPerLengthOffset]), hsplit]
  have hkey : (uint32 b.length ++ (b ++ rest)).extract 4 (4 + b.length) = b := by
    exact extract_middle _ _ _
  have hrest : (uint32 b.length ++ (b ++ rest)).drop (4 + b.length) = rest := by
    rw [← append_assoc]
    exact drop_left' (by rw [length_append, hlen])
  rw [hkey, hrest]

theorem Mutation.length_encode (m : Mutation) : m.encode.length = m.size := by
  cases m <;> simp [Mutation.encode, Mutation.size, lengthPrefixed, bytesPerLengthOffset] <;> omega

theorem length_flat_map_encode (b : Batch) : (b.flatMap Mutation.encode).length = batchSize b := by
  simp [batchSize, Mutation.length_encode]

/-- The byte strings of a mutation are short enough for their length fields. -/
def Mutation.Fits : Mutation → Prop
  | put key value => key.length < 2 ^ 32 ∧ value.length < 2 ^ 32
  | delete key => key.length < 2 ^ 32

theorem Mutation.fits_of_size {m : Mutation} (h : m.size ≤ maxRecordLen) : m.Fits := by
  cases m <;> simp only [Mutation.size, maxRecordLen, Mutation.Fits] at h ⊢ <;> omega

variable {b : Batch} {raw record payload : Bytes} {h : Header} {seq : UInt64} {more : UInt32}
  {k n : ℕ}

theorem fits_of_batch_size (h : batchSize b ≤ maxRecordLen) : ∀ m ∈ b, m.Fits := by
  intro m hm
  refine Mutation.fits_of_size (le_trans ?_ h)
  exact le_sum_of_mem (mem_map.mpr ⟨m, hm, rfl⟩)

/-- The mutations of a batch read back. -/
theorem parse_flat_map_encode (h : ∀ m ∈ b, m.Fits) {fuel : ℕ} (hfuel : b.length ≤ fuel) :
    parseMutations fuel (b.flatMap Mutation.encode) = some b := by
  induction b generalizing fuel with
  | nil => cases fuel <;> rfl
  | cons m rest ih =>
    obtain ⟨fuel, rfl⟩ : ∃ n, fuel = n + 1 := Nat.exists_eq_succ_of_ne_zero (by
      simp only [length_cons] at hfuel
      omega)
    have hrest := ih (fun m' hm' => h m' (mem_cons_of_mem _ hm'))
      (Nat.le_of_succ_le_succ hfuel)
    have hm := h m mem_cons_self
    cases m with
    | put key value =>
      obtain ⟨hkey, hvalue⟩ := hm
      simp only [flatMap_cons, Mutation.encode, cons_append, append_assoc, parseMutations]
      rw [take_bytes_length_prefixed hkey]
      simp only [Option.bind_eq_bind, Option.bind_some, if_true]
      rw [take_bytes_length_prefixed hvalue]
      simp [hrest]
    | delete key =>
      simp only [flatMap_cons, Mutation.encode, cons_append, parseMutations]
      rw [take_bytes_length_prefixed hm]
      have hne : opDelete ≠ opPut := by decide
      simp [hne, hrest]

theorem length_le_batch_size (b : Batch) : b.length ≤ batchSize b := by
  induction b with
  | nil => simp [batchSize]
  | cons m rest ih =>
    have hm : 1 ≤ m.size := by cases m <;> simp only [Mutation.size] <;> omega
    simp only [batchSize, map_cons, sum_cons, length_cons] at ih ⊢
    omega

theorem decode_payload_escape (h : batchSize b ≤ maxRecordLen) :
    decodePayload (escapePayload (b.flatMap Mutation.encode)) = some b := by
  unfold decodePayload
  rw [unescape_escape]
  refine parse_flat_map_encode (fits_of_batch_size h) ?_
  rw [length_flat_map_encode]
  exact length_le_batch_size b

/-! ## Records are read back -/

/-- A written header verifies. -/
theorem verify_record_header (seq : UInt64) (more : UInt32) (length : UInt64) (crc : UInt32)
    (rest : Bytes) :
    verifyHeader (recordHeader seq more length crc ++ rest) = some ⟨seq, more, length⟩ := by
  generalize hraw : recordHeader seq more length crc ++ rest = raw
  have hspan : raw.take 24 = headerSpan seq more length :=
    hraw ▸ take_left' (length_header_span _ _ _)
  have hcrc : raw.drop 24 =
      uint32 (crc32 (headerSpan seq more length)).toNat ++ (uint32 crc.toNat ++ rest) :=
    hraw ▸ drop_left' (length_header_span _ _ _)
  have hmagic : raw.take 4 = recordMagic := hraw ▸ rfl
  have hseq : raw.drop 4 = uint64 seq ++ raw.drop 12 := hraw ▸ rfl
  have hmore : raw.drop 12 = uint32 more.toNat ++ raw.drop 16 := hraw ▸ rfl
  have hlength : raw.drop 16 = uint64 length ++ raw.drop 24 := hraw ▸ rfl
  unfold verifyHeader
  rw [if_neg (by simp [← hraw]), hspan, hcrc, read_uint32_append, if_neg (by simp),
    if_neg (not_not.mpr hmagic), hseq, hmore, hlength, read_uint64_append, read_uint32_append,
    read_uint64_append]

theorem decode_of_header (hlen : recordHeaderLen ≤ raw.length)
    (hverify : verifyHeader raw = some h) (hmax : h.length.toNat ≤ maxRecordLen) :
    decodeRecord raw = if raw.length < recordHeaderLen + h.length.toNat then .torn
      else if crc32 (raw.take 28 ++
          raw.extract recordHeaderLen (recordHeaderLen + h.length.toNat)) ≠
          readUint32 (raw.drop 28) then .payloadBad (recordHeaderLen + h.length.toNat)
      else
        match decodePayload (raw.extract recordHeaderLen (recordHeaderLen + h.length.toNat)) with
        | none => .payloadBad (recordHeaderLen + h.length.toNat)
        | some batch => .ok batch h.seq h.more (recordHeaderLen + h.length.toNat) := by
  simp only [decodeRecord, if_neg (not_lt.mpr hlen), hverify, if_neg (not_lt.mpr hmax)]

theorem magic_of_verify (hverify : verifyHeader raw = some h) :
    recordHeaderLen ≤ raw.length ∧ recordMagic <+: raw := by
  unfold verifyHeader at hverify
  split_ifs at hverify with hlen hcrc hmagic
  refine ⟨not_lt.mp hlen, ?_⟩
  rw [← not_not.mp hmagic]
  exact take_prefix 4 raw

/-- What a decoded record says of its bytes. -/
theorem decode_eq_ok (h : decodeRecord raw = .ok b seq more n) :
    ∃ length : UInt64, verifyHeader raw = some ⟨seq, more, length⟩ ∧
      length.toNat ≤ maxRecordLen ∧ n = recordHeaderLen + length.toNat ∧ n ≤ raw.length := by
  unfold decodeRecord at h
  split at h
  · cases h
  · cases hverify : verifyHeader raw with
    | none => simp [hverify] at h
    | some header =>
      simp only [hverify] at h
      split_ifs at h with hmax hspan hcrc
      cases hpayload : decodePayload
          (raw.extract recordHeaderLen (recordHeaderLen + header.length.toNat)) with
      | none => simp only [hpayload, reduceCtorEq] at h
      | some batch =>
        simp only [hpayload, Decoded.ok.injEq] at h
        obtain ⟨-, rfl, rfl, rfl⟩ := h
        exact ⟨header.length, rfl, not_lt.mp hmax, rfl, not_lt.mp hspan⟩

theorem verify_header_append (hlen : recordHeaderLen ≤ raw.length) (rest : Bytes) :
    verifyHeader (raw ++ rest) = verifyHeader raw := by
  have hlen' : 32 ≤ raw.length := hlen
  have htake : ∀ i, i ≤ 32 → (raw ++ rest).take i = raw.take i := fun i hi =>
    take_append_of_le_length (by omega)
  have hread : ∀ i k, i + k ≤ 32 → ((raw ++ rest).drop i).take k = (raw.drop i).take k := by
    intro i k hi
    rw [drop_append_of_le_length (by omega), take_append_of_le_length (by rw [length_drop]; omega)]
  unfold verifyHeader readUint32 readUint64
  rw [if_neg (by rw [length_append]; exact not_lt.mpr (by omega)), if_neg (not_lt.mpr hlen),
    htake 24 (by omega), htake 4 (by omega), hread 24 4 (by omega), hread 4 8 (by omega),
    hread 12 4 (by omega), hread 16 8 (by omega)]

/-- A record decodes alike whatever follows it. -/
theorem decode_append (hn : n ≤ raw.length) (rest : Bytes) :
    decodeRecord (raw ++ rest) = .ok b seq more n ↔ decodeRecord raw = .ok b seq more n := by
  have hheader : ∀ {x : Bytes}, decodeRecord x = .ok b seq more n →
      recordHeaderLen ≤ raw.length := by
    intro x h
    obtain ⟨length, -, -, rfl, -⟩ := decode_eq_ok h
    exact (Nat.le_add_right _ _).trans hn
  have hsame : ∀ header : Header, n = recordHeaderLen + header.length.toNat →
      verifyHeader raw = some header → header.length.toNat ≤ maxRecordLen →
      decodeRecord (raw ++ rest) = decodeRecord raw := by
    rintro header rfl hverify hmax
    have hlen : recordHeaderLen ≤ raw.length := (Nat.le_add_right _ _).trans hn
    have hlen' : 32 ≤ raw.length := hlen
    have hspan : ¬ (raw ++ rest).length < recordHeaderLen + header.length.toNat := by
      rw [length_append]
      omega
    have hcrc : readUint32 ((raw ++ rest).drop 28) = readUint32 (raw.drop 28) := by
      unfold readUint32
      rw [drop_append_of_le_length (by omega),
        take_append_of_le_length (by rw [length_drop]; omega)]
    rw [decode_of_header (by omega)
      ((verify_header_append hlen rest).trans hverify) hmax, decode_of_header hlen hverify hmax,
      if_neg hspan, if_neg (not_lt.mpr hn), hcrc, extract_append_left hn,
      take_append_of_le_length (by omega)]
  constructor
  · intro h
    obtain ⟨length, hverify, hmax, heq, -⟩ := decode_eq_ok h
    rw [verify_header_append (hheader h)] at hverify
    rwa [← hsame _ heq hverify hmax]
  · intro h
    obtain ⟨length, hverify, hmax, heq, -⟩ := decode_eq_ok h
    rwa [hsame _ heq hverify hmax]

theorem to_nat_payload_length (h : payload.length ≤ maxRecordLen) :
    (UInt64.ofNat payload.length).toNat = payload.length :=
  UInt64.toNat_ofNat_of_lt' (lt_of_le_of_lt h (by decide))

/-- A written record decodes. -/
theorem decode_frame_bytes (hlen : payload.length ≤ maxRecordLen)
    (hpayload : decodePayload payload = some b) (seq : UInt64) (more : UInt32) (rest : Bytes) :
    decodeRecord (frameBytes payload seq more ++ rest) =
      .ok b seq more (frameBytes payload seq more).length := by
  have hnat := to_nat_payload_length hlen
  simp only [frameBytes, append_assoc]
  generalize hcrc : crc32 (headerFront seq more (UInt64.ofNat payload.length) ++ payload) = crc
  have hverify := verify_record_header seq more (UInt64.ofNat payload.length) crc (payload ++ rest)
  have hfront : (recordHeader seq more (UInt64.ofNat payload.length) crc ++
      (payload ++ rest)).take 28 = headerFront seq more (UInt64.ofNat payload.length) := by
    exact take_left' (length_header_front _ _ _)
  have hsum : (recordHeader seq more (UInt64.ofNat payload.length) crc ++
      (payload ++ rest)).drop 28 = uint32 crc.toNat ++ (payload ++ rest) := by
    exact drop_left' (length_header_front _ _ _)
  have hbody : (recordHeader seq more (UInt64.ofNat payload.length) crc ++
      (payload ++ rest)).extract recordHeaderLen (recordHeaderLen + payload.length) = payload := by
    exact extract_middle _ _ _
  rw [decode_of_header (by simp) hverify (hnat.le.trans hlen)]
  simp only [hnat, hfront, hsum, hbody, hcrc, read_uint32_append, hpayload]
  simp

/-- A cut record reads as torn. -/
theorem decode_take_frame (hlen : payload.length ≤ maxRecordLen) (seq : UInt64) (more : UInt32)
    (hk : k < (frameBytes payload seq more).length) :
    decodeRecord ((frameBytes payload seq more).take k) = .torn := by
  rw [length_frame_bytes] at hk
  rcases lt_or_ge k recordHeaderLen with hshort | hlong
  · -- not even a header
    have htake : ((frameBytes payload seq more).take k).length < recordHeaderLen := by
      rw [length_take]
      omega
    rw [decodeRecord, if_pos htake]
  · -- the header verifies, and the payload it declares runs past the end
    have hnat := to_nat_payload_length hlen
    have hpiece : (frameBytes payload seq more).take k =
        recordHeader seq more (UInt64.ofNat payload.length)
          (crc32 (headerFront seq more (UInt64.ofNat payload.length) ++ payload)) ++
          payload.take (k - recordHeaderLen) := by
      rw [frameBytes, take_append, take_of_length_le (by simpa using hlong), length_record_header]
    have hverify := verify_record_header seq more (UInt64.ofNat payload.length)
      (crc32 (headerFront seq more (UInt64.ofNat payload.length) ++ payload))
      (payload.take (k - recordHeaderLen))
    rw [hpiece, decode_of_header (by simp) hverify (hnat.le.trans hlen), if_pos]
    simp only [hnat, length_append, length_record_header, length_take]
    omega

/-! ## Encoded batches -/

/-- A batch is encoded where it fits, as one frame. -/
theorem encode_record_eq_ok :
    encodeRecord b seq more = .ok record ↔ batchSize b ≤ maxRecordLen ∧
        (escapePayload (b.flatMap Mutation.encode)).length ≤ maxRecordLen ∧
        record = frameBytes (escapePayload (b.flatMap Mutation.encode)) seq more := by
  simp only [encodeRecord, encodeBatchPayload, frameRecord]
  by_cases hsize : maxRecordLen < batchSize b
  · simp [hsize, Except.bind_eq_ok]
  · by_cases hframe : maxRecordLen < (escapePayload (b.flatMap Mutation.encode)).length
    · simp [hsize, hframe, Except.bind_eq_ok]
    · rw [if_neg hsize, Except.bind_eq_ok]
      constructor
      · rintro ⟨payload, hpayload, hrecord⟩
        cases hpayload
        rw [if_neg hframe] at hrecord
        exact ⟨not_lt.mp hsize, not_lt.mp hframe, (Except.ok.inj hrecord).symm⟩
      · rintro ⟨-, -, rfl⟩
        exact ⟨_, rfl, if_neg hframe⟩

/-- A record that was written is read back whatever follows it. -/
theorem decode_encode_record (h : encodeRecord b seq more = .ok record) (rest : Bytes) :
    decodeRecord (record ++ rest) = .ok b seq more record.length := by
  obtain ⟨hsize, hlen, rfl⟩ := encode_record_eq_ok.mp h
  exact decode_frame_bytes hlen (decode_payload_escape hsize) seq more rest

/-- Every shorter piece of a record is a short write. -/
theorem decode_take_record (h : encodeRecord b seq more = .ok record) (hk : k < record.length) :
    decodeRecord (record.take k) = .torn := by
  obtain ⟨hsize, hlen, rfl⟩ := encode_record_eq_ok.mp h
  exact decode_take_frame hlen seq more hk

end Zycord.Storage
