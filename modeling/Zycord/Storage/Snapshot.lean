import Zycord.Lib.Merge
import Zycord.Storage.Replay

/-!
# Snapshots

The snapshot file of a store: the live view in key order behind a header with its length and
checksum. A snapshot that was written is read back (`decode_encode_snapshot`), and replaying over
a view the mutations that led to it changes nothing (`apply_batches_idempotent`), so a log may be
replayed over a snapshot that already contains it.
-/

namespace Zycord.Storage

open FinMap Mutation ByteString Ssz List

/-- What a snapshot begins with. -/
def snapshotMagic : Bytes := [0x43, 0x41, 0x50, 0x42, 0x53, 0x4E, 0x50, formatVersion]

/-- Why a snapshot is refused. -/
inductive SnapshotError where
  | badHeader
  | format (version : UInt8)
  | truncatedBody
  | checksumMismatch
  | truncatedKey
  | truncatedValue
deriving DecidableEq

/-- A record of a snapshot. -/
def encodeEntry (e : Bytes × Bytes) : Bytes := lengthPrefixed e.1 ++ lengthPrefixed e.2

/-- All records. -/
def snapshotBody (live : Live) : Bytes := live.entries.flatMap encodeEntry

/-- A snapshot file. -/
def encodeSnapshot (live : Live) : Bytes :=
  let body := snapshotBody live
  snapshotMagic ++ (uint64 (UInt64.ofNat body.length) ++ (uint32 (crc32 body).toNat ++ body))

/-- Add the entries of a snapshot to a live view. An entry takes more than one byte, so the
body's length bounds their number. -/
def parseEntries : ℕ → Live → Bytes → Except SnapshotError Live
  | _, live, [] => .ok live
  | 0, _, _ :: _ => .error .truncatedKey
  | fuel + 1, live, b :: body =>
    match takeBytes (b :: body) with
    | none => .error .truncatedKey
    | some (key, rest) =>
      match takeBytes rest with
      | none => .error .truncatedValue
      | some (value, rest) => parseEntries fuel (live.insert key value) rest

/-- The length of its header. -/
def snapshotHeaderLen : ℕ := 20

/-- Read a snapshot. -/
def decodeSnapshot (raw : Bytes) : Except SnapshotError Live :=
  if raw.length < snapshotHeaderLen then .error .badHeader
  else if raw.take 7 = snapshotMagic.take 7 ∧ raw[7]? ≠ some formatVersion then
    .error (.format (raw.getD 7 0))
  else if raw.take 8 ≠ snapshotMagic then .error .badHeader
  else if UInt64.ofNat (raw.length - snapshotHeaderLen) ≠ readUint64 (raw.drop 8) then
    .error .truncatedBody
  else
    let body := raw.drop snapshotHeaderLen
    if crc32 body ≠ readUint32 (raw.drop 16) then .error .checksumMismatch
    else parseEntries body.length FinMap.empty body

/-! ## Snapshots are read back -/

/-- Every key and every value is short enough for its length field. -/
def Live.Fits (live : Live) : Prop :=
  ∀ e ∈ live.entries, e.1.length < 2 ^ 32 ∧ e.2.length < 2 ^ 32

/-- The entries of a snapshot read back. -/
theorem parse_entries_flat_map {es : List (Bytes × Bytes)}
    (h : ∀ e ∈ es, e.1.length < 2 ^ 32 ∧ e.2.length < 2 ^ 32) {fuel : ℕ} (hfuel : es.length ≤ fuel)
    (live : Live) : parseEntries fuel live (es.flatMap encodeEntry) = .ok (live.insertAll es) := by
  induction es generalizing fuel live with
  | nil => cases fuel <;> rfl
  | cons e rest ih =>
    obtain ⟨fuel, rfl⟩ : ∃ n, fuel = n + 1 := Nat.exists_eq_succ_of_ne_zero (by
      simp only [length_cons] at hfuel
      omega)
    obtain ⟨hkey, hvalue⟩ := h e mem_cons_self
    have hsplit : (e :: rest).flatMap encodeEntry =
        lengthPrefixed e.1 ++ (lengthPrefixed e.2 ++ rest.flatMap encodeEntry) := by
      rw [flatMap_cons, encodeEntry, append_assoc]
    have htake := take_bytes_length_prefixed hkey (lengthPrefixed e.2 ++ rest.flatMap encodeEntry)
    obtain ⟨b, body, hcons⟩ : ∃ b body, (e :: rest).flatMap encodeEntry = b :: body := by
      refine exists_cons_of_length_pos ?_
      rw [hsplit]
      simp only [length_append, lengthPrefixed, length_uint32, bytesPerLengthOffset]
      omega
    rw [← hsplit, hcons] at htake
    rw [hcons, parseEntries, htake]
    simp only [take_bytes_length_prefixed hvalue]
    exact ih (fun e' he' => h e' (mem_cons_of_mem _ he')) (Nat.le_of_succ_le_succ hfuel) _

theorem length_le_flat_map_encode_entry (es : List (Bytes × Bytes)) :
    es.length ≤ (es.flatMap encodeEntry).length := by
  induction es with
  | nil => simp
  | cons e rest ih =>
    simp only [flatMap_cons, length_append, length_cons, encodeEntry,
      lengthPrefixed, length_uint32, bytesPerLengthOffset]
    omega

variable {live : Live}

/-- A snapshot that was written is read back. -/
theorem decode_encode_snapshot (h : live.Fits) :
    decodeSnapshot (encodeSnapshot live) = .ok live := by
  have hlen : (encodeSnapshot live).length = snapshotHeaderLen + (snapshotBody live).length := by
    simp [encodeSnapshot, snapshotMagic, snapshotHeaderLen, bytesPerLengthOffset]
    omega
  have hmagic : (encodeSnapshot live).take 8 = snapshotMagic := take_left' rfl
  have hversion : (encodeSnapshot live)[7]? = some formatVersion := by
    rfl
  have hlength : (encodeSnapshot live).drop 8 = uint64 (UInt64.ofNat (snapshotBody live).length) ++
      (uint32 (crc32 (snapshotBody live)).toNat ++ snapshotBody live) := drop_left' rfl
  have hcrc : (encodeSnapshot live).drop 16 =
      uint32 (crc32 (snapshotBody live)).toNat ++ snapshotBody live := by
    rw [encodeSnapshot, ← append_assoc]
    exact drop_left' (by simp [snapshotMagic])
  have hbody : (encodeSnapshot live).drop snapshotHeaderLen = snapshotBody live := by
    rw [encodeSnapshot, ← append_assoc, ← append_assoc]
    exact drop_left' (by simp [snapshotMagic, snapshotHeaderLen, bytesPerLengthOffset])
  unfold decodeSnapshot
  rw [if_neg (by omega), if_neg (by simp [hversion]), if_neg (by simp [hmagic]), hlength,
    read_uint64_append, hlen, Nat.add_sub_cancel_left, if_neg (by simp)]
  simp only [hbody, hcrc, read_uint32_append]
  rw [if_neg (by simp), snapshotBody, parse_entries_flat_map h
    (length_le_flat_map_encode_entry live.entries), insert_all_entries]

/-! ## Applying twice -/

/-- What the last mutation of a key leaves under it. -/
def lastWrite (key : Bytes) : List Mutation → Option (Option Bytes)
  | [] => none
  | .put k v :: rest => (lastWrite key rest).or (if k = key then some (some v) else none)
  | .delete k :: rest => (lastWrite key rest).or (if k = key then some none else none)

theorem find_apply_batch (live : Live) (b : Batch) (key : Bytes) :
    (applyBatch live b).find? key = (lastWrite key b).getD (live.find? key) := by
  unfold applyBatch
  induction b generalizing live with
  | nil => rfl
  | cons m rest ih =>
    rw [foldl_cons, ih]
    cases m with
    | put k v =>
      rw [apply, find_insert, lastWrite]
      cases lastWrite key rest <;> by_cases hk : k = key <;> simp [hk]
    | delete k =>
      rw [apply, find_erase, lastWrite]
      cases lastWrite key rest <;> by_cases hk : k = key <;> simp [hk]

theorem apply_batches_eq (live : Live) (bs : List Batch) :
    applyBatches live bs = applyBatch live bs.flatten := by
  unfold applyBatches applyBatch
  rw [foldl_flatten]

theorem apply_batches_append (live : Live) (bs cs : List Batch) :
    applyBatches live (bs ++ cs) = applyBatches (applyBatches live bs) cs := foldl_append

/-- Replaying mutations over the view they led to changes nothing. -/
theorem apply_batches_idempotent (live : Live) (bs : List Batch) :
    applyBatches (applyBatches live bs) bs = applyBatches live bs := by
  simp only [apply_batches_eq]
  refine ext_find fun key => ?_
  rw [find_apply_batch, find_apply_batch]
  cases lastWrite key bs.flatten <;> rfl

/-! ## Sizes -/

theorem Live.Fits.apply (h : live.Fits) {m : Mutation} (hm : m.Fits) :
    Live.Fits (m.apply live) := by
  intro e he
  cases m with
  | put key value =>
    rcases mem_insert_list he with rfl | he
    · exact hm
    · exact h e he
  | delete key => exact h e (mem_of_mem_filter he)

/-! ## Nothing else is read -/

theorem length_of_take_bytes {raw value rest : Bytes} (h : takeBytes raw = some (value, rest)) :
    value.length < 2 ^ 32 := by
  unfold takeBytes at h
  dsimp only at h
  split_ifs at h
  obtain ⟨rfl, -⟩ := Prod.mk.inj (Option.some.inj h)
  have hlen := length_take_le (4 + (readUint32 raw).toNat - 4) (raw.drop 4)
  have hlt := (readUint32 raw).toNat_lt
  unfold List.extract
  omega

theorem parse_entries_fits {fuel : ℕ} {live live' : Live} {body : Bytes} (hlive : live.Fits)
    (h : parseEntries fuel live body = .ok live') : live'.Fits := by
  fun_induction parseEntries fuel live body with
  | case1 _ live => exact Except.ok.inj h ▸ hlive
  | case2 | case3 | case4 => cases h
  | case5 live fuel b body key rest hkey value rest' hvalue ih =>
    have hfits : Mutation.Fits (.put key value) :=
      ⟨length_of_take_bytes hkey, length_of_take_bytes hvalue⟩
    exact ih (hlive.apply hfits) h

theorem decode_snapshot_eq_ok {live : Live} {raw : Bytes} (h : decodeSnapshot raw = .ok live) :
    live.Fits ∧ snapshotHeaderLen ≤ raw.length ∧
      UInt64.ofNat (raw.length - snapshotHeaderLen) = readUint64 (raw.drop 8) := by
  unfold decodeSnapshot at h
  dsimp only at h
  split_ifs at h with hlen hformat hmagic hbody hcrc
  exact ⟨parse_entries_fits (fun _ he => absurd he not_mem_nil) h, not_lt.mp hlen, not_not.mp hbody⟩

/-- A batch that fits a record is read back from it whatever follows, and a view from its snapshot
just when the length fields hold its keys and values. A strict piece of a snapshot that can be read,
no longer than a slice can be, is refused. -/
theorem codecs_round_trip :
    (∀ b seq more, batchSize b ≤ maxRecordLen →
      (escapePayload (b.flatMap Mutation.encode)).length ≤ maxRecordLen →
      ∃ record, encodeRecord b seq more = .ok record ∧
        ∀ rest, decodeRecord (record ++ rest) = .ok b seq more record.length) ∧
    (∀ live, decodeSnapshot (encodeSnapshot live) = .ok live ↔ live.Fits) ∧
    ∀ raw live k, raw.length < 2 ^ 63 → decodeSnapshot raw = .ok live → k < raw.length →
      ∀ live', decodeSnapshot (raw.take k) ≠ .ok live' := by
  refine ⟨fun b seq more hsize hlen => ?_, fun live => ?_, ?_⟩
  · have hrecord : encodeRecord b seq more = .ok _ := encode_record_eq_ok.mpr ⟨hsize, hlen, rfl⟩
    exact ⟨_, hrecord, decode_encode_record hrecord⟩
  · exact ⟨fun h => (decode_snapshot_eq_ok h).1, decode_encode_snapshot⟩
  · -- both lengths would be the one in the header
    intro raw live k hraw h hk live' h'
    obtain ⟨-, -, hfull⟩ := decode_snapshot_eq_ok h
    obtain ⟨-, hheader, hpiece⟩ := decode_snapshot_eq_ok h'
    rw [length_take_of_le hk.le] at hheader hpiece
    unfold snapshotHeaderLen at *
    have hfield : readUint64 ((raw.take k).drop 8) = readUint64 (raw.drop 8) := by
      rw [readUint64, readUint64, drop_take, take_take, min_eq_left (by omega)]
    have hnat := congrArg UInt64.toNat (hpiece.trans (hfield.trans hfull.symm))
    rw [UInt64.toNat_ofNat', UInt64.toNat_ofNat'] at hnat
    omega

/-- The length field of a value of `2 ^ 32` bytes is zero. -/
theorem long_value_lost : ∃ live, decodeSnapshot (encodeSnapshot live) ≠ .ok live := by
  obtain ⟨value, hvalue⟩ : ∃ value : Bytes, value.length = 2 ^ 32 :=
    ⟨replicate (2 ^ 32) 0, length_replicate⟩
  refine ⟨FinMap.empty.insert [] value, fun h => ?_⟩
  have hfits := (decode_snapshot_eq_ok h).1 ([], value) (mem_singleton.mpr rfl)
  exact absurd hfits.2 hvalue.not_lt

theorem Live.Fits.apply_batch (h : live.Fits) {b : Batch} (hb : ∀ m ∈ b, m.Fits) :
    Live.Fits (applyBatch live b) := by
  exact b.foldlRecOn _ h fun _ h m hm => Live.Fits.apply h (hb m hm)

theorem Live.Fits.apply_batches (h : live.Fits) {bs : List Batch} (hb : ∀ b ∈ bs, ∀ m ∈ b, m.Fits) :
    Live.Fits (applyBatches live bs) := by
  exact bs.foldlRecOn _ h fun _ h b hmem => Live.Fits.apply_batch h (hb b hmem)

end Zycord.Storage
