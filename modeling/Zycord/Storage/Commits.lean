import Zycord.Storage.Record

/-!
# The commit sidecar

The file `commits` next to the log: two checksummed slots, written alternately, that hold the
highest sequence the store has reported committed. Recovery reads it in one direction only, to
refuse a cut (`CommitEvidence.withholds`). `SidecarHolds.write` and `SidecarHolds.torn` say what the
sidecar holds after a slot was written and after the write was torn, and `SidecarHolds.read` what is
read from it.
-/

namespace Zycord.Storage

open ByteString List Nat Ssz UInt64

/-- The length of a slot. -/
def commitSlotLen : ℕ := 32

/-- The distance of the two slots: different device sectors. -/
def commitSlotStride : ℕ := 512

/-- The length of the sidecar, set at its creation. -/
def commitsFileLen : ℕ := 4096

/-- What a slot begins with. -/
def commitsMagic : Bytes := [0x43, 0x4D, 0x54, formatVersion]

/-- A slot up to its checksum; the reserved bytes are zero. -/
def slotFront (counter highPlusOne : UInt64) : Bytes :=
  commitsMagic ++ (uint64 counter ++ (uint64 highPlusOne ++ List.replicate 8 0))

/-- One slot: its write counter and one more than the sequence it names, zero for none. -/
def encodeCommitSlot (counter highPlusOne : UInt64) : Bytes :=
  slotFront counter highPlusOne ++ uint32 (crc32 (slotFront counter highPlusOne)).toNat

/-- Read a slot, if magic, version and checksum agree. -/
def decodeCommitSlot (raw : Bytes) : Option (UInt64 × UInt64) :=
  if raw.length < commitSlotLen then none
  else if raw.take 4 ≠ commitsMagic then none
  else if readUint32 (raw.drop 28) ≠ crc32 (raw.take 28) then none
  else some (readUint64 (raw.drop 4), readUint64 (raw.drop 12))

/-- What the sidecar establishes. Only verified evidence of a committed sequence can withhold a
cut. -/
structure CommitEvidence where
  verified : Bool
  has : Bool
  high : UInt64
  counter : UInt64
deriving DecidableEq

namespace CommitEvidence

/-- What a directory without a sidecar establishes. -/
def absent : CommitEvidence := ⟨false, false, 0, 0⟩

/-- What a verified slot says. -/
def ofSlot (counter highPlusOne : UInt64) : CommitEvidence :=
  if highPlusOne = 0 then ⟨true, false, 0, counter⟩ else ⟨true, true, highPlusOne - 1, counter⟩

/-- Whether the evidence forbids a cut that starts at a sequence. -/
def withholds (e : CommitEvidence) (firstCutSeq : UInt64) : Bool :=
  e.verified && e.has && decide (firstCutSeq ≤ e.high)

end CommitEvidence

/-- Take a slot into account: the slot with the higher counter wins, never the one with the
higher sequence. -/
def considerSlot (raw : Bytes) (best : CommitEvidence) (off : ℕ) : CommitEvidence :=
  if raw.length < off + commitSlotLen then best
  else
    match decodeCommitSlot (raw.extract off (off + commitSlotLen)) with
    | none => best
    | some (counter, highPlusOne) =>
      if best.verified && decide (counter ≤ best.counter) then best
      else .ofSlot counter highPlusOne

/-- Read the sidecar of a directory. -/
def readCommitEvidence : Option Bytes → CommitEvidence
  | none => .absent
  | some raw => [0, commitSlotStride].foldl (considerSlot raw) .absent

/-- Where the slot of a counter stands. -/
def nextCommitSlotOffset (counter : UInt64) : ℕ :=
  if counter % 2 = 0 then 0 else commitSlotStride

/-- Overwrite bytes of a file in place; a gap before them is filled with zeros. -/
def writeAt (file : Bytes) (off : ℕ) (bytes : Bytes) : Bytes :=
  file.takeD off 0 ++ (bytes ++ file.drop (off + bytes.length))

/-! ## Slots are read back -/

@[simp] theorem length_slot_front (counter highPlusOne : UInt64) :
    (slotFront counter highPlusOne).length = 28 := by
  simp [slotFront, commitsMagic]

@[simp] theorem length_encode_commit_slot (counter highPlusOne : UInt64) :
    (encodeCommitSlot counter highPlusOne).length = commitSlotLen := by
  simp [encodeCommitSlot, commitSlotLen, bytesPerLengthOffset]

/-- A slot that was written is read back. -/
theorem decode_encode_commit_slot (counter highPlusOne : UInt64) :
    decodeCommitSlot (encodeCommitSlot counter highPlusOne) = some (counter, highPlusOne) := by
  have hfront : (encodeCommitSlot counter highPlusOne).take 28 = slotFront counter highPlusOne :=
    take_left' (length_slot_front _ _)
  have hcrc : (encodeCommitSlot counter highPlusOne).drop 28 =
      uint32 (crc32 (slotFront counter highPlusOne)).toNat ++ [] :=
    drop_left' (length_slot_front _ _)
  have hmagic : (encodeCommitSlot counter highPlusOne).take 4 = commitsMagic := rfl
  have hcounter : (encodeCommitSlot counter highPlusOne).drop 4 =
      uint64 counter ++ (encodeCommitSlot counter highPlusOne).drop 12 := rfl
  have hhigh : (encodeCommitSlot counter highPlusOne).drop 12 =
      uint64 highPlusOne ++ (encodeCommitSlot counter highPlusOne).drop 20 := rfl
  unfold decodeCommitSlot
  rw [if_neg (by simp), if_neg (not_not.mpr hmagic), hcrc, hfront, read_uint32_append,
    if_neg (by simp), hcounter, hhigh, read_uint64_append, read_uint64_append]

/-! ## What the sidecar holds -/

/-- The bytes in the place of the slot of a counter. -/
def slotAt (file : Bytes) (counter : UInt64) : Bytes :=
  file.extract (nextCommitSlotOffset counter) (nextCommitSlotOffset counter + commitSlotLen)

/-- The slots of two counters in sequence stand in different places. -/
theorem offset_cases (counter : UInt64) :
    (nextCommitSlotOffset counter = 0 ∧ nextCommitSlotOffset (counter + 1) = commitSlotStride) ∨
      (nextCommitSlotOffset counter = commitSlotStride ∧
        nextCommitSlotOffset (counter + 1) = 0) := by
  have hmod : ∀ c : UInt64, c % 2 = 0 ↔ c.toNat % 2 = 0 := by
    intro c
    rw [← UInt64.toNat_inj, UInt64.toNat_mod]
    rfl
  have hsucc : (counter + 1).toNat % 2 = (counter.toNat + 1) % 2 := by
    rw [UInt64.toNat_add]
    have hone : (1 : UInt64).toNat = 1 := rfl
    omega
  unfold nextCommitSlotOffset
  simp only [hmod, hsucc]
  rcases mod_two_eq_zero_or_one counter.toNat with h | h
  · left
    rw [if_pos h, if_neg (by omega)]
    exact ⟨rfl, rfl⟩
  · right
    rw [if_neg (by omega), if_pos (by omega)]
    exact ⟨rfl, rfl⟩

/-- A sidecar in which a slot can be written without a slot appearing elsewhere: it holds the first
slot, or nothing at all, as where a crash falls into its creation. -/
def SlotsOrEmpty (file : Bytes) : Prop := file = [] ∨ commitSlotLen ≤ file.length

/-- The sidecar holds a counter and a sequence: the slot of that counter says so, and the other
slot is unreadable or older. Before the first write neither slot is readable. -/
structure SidecarHolds (file : Bytes) (counter highPlusOne : UInt64) : Prop where
  whole : SlotsOrEmpty file
  slots : (counter = 0 ∧ highPlusOne = 0 ∧ decodeCommitSlot (slotAt file 0) = none ∧
      decodeCommitSlot (slotAt file 1) = none) ∨
    (decodeCommitSlot (slotAt file counter) = some (counter, highPlusOne) ∧
      ∀ slot, decodeCommitSlot (slotAt file (counter + 1)) = some slot → slot.1 < counter)

theorem sidecar_holds_zeros : SidecarHolds (List.replicate commitsFileLen 0) 0 0 := by
  refine ⟨Or.inr (by rw [length_replicate]; decide), Or.inl ⟨rfl, rfl, ?_, ?_⟩⟩ <;> decide +kernel

theorem sidecar_holds_empty : SidecarHolds [] 0 0 := ⟨Or.inl rfl, Or.inl ⟨rfl, rfl, rfl, rfl⟩⟩

variable {file : Bytes}

theorem SidecarHolds.counter_of_empty {counter high : UInt64}
    (h : SidecarHolds file counter high) (hempty : file = []) : counter = 0 := by
  subst hempty
  have hnone : decodeCommitSlot (slotAt [] counter) = none := by
    simp [slotAt, extract, decodeCommitSlot, commitSlotLen]
  rcases h.slots with ⟨rfl, -⟩ | ⟨hcurrent, -⟩
  · rfl
  · exact nomatch hnone.symm.trans hcurrent

section Overwriting

variable {bytes : Bytes} {off : ℕ}

theorem length_le_write_at : bytes.length ≤ (writeAt file off bytes).length := by
  simp only [writeAt, length_append]
  omega

theorem extract_write_at : (writeAt file off bytes).extract off (off + bytes.length) = bytes := by
  have hfront : (file.takeD off 0).length = off := takeD_length _ _ _
  have hmiddle := extract_middle (file.takeD off 0) bytes (file.drop (off + bytes.length))
  rwa [hfront] at hmiddle

variable {i j : ℕ}

theorem extract_write_at_before (hlen : j ≤ file.length) (hj : j ≤ off) :
    (writeAt file off bytes).extract i j = file.extract i j := by
  rcases le_total off file.length with hoff | hoff
  · rw [writeAt, takeD_eq_take _ hoff, extract_append_left (by rw [length_take]; omega)]
    simp only [extract, drop_take, take_take]
    rw [min_eq_left (by omega)]
  · rw [writeAt, takeD_eq_append hoff, append_assoc, extract_append_left hlen]

theorem extract_write_at_behind (h : off + bytes.length ≤ i) :
    (writeAt file off bytes).extract i j = file.extract i j := by
  rw [writeAt, ← append_assoc, extract_append_right (by simpa using h)]
  simp only [extract, drop_drop, length_append, takeD_length]
  congr 1
  · omega
  · congr 1
    omega

end Overwriting

variable {slot : Bytes} {high counter : UInt64}

theorem slot_at_self (file : Bytes) (hslot : slot.length = commitSlotLen) (counter : UInt64) :
    slotAt (writeAt file (nextCommitSlotOffset counter) slot) counter = slot := by
  unfold slotAt
  rw [← hslot]
  exact extract_write_at

/-- Writing one slot leaves the other. -/
theorem slot_at_write (hlen : commitSlotLen ≤ file.length) (hslot : slot.length = commitSlotLen)
    (counter : UInt64) :
    slotAt (writeAt file (nextCommitSlotOffset counter) slot) (counter + 1) =
      slotAt file (counter + 1) := by
  have hstride : commitSlotLen ≤ commitSlotStride := by decide
  unfold slotAt
  rcases offset_cases counter with ⟨h0, h1⟩ | ⟨h0, h1⟩
  · rw [h0, h1]
    exact extract_write_at_behind (by omega)
  · rw [h0, h1]
    exact extract_write_at_before (by omega) (by omega)

theorem slot_at_add_two (file : Bytes) (counter : UInt64) :
    slotAt file (counter + 1 + 1) = slotAt file counter := by
  unfold slotAt
  rcases offset_cases counter with ⟨h0, h1⟩ | ⟨h0, h1⟩ <;>
    rcases offset_cases (counter + 1) with ⟨h2, h3⟩ | ⟨h2, h3⟩ <;>
    simp_all [commitSlotStride]

theorem to_nat_succ {n : UInt64} (h : n.toNat + 1 < 2 ^ 64) : (n + 1).toNat = n.toNat + 1 := by
  exact mod_eq_of_lt h

/-- Writing the next slot leaves the slot that was current, and no other becomes readable. -/
theorem slot_written (hwhole : SlotsOrEmpty file)
    (hempty : file = [] → counter = 0) (hslot : slot.length = commitSlotLen) :
    SlotsOrEmpty (writeAt file (nextCommitSlotOffset (counter + 1)) slot) ∧
      decodeCommitSlot (slotAt (writeAt file (nextCommitSlotOffset (counter + 1)) slot)
        (counter + 1 + 1)) = decodeCommitSlot (slotAt file counter) := by
  refine ⟨.inr (hslot.symm.trans_le length_le_write_at), ?_⟩
  rcases hwhole with rfl | hlen
  · obtain rfl := hempty rfl
    have hself : nextCommitSlotOffset (0 + 1) = commitSlotStride := rfl
    have hother : nextCommitSlotOffset (0 + 1 + 1) = 0 := rfl
    have hzeros : slotAt (writeAt [] (nextCommitSlotOffset (0 + 1)) slot) (0 + 1 + 1) =
        replicate commitSlotLen 0 := by
      rw [slotAt, hother, hself, writeAt, takeD_nil,
        extract_append_left (by rw [length_replicate]; decide), extract,
        drop_zero, take_replicate,
        show min (0 + commitSlotLen - 0) commitSlotStride = commitSlotLen by decide]
    rw [hzeros]
    decide
  · rw [slot_at_write hlen hslot (counter + 1), slot_at_add_two]

/-- A slot written in full is what the sidecar holds afterwards. -/
theorem SidecarHolds.write (h : SidecarHolds file counter high)
    (hroom : counter.toNat + 1 < 2 ^ 64) (high' : UInt64) :
    SidecarHolds (writeAt file (nextCommitSlotOffset (counter + 1))
      (encodeCommitSlot (counter + 1) high')) (counter + 1) high' := by
  obtain ⟨hlen, hother⟩ := slot_written h.whole h.counter_of_empty
    (length_encode_commit_slot (counter + 1) high')
  refine ⟨hlen, Or.inr ⟨?_, ?_⟩⟩
  · rw [slot_at_self _ (length_encode_commit_slot _ _)]
    exact decode_encode_commit_slot _ _
  · -- the other slot is the one that was current before
    intro slot hdecode
    have hlt : counter < counter + 1 := by
      rw [lt_iff_toNat_lt, to_nat_succ hroom]
      exact lt_succ_self _
    rw [hother] at hdecode
    rcases h.slots with ⟨rfl, -, hnone, -⟩ | ⟨hcurrent, -⟩
    · rw [hnone] at hdecode
      cases hdecode
    · rw [hcurrent] at hdecode
      cases hdecode
      exact hlt

/-- A slot write that was torn leaves what the sidecar held before: the slot it was going to hold
the new value is unreadable, or still the old one. -/
theorem SidecarHolds.torn (h : SidecarHolds file counter high)
    (hslot : slot.length = commitSlotLen)
    (htorn : decodeCommitSlot slot = none ∨
      decodeCommitSlot slot = decodeCommitSlot (slotAt file (counter + 1))) :
    SidecarHolds (writeAt file (nextCommitSlotOffset (counter + 1)) slot) counter high := by
  obtain ⟨hlen, hother⟩ := slot_written h.whole h.counter_of_empty hslot
  have hself := slot_at_self file hslot (counter + 1)
  rw [slot_at_add_two] at hother
  refine ⟨hlen, ?_⟩
  rcases h.slots with ⟨rfl, rfl, hzero, hone⟩ | ⟨hcurrent, holder⟩
  · refine Or.inl ⟨rfl, rfl, hother.trans hzero, ?_⟩
    have hdecode : decodeCommitSlot slot = none := htorn.elim id fun h' => h'.trans hone
    exact (congrArg decodeCommitSlot hself).trans hdecode
  · refine Or.inr ⟨hother.trans hcurrent, fun found hfound => ?_⟩
    rw [hself] at hfound
    rcases htorn with hnone | hold
    · rw [hnone] at hfound
      cases hfound
    · exact holder found (hold ▸ hfound)

/-! ## What recovery reads -/

namespace CommitEvidence

@[simp] theorem verified_of_slot (counter high : UInt64) :
    (ofSlot counter high).verified = true := by
  unfold ofSlot
  split <;> rfl

@[simp] theorem counter_of_slot (counter high : UInt64) :
    (ofSlot counter high).counter = counter := by
  unfold ofSlot
  split <;> rfl

end CommitEvidence

variable {best : CommitEvidence} {seq high counter : UInt64} {slot : UInt64 × UInt64}

theorem consider_slot_none {off : ℕ}
    (h : decodeCommitSlot (file.extract off (off + commitSlotLen)) = none) :
    considerSlot file best off = best := by
  unfold considerSlot
  rw [h]
  split <;> rfl

/-- A slot that can be read lies within the file, and is taken into account. -/
theorem consider_slot_some {off : ℕ}
    (h : decodeCommitSlot (file.extract off (off + commitSlotLen)) = some (counter, high)) :
    considerSlot file best off =
      if best.verified && decide (counter ≤ best.counter) then best else .ofSlot counter high := by
  have hwithin : ¬ file.length < off + commitSlotLen := by
    intro hshort
    have hlen : (file.extract off (off + commitSlotLen)).length < commitSlotLen := by
      rw [extract, length_take, length_drop]
      unfold commitSlotLen at hshort ⊢
      omega
    rw [decodeCommitSlot, if_pos hlen] at h
    cases h
  unfold considerSlot
  rw [if_neg hwithin, h]

/-- The slot of the current counter is the one that is read. -/
theorem read_of_current
    (hcurrent : decodeCommitSlot (slotAt file counter) = some (counter, high))
    (holder : ∀ slot, decodeCommitSlot (slotAt file (counter + 1)) = some slot → slot.1 < counter) :
    readCommitEvidence (some file) = .ofSlot counter high := by
  show considerSlot file (considerSlot file .absent 0) commitSlotStride = _
  unfold slotAt at hcurrent holder
  rcases offset_cases counter with ⟨h0, h1⟩ | ⟨h0, h1⟩
  · -- the current slot comes first, the older one does not replace it
    rw [h0] at hcurrent
    rw [h1] at holder
    have hfirst : considerSlot file .absent 0 = .ofSlot counter high := by
      rw [consider_slot_some hcurrent]
      rfl
    rw [hfirst]
    cases hother : decodeCommitSlot
        (file.extract commitSlotStride (commitSlotStride + commitSlotLen)) with
    | none => exact consider_slot_none hother
    | some slot =>
      have hle : slot.1.toNat ≤ counter.toNat := (UInt64.lt_iff_toNat_lt.mp (holder slot hother)).le
      rw [consider_slot_some hother, if_pos]
      simpa using UInt64.le_iff_toNat_le.mpr hle
  · -- the current slot comes second and replaces the older one
    rw [h0] at hcurrent
    rw [h1] at holder
    rw [consider_slot_some hcurrent, if_neg]
    cases hother : decodeCommitSlot (file.extract 0 (0 + commitSlotLen)) with
    | none =>
      rw [consider_slot_none hother]
      simp [CommitEvidence.absent]
    | some slot =>
      have hlt := UInt64.lt_iff_toNat_lt.mp (holder slot hother)
      have hfirst : considerSlot file .absent 0 = .ofSlot slot.1 slot.2 := by
        rw [consider_slot_some hother]
        rfl
      rw [hfirst]
      simp only [CommitEvidence.verified_of_slot, CommitEvidence.counter_of_slot,
        Bool.true_and, decide_eq_true_eq, UInt64.le_iff_toNat_le]
      omega

/-- The evidence a sidecar gives is that of the slot it holds; before the first write there is
none. -/
theorem SidecarHolds.read (h : SidecarHolds file counter high) :
    readCommitEvidence (some file) = .ofSlot counter high ∨
      (readCommitEvidence (some file) = .absent ∧ counter = 0 ∧ high = 0) := by
  rcases h.slots with ⟨rfl, rfl, hzero, hone⟩ | ⟨hcurrent, holder⟩
  · refine Or.inr ⟨?_, rfl, rfl⟩
    exact (consider_slot_none hone).trans (consider_slot_none hzero)
  · exact Or.inl (read_of_current hcurrent holder)

theorem counter_le_consider (hbest : best.verified = true) (off : ℕ) :
    best.counter ≤ (considerSlot file best off).counter := by
  unfold considerSlot
  split
  · exact UInt64.le_refl _
  · split
    · exact UInt64.le_refl _
    · rename_i counter high hslot
      split_ifs with hlt
      · exact UInt64.le_refl _
      · rw [hbest, Bool.true_and, decide_eq_true_eq, UInt64.not_le] at hlt
        rw [CommitEvidence.counter_of_slot]
        exact UInt64.le_of_lt hlt

theorem consider_reads (best : CommitEvidence) {off : ℕ}
    (hslot : decodeCommitSlot (file.extract off (off + commitSlotLen)) = some slot) :
    (considerSlot file best off).verified = true ∧
      slot.1 ≤ (considerSlot file best off).counter := by
  rw [consider_slot_some hslot]
  split_ifs with hbest
  · rw [Bool.and_eq_true, decide_eq_true_eq] at hbest
    exact hbest
  · exact ⟨CommitEvidence.verified_of_slot _ _, (UInt64.le_refl _).trans_eq
      (CommitEvidence.counter_of_slot _ _).symm⟩

/-- What is read has the highest counter. -/
theorem counter_le_of_slot {c : UInt64}
    (hslot : decodeCommitSlot (slotAt file c) = some slot) :
    slot.1 ≤ (readCommitEvidence (some file)).counter := by
  unfold slotAt at hslot
  show slot.1 ≤ (considerSlot file (considerSlot file .absent 0) commitSlotStride).counter
  rcases offset_cases c with ⟨hoff, -⟩ | ⟨hoff, -⟩
  · rw [hoff] at hslot
    obtain ⟨hverified, hle⟩ := consider_reads .absent hslot
    exact UInt64.le_trans hle (counter_le_consider hverified _)
  · rw [hoff] at hslot
    exact (consider_reads _ hslot).2

/-- A slot written behind what was read is what is read next. -/
theorem read_written (hwhole : SlotsOrEmpty file)
    (hread : (readCommitEvidence (some file)).counter = counter)
    (hroom : counter.toNat + 1 < 2 ^ 64) (high : UInt64) :
    readCommitEvidence (some (writeAt file (nextCommitSlotOffset (counter + 1))
      (encodeCommitSlot (counter + 1) high))) = .ofSlot (counter + 1) high := by
  have hempty : file = [] → counter = 0 := by
    rintro rfl
    exact hread.symm
  have hother := (slot_written hwhole hempty (length_encode_commit_slot (counter + 1) high)).2
  have hself : decodeCommitSlot (slotAt (writeAt file (nextCommitSlotOffset (counter + 1))
      (encodeCommitSlot (counter + 1) high)) (counter + 1)) = some (counter + 1, high) := by
    rw [slot_at_self _ (length_encode_commit_slot _ _)]
    exact decode_encode_commit_slot _ _
  refine read_of_current hself fun slot hslot => ?_
  rw [hother] at hslot
  have hle := le_iff_toNat_le.mp (counter_le_of_slot hslot)
  rw [lt_iff_toNat_lt, to_nat_succ hroom]
  rw [hread] at hle
  omega

theorem not_withholds_of_slot (counter : UInt64) (hle : high ≤ seq) :
    (CommitEvidence.ofSlot counter high).withholds seq = false := by
  unfold CommitEvidence.ofSlot
  split_ifs with hne
  · rfl
  · have hpos : 0 < high.toNat := Nat.pos_of_ne_zero fun hz => hne (UInt64.toNat_inj.mp hz)
    have hpred : (high - 1).toNat = high.toNat - 1 :=
      UInt64.toNat_sub_of_le _ _ (UInt64.le_iff_toNat_le.mpr hpos)
    have hle' := UInt64.le_iff_toNat_le.mp hle
    simp only [CommitEvidence.withholds, Bool.true_and, decide_eq_false_iff_not,
      UInt64.le_iff_toNat_le, hpred]
    omega

theorem SidecarHolds.not_withholds (h : SidecarHolds file counter high)
    (hle : high ≤ seq) : (readCommitEvidence (some file)).withholds seq = false := by
  rcases h.read with hread | ⟨hread, -, -⟩
  · rw [hread]
    exact not_withholds_of_slot counter hle
  · rw [hread]
    rfl

end Zycord.Storage
