import Zycord.Lib.FinMap
import Zycord.Storage.Commits
import Zycord.Storage.Scan

/-!
# Replaying the log

`replayLog`: the recovery of a store from its log. Records are read in sequence; the parts of a
group are held until its last record is read. At the first record that does not decode recovery
decides between a torn tail, which is cut off, and damage with committed data behind it, which is
refused. `cut_discards_no_commit` says that a cut at a damaged record never discards an intact
last record of a transaction, and that an undecided search is refused.
-/

namespace Zycord.Storage

/-- The live view: what every key holds. -/
abbrev Live := FinMap Bytes Bytes

/-- Apply a mutation. -/
def Mutation.apply (live : Live) : Mutation → Live
  | put key value => live.insert key value
  | delete key => live.erase key

/-- Apply a batch. -/
def applyBatch (live : Live) (b : Batch) : Live := b.foldl Mutation.apply live

/-- The effect of several batches, in order. -/
def applyBatches (live : Live) (bs : List Batch) : Live := bs.foldl applyBatch live

/-! ## Reading in sequence -/

/-- What recovery refuses, with the numbers its report names. -/
inductive Refusal where
  | format (version : UInt8)
  | countdown (offset groupStart : ℕ) (more : UInt32) (expected : UInt64)
  | outOfSequence (offset : ℕ) (seq expected : UInt64)
  | maxLen (offset : ℕ)
  | recordBehindFrame (offset : ℕ) (expected : UInt64) (hit : ℕ)
  | recordInRegion (offset : ℕ) (expected : UInt64) (hit : ℕ)
  | inconclusive (offset : ℕ) (expected : UInt64)
  | withheld (offset : ℕ) (expected : UInt64) (cutAt : ℕ) (firstCutSeq high : UInt64)
  | groupWithheld (groupStart : ℕ) (groupSeq high : UInt64)
  | commitGone (expected high : UInt64)
deriving DecidableEq

/-- What has been read so far: the live view, the parts of an open group, where the group starts
and ends, the bytes consumed and the sequence expected next. -/
structure Progress where
  live : Live
  pending : List Batch
  groupStart : ℕ
  groupSeq : UInt64
  groupFinalSeq : UInt64
  consumed : ℕ
  expectedSeq : UInt64
deriving DecidableEq

/-- Recovery before the first record. -/
def Progress.start (live : Live) : Progress := ⟨live, [], 0, 0, 0, 0, 0⟩

/-- The last sequence of the open group. -/
def Progress.openGroupFinalSeq (st : Progress) : UInt64 :=
  if st.pending = [] then 0 else st.groupFinalSeq

/-- Hold a part of a group; the first one opens the group. -/
def Progress.hold (st : Progress) (batch : Batch) (seq : UInt64) (more : UInt32) (n : ℕ) :
    Progress :=
  let opened :=
    if st.pending = [] then
      { st with
        groupStart := st.consumed
        groupSeq := seq
        groupFinalSeq := seq + more.toUInt64 }
    else st
  { opened with
    pending := st.pending ++ [batch]
    consumed := st.consumed + n
    expectedSeq := st.expectedSeq + 1 }

/-- Apply a transaction whose last record was read. -/
def Progress.complete (st : Progress) (batch : Batch) (n : ℕ) : Progress :=
  { st with
    live := applyBatches st.live (st.pending ++ [batch])
    pending := []
    consumed := st.consumed + n
    expectedSeq := st.expectedSeq + 1 }

/-- How a record failed to decode; the frame of a bad payload ends after the bytes given. -/
inductive Damage where
  | torn
  | headerUntrusted
  | payloadBad (n : ℕ)
deriving DecidableEq

/-- Why reading stopped. -/
inductive Stop where
  | finished (st : Progress)
  | damaged (st : Progress) (damage : Damage)
  | refused (why : Refusal)
deriving DecidableEq

/-- Take an intact record into account, or refuse it. -/
def Progress.accept (st : Progress) (batch : Batch) (seq : UInt64) (more : UInt32) (n : ℕ) :
    Except Refusal Progress :=
  if seq ≠ st.expectedSeq then .error (.outOfSequence st.consumed seq st.expectedSeq)
  else if st.pending ≠ [] ∧ seq + more.toUInt64 ≠ st.groupFinalSeq then
    .error (.countdown st.consumed st.groupStart more (st.groupFinalSeq - seq))
  else if 0 < more then .ok (st.hold batch seq more n)
  else .ok (st.complete batch n)

/-- Read records until the log ends or one of them is not in order. A record takes more than one
byte, so the length of the log bounds the number of rounds. -/
def readRecords (raw : Bytes) : ℕ → Progress → Stop
  | 0, st => .finished st
  | fuel + 1, st =>
    if st.consumed < raw.length then
      match decodeRecord (raw.drop st.consumed) with
      | .ok batch seq more n =>
        match st.accept batch seq more n with
        | .ok st => readRecords raw fuel st
        | .error why => .refused why
      | .torn => .damaged st .torn
      | .headerUntrusted => .damaged st .headerUntrusted
      | .payloadBad n => .damaged st (.payloadBad n)
      | .maxLenExceeded => .refused (.maxLen st.consumed)
    else .finished st

/-- Read a whole log. -/
def readLog (live : Live) (raw : Bytes) : Stop := readRecords raw raw.length (.start live)

/-! ## The decision -/

/-- A store as recovery leaves it: the live view, the sequence of the next record, and where the
log was cut, if it was. -/
structure Recovered where
  live : Live
  nextSeq : UInt64
  cut : Option ℕ
deriving DecidableEq

/-- The bytes searched behind a damaged record, with their offset: none behind a short write, all
from the record on if its frame cannot be believed, those behind its frame otherwise. -/
def Damage.region (raw : Bytes) (st : Progress) : Damage → Option (ℕ × Bytes)
  | torn => none
  | headerUntrusted => some (st.consumed, raw.drop st.consumed)
  | payloadBad n =>
    if n ≤ raw.length - st.consumed then some (st.consumed + n, raw.drop (st.consumed + n))
    else none

/-- Search behind the damage, and refuse unless the search came back empty. -/
def searchBehind (raw : Bytes) (st : Progress) (damage : Damage) : Except Refusal Unit :=
  match damage.region raw st with
  | none => .ok ()
  | some (offset, region) =>
    match findNextRecord region st.expectedSeq st.openGroupFinalSeq with
    | .nothingFound => .ok ()
    | .found off =>
      if st.consumed < offset then
        .error (.recordBehindFrame st.consumed st.expectedSeq (offset + off))
      else .error (.recordInRegion st.consumed st.expectedSeq (offset + off))
    | .inconclusive => .error (.inconclusive st.consumed st.expectedSeq)

/-- The sequence and the offset a cut starts at: those of the open group, if there is one. -/
def Progress.cutPoint (st : Progress) : UInt64 × ℕ :=
  if st.pending = [] then (st.expectedSeq, st.consumed) else (st.groupSeq, st.groupStart)

/-- The sidecar knows of no later commit. -/
def checkAccounted (evidence : CommitEvidence) (seq : UInt64) : Except Refusal Unit :=
  if evidence.withholds seq then .error (.commitGone seq evidence.high) else .ok ()

/-- Cut the log at a damaged record, or refuse to. -/
def cutDamaged (evidence : CommitEvidence) (raw : Bytes) (st : Progress) (damage : Damage) :
    Except Refusal Recovered := do
  searchBehind raw st damage
  let (firstCutSeq, cutAt) := st.cutPoint
  if evidence.withholds firstCutSeq then
    .error (.withheld st.consumed st.expectedSeq cutAt firstCutSeq evidence.high)
  else
    checkAccounted evidence firstCutSeq
    .ok ⟨st.live, firstCutSeq, some cutAt⟩

/-- A log that was read to its end: cut off a group whose last record never arrived. -/
def closeLog (evidence : CommitEvidence) (st : Progress) : Except Refusal Recovered :=
  if st.pending = [] then do
    checkAccounted evidence st.expectedSeq
    .ok ⟨st.live, st.expectedSeq, none⟩
  else if evidence.withholds st.groupSeq then
    .error (.groupWithheld st.groupStart st.groupSeq evidence.high)
  else do
    checkAccounted evidence st.groupSeq
    .ok ⟨st.live, st.groupSeq, some st.groupStart⟩

/-- The version of a log of another format. -/
def foreignVersion (raw : Bytes) : Option UInt8 :=
  if raw.take 3 = recordMagic.take 3 then
    match raw[3]? with
    | some v => if v ≠ formatVersion then some v else none
    | none => none
  else none

/-- Recover a live view from the log over a snapshot's view. -/
def replayLog (live : Live) (evidence : CommitEvidence) (raw : Bytes) : Except Refusal Recovered :=
  match foreignVersion raw with
  | some v => .error (.format v)
  | none =>
    match readLog live raw with
    | .refused why => .error why
    | .damaged st damage => cutDamaged evidence raw st damage
    | .finished st => closeLog evidence st

/-! ## A cut discards no commit -/

variable {raw : Bytes} {st : Progress} {damage : Damage} {n : ℕ} {evidence : CommitEvidence}
  {out : Recovered}

/-- A bad payload is what decoding at the stop reports. -/
theorem decode_of_damaged {fuel : ℕ} {st₀ : Progress}
    (h : readRecords raw fuel st₀ = .damaged st (.payloadBad n)) :
    decodeRecord (raw.drop st.consumed) = .payloadBad n := by
  induction fuel generalizing st₀ with
  | zero => cases h
  | succ fuel ih =>
    rw [readRecords] at h
    split at h
    · split at h
      · split at h
        · exact ih h
        · cases h
      · cases h
      · cases h
      · rename_i hdecode
        cases h
        exact hdecode
      · cases h
    · cases h

theorem le_length_of_payload_bad (h : decodeRecord raw = .payloadBad n) : n ≤ raw.length := by
  unfold decodeRecord at h
  split at h
  · cases h
  · split at h
    · cases h
    · simp only at h
      split_ifs at h with hmax hspan hcrc
      · cases h
        exact not_lt.mp hspan
      · split at h
        · cases h
          exact not_lt.mp hspan
        · cases h

theorem frame_inside {live : Live} (hstop : readLog live raw = .damaged st (.payloadBad n)) :
    n ≤ raw.length - st.consumed := by
  simpa using le_length_of_payload_bad (decode_of_damaged hstop)

theorem region_of_damaged {live : Live} (hstop : readLog live raw = .damaged st damage)
    (hdamage : damage ≠ .torn) :
    ∃ offset, damage.region raw st = some (offset, raw.drop offset) := by
  cases damage with
  | torn => exact absurd rfl hdamage
  | headerUntrusted => exact ⟨st.consumed, rfl⟩
  | payloadBad n => exact ⟨st.consumed + n, by rw [Damage.region, if_pos (frame_inside hstop)]⟩

theorem check_accounted_eq_ok {seq : UInt64} :
    checkAccounted evidence seq = .ok () ↔ evidence.withholds seq = false := by
  simp [checkAccounted]

/-- Damage is cut where nothing behind it counts and nothing is withheld. -/
theorem cut_damaged_eq_ok :
    cutDamaged evidence raw st damage = .ok out ↔
      searchBehind raw st damage = .ok () ∧ evidence.withholds st.cutPoint.1 = false ∧
        out = ⟨st.live, st.cutPoint.1, some st.cutPoint.2⟩ := by
  simp only [cutDamaged, Except.seq_eq_ok]
  refine and_congr_right fun _ => ?_
  split_ifs with hev
  · simp [hev]
  · simp only [Except.seq_eq_ok, check_accounted_eq_ok, Except.ok.injEq, eq_comm (b := out)]

/-- A log ends well where nothing is withheld. -/
theorem close_log_eq_ok :
    closeLog evidence st = .ok out ↔ evidence.withholds st.cutPoint.1 = false ∧
      out = ⟨st.live, st.cutPoint.1, if st.pending = [] then none else some st.cutPoint.2⟩ := by
  unfold closeLog Progress.cutPoint
  split_ifs with hpending hev
  · simp only [Except.seq_eq_ok, check_accounted_eq_ok, Except.ok.injEq, eq_comm (b := out)]
  · simp [hev]
  · simp only [Except.seq_eq_ok, check_accounted_eq_ok, Except.ok.injEq, eq_comm (b := out)]

/-- A search that passes dismissed every record it met. -/
theorem dismissed_of_search {region : Bytes} {offset : ℕ}
    (hregion : damage.region raw st = some (offset, region))
    (hsearch : searchBehind raw st damage = .ok ()) {i : ℕ} {batch : Batch} {seq : UInt64}
    {more : UInt32} (hdecode : decodeRecord (region.drop i) = .ok batch seq more n)
    (hseq : st.expectedSeq ≤ seq) :
    more ≠ 0 ∧ st.pending ≠ [] ∧ seq < st.groupFinalSeq ∧
      more.toUInt64 = st.groupFinalSeq - seq := by
  have hscan : findNextRecord region st.expectedSeq st.openGroupFinalSeq = .nothingFound := by
    unfold searchBehind at hsearch
    rw [hregion] at hsearch
    cases hfind : findNextRecord region st.expectedSeq st.openGroupFinalSeq with
    | nothingFound => rfl
    | found off =>
      simp only [hfind] at hsearch
      split at hsearch <;> cases hsearch
    | inconclusive => simp [hfind] at hsearch
  obtain ⟨hopen, hlt, hmore⟩ := part_of_not_evidence (nothing_found hscan i) hdecode hseq
  have hpending : st.pending ≠ [] := by
    intro hnil
    exact hopen (by rw [Progress.openGroupFinalSeq, if_pos hnil])
  rw [Progress.openGroupFinalSeq, if_neg hpending] at hlt hmore
  exact ⟨more_ne_zero_of_part hlt hmore, hpending, hlt, hmore⟩

/-- No committed record is silently discarded. Where recovery stops at a record whose header is
untrusted or whose payload is bad, it searches a region behind it. If the search is undecided,
recovery refuses. If recovery succeeds, it cuts the log there, and every intact record of the
region with a sequence at or above the one expected is a part of the open group other than its
last; in particular none of them ends a transaction. -/
theorem cut_discards_no_commit {live : Live} {evidence : CommitEvidence} {raw : Bytes}
    {st : Progress} {damage : Damage} (hstop : readLog live raw = .damaged st damage)
    (hdamage : damage = .headerUntrusted ∨ ∃ n, damage = .payloadBad n) :
    ∃ offset, damage.region raw st = some (offset, raw.drop offset) ∧
      (findNextRecord (raw.drop offset) st.expectedSeq st.openGroupFinalSeq = .inconclusive →
        ∃ why, replayLog live evidence raw = .error why) ∧
      ∀ out, replayLog live evidence raw = .ok out → out.cut = some st.cutPoint.2 ∧
          ∀ i batch seq more n, decodeRecord ((raw.drop offset).drop i) = .ok batch seq more n →
            st.expectedSeq ≤ seq →
            more ≠ 0 ∧ st.pending ≠ [] ∧ seq < st.groupFinalSeq ∧
              more.toUInt64 = st.groupFinalSeq - seq := by
  have hne : damage ≠ .torn := by
    rcases hdamage with rfl | ⟨n, rfl⟩ <;> simp
  obtain ⟨offset, hregion⟩ := region_of_damaged hstop hne
  have hreplay : ∀ out, replayLog live evidence raw = .ok out →
      cutDamaged evidence raw st damage = .ok out := by
    intro out hout
    unfold replayLog at hout
    split at hout
    · cases hout
    · rwa [hstop] at hout
  refine ⟨offset, hregion, fun hinconclusive => ?_, fun out hout => ?_⟩
  · cases hresult : replayLog live evidence raw with
    | error why => exact ⟨why, rfl⟩
    | ok out =>
      have hsearch := (cut_damaged_eq_ok.mp (hreplay out hresult)).1
      unfold searchBehind at hsearch
      rw [hregion] at hsearch
      simp [hinconclusive] at hsearch
  · obtain ⟨hsearch, -, rfl⟩ := cut_damaged_eq_ok.mp (hreplay out hout)
    exact ⟨rfl, fun i batch seq more n hdecode hseq =>
      dismissed_of_search hregion hsearch hdecode hseq⟩

/-- A group of three whose second part lost its header and whose last part never arrived: the
first part, thirty-two zero bytes, and an intact record that claims to be the second part. -/
def holedGroup : Bytes :=
  frameBytes [2, 0, 0, 0, 0] 0 2 ++ (List.replicate 32 0 ++ frameBytes [2, 0, 0, 0, 0] 1 1)

/-- Where reading the group stops: behind its first part. -/
def holedProgress : Progress := ⟨FinMap.empty, [[.delete []]], 0, 0, 2, 37, 1⟩

/-- The group is cut off as a whole, and the intact part behind the hole is dismissed. -/
theorem holed_group_cut :
    replayLog FinMap.empty .absent holedGroup = .ok ⟨FinMap.empty, 0, some 0⟩ ∧
      decodeRecord ((holedGroup.drop 37).drop 32) = .ok [.delete []] 1 1 37 ∧
      ∃ offset, Damage.headerUntrusted.region holedGroup holedProgress =
          some (offset, holedGroup.drop offset) ∧
        (findNextRecord (holedGroup.drop offset) holedProgress.expectedSeq
            holedProgress.openGroupFinalSeq = .inconclusive →
          ∃ why, replayLog FinMap.empty .absent holedGroup = .error why) ∧
        ∀ out, replayLog FinMap.empty .absent holedGroup = .ok out →
          out.cut = some holedProgress.cutPoint.2 ∧ ∀ i batch seq more n,
              decodeRecord ((holedGroup.drop offset).drop i) = .ok batch seq more n →
              holedProgress.expectedSeq ≤ seq →
              more ≠ 0 ∧ holedProgress.pending ≠ [] ∧ seq < holedProgress.groupFinalSeq ∧
                more.toUInt64 = holedProgress.groupFinalSeq - seq :=
  ⟨by decide +kernel, by decide +kernel, cut_discards_no_commit (by decide +kernel) (Or.inl rfl)⟩

end Zycord.Storage
