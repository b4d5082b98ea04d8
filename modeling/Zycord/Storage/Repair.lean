import Zycord.Storage.Recovery

/-!
# Repair

The operator's half of recovery. `diagnose` walks the log once more, with a loop of its own, and
says whether the store opens as it stands, whether a cut can be offered, and where; `applyRepair`
performs the cut that was offered, the sidecar first and the log second.

`walk_agrees` is the simulation between the walk and the reading of recovery. From it:
`damaged_iff`, that a diagnosis reports no damage exactly where the store opens, and
`repair_and_boot_agree`, what an offered cut keeps and what the store opens with behind it.
-/

namespace Zycord.Storage

open ByteString List Progress

/-! ## The report -/

/-- Which of the four refusals behind the damage a report is in, if it is in one. -/
inductive Verdict where
  | none
  | provenUnsafeToCut
  | foundRecordDisproved
  | blockedBySecondDamage
  | searchBeganInsideDamage
deriving DecidableEq

/-- The finding of a report, with the numbers its text names. -/
inductive Finding where
  | snapshotVersion (version : UInt8)
  | snapshotDamaged (why : SnapshotError)
  | noLog
  | logVersion (version : UInt8)
  | countdown (offset : ℕ) (more : UInt32) (groupStart : ℕ) (expected : UInt64)
  | commitMissing (firstMissing high : UInt64)
  | endsInTransaction (groupSeq : UInt64)
  | readsToEnd (records : UInt64)
  | outOfSequence (offset : ℕ) (seq expected : UInt64)
  | maxLen (offset : ℕ)
  | withheld (offset cut : ℕ) (kept high : UInt64)
  | bootDiscardsTail (discard cut : ℕ) (kept : UInt64)
  | bootDiscardsGroup (groupStart : ℕ) (groupSeq kept : UInt64)
  | committedBehind (offset hit : ℕ)
  | insideLaterRecord (offset hit record : ℕ)
  | secondDamage (offset second hit : ℕ)
  | insideDamage (offset hit : ℕ)
  | inconclusive (offset : ℕ)
  | offer (offset : ℕ) (group : Option (ℕ × UInt64)) (discard cut : ℕ) (kept : UInt64)
deriving DecidableEq

/-- What a repair scan established. The offset, the number of bytes discarded and the number of
records kept mean something only when a cut is offered. -/
structure LogDiagnosis where
  size : ℕ
  recordsIntact : UInt64
  recordsKept : UInt64
  damaged : Bool
  offset : ℕ
  discard : ℕ
  repairable : Bool
  verdict : Verdict
  secondDamageOffset : ℕ
  explanation : Finding
deriving DecidableEq

/-- A report that says no more than what was found. -/
def LogDiagnosis.found (explanation : Finding) : LogDiagnosis :=
  ⟨0, 0, 0, false, 0, 0, false, .none, 0, explanation⟩

/-! ## The walk -/

/-- Where the walk stands: the bytes consumed, the sequence expected next, and the open group. -/
structure Walk where
  consumed : ℕ
  expectedSeq : UInt64
  groupStart : ℕ
  groupSeq : UInt64
  groupFinalSeq : UInt64
  groupOpen : Bool
deriving DecidableEq

/-- The walk before the first record. -/
def Walk.start : Walk := ⟨0, 0, 0, 0, 0, false⟩

/-- Step over a record that is in order. -/
def Walk.step (w : Walk) (seq : UInt64) (more : UInt32) (n : ℕ) : Walk :=
  let marked :=
    if 0 < more then
      if w.groupOpen then w
      else
        { w with
          groupOpen := true
          groupStart := w.consumed
          groupSeq := seq
          groupFinalSeq := seq + more.toUInt64 }
    else { w with groupOpen := false }
  { marked with
    consumed := w.consumed + n
    expectedSeq := w.expectedSeq + 1 }

/-- Why the walk stopped: at the end of the log, at a record that is not in order, with what was
decoded there, or at a record with the wrong countdown. -/
inductive WalkStop where
  | toEnd (w : Walk)
  | stopped (w : Walk) (decoded : Decoded)
  | countdown (w : Walk) (more : UInt32) (expected : UInt64)
deriving DecidableEq

/-- Walk the records of a log. A record takes more than one byte, so the length of the log bounds
the number of rounds. -/
def walkRecords (raw : Bytes) : ℕ → Walk → WalkStop
  | 0, w => .toEnd w
  | fuel + 1, w =>
    if w.consumed < raw.length then
      match decodeRecord (raw.drop w.consumed) with
      | .ok batch seq more n =>
        if seq ≠ w.expectedSeq then .stopped w (.ok batch seq more n)
        else if w.groupOpen ∧ seq + more.toUInt64 ≠ w.groupFinalSeq then
          .countdown w more (w.groupFinalSeq - seq)
        else walkRecords raw fuel (w.step seq more n)
      | decoded => .stopped w decoded
    else .toEnd w

/-- The first sequence a cut would remove and the offset it starts at: those of the open group, if
there is one. -/
def Walk.cutPoint (w : Walk) : UInt64 × ℕ :=
  if w.groupOpen then (w.groupSeq, w.groupStart) else (w.expectedSeq, w.consumed)

/-! ## The search behind the damage -/

/-- How much further a repair looks than a boot. -/
def repairScanBudgetMultiple : ℕ := 64

/-- The records a repair looks for: the last records of their transactions. -/
def countsAsTerminal (minSeq seq : UInt64) (more : UInt32) : Bool :=
  decide (minSeq ≤ seq) && more == 0

/-- Search for the last record of a transaction, with a sequence at or above the one given. -/
def findTerminalRecordWithin (raw : Bytes) (minSeq : UInt64) (budget : ℕ) : ScanResult :=
  scanFor (countsAsTerminal minSeq) 0 budget raw

/-- What tiling whole records from a record boundary says about an offset behind it. -/
inductive WalkOutcome where
  | landed
  | steppedOver (pos : ℕ)
  | blocked (pos : ℕ)
deriving DecidableEq

/-- Tile whole records up to an offset. Every intact record takes more than one byte, so the
offset bounds the number of rounds. -/
def walkFramesTo (raw : Bytes) (hit : ℕ) : ℕ → ℕ → WalkOutcome
  | 0, _ => .landed
  | fuel + 1, pos =>
    if pos < hit then
      match decodeRecord (raw.drop pos) with
      | .ok _ _ _ n =>
        if hit < pos + n then .steppedOver pos else walkFramesTo raw hit fuel (pos + n)
      | _ => .blocked pos
    else .landed

/-! ## The diagnosis -/

/-- Where the search behind a damaged record may begin, counted from the record; a short write has
nothing behind it. -/
def scanFrom : Decoded → Option ℕ
  | .headerUntrusted => some 0
  | .payloadBad n => some n
  | _ => none

/-- Where a repair looks for records past the damage. -/
def searchRegion (raw : Bytes) (w : Walk) (decoded : Decoded) : Option (ℕ × Bytes) :=
  match scanFrom decoded with
  | none => none
  | some k =>
    if k ≤ raw.length - w.consumed then some (k, raw.drop (w.consumed + k)) else none

/-- Whether the boot path cuts this tail off by itself: a short write, or nothing found by the boot
path's own search. -/
def selfHealing (raw : Bytes) (w : Walk) (decoded : Decoded) : Bool :=
  decoded = .torn ||
    match searchRegion raw w decoded with
    | none => false
    | some (_, region) =>
      findNextRecord region w.expectedSeq (if w.groupOpen then w.groupFinalSeq else 0) =
        .nothingFound

/-- The report on a last record of a transaction that was found behind the damage. -/
def reportHit (report : LogDiagnosis) (w : Walk) (k : ℕ) (region : Bytes) (hit : ℕ) :
    LogDiagnosis :=
  let hitOffset := w.consumed + k + hit
  if 0 < k then
    match walkFramesTo region hit hit 0 with
    | .landed =>
      { report with
        verdict := .provenUnsafeToCut
        explanation := .committedBehind w.consumed hitOffset }
    | .steppedOver pos =>
      { report with
        verdict := .foundRecordDisproved
        explanation := .insideLaterRecord w.consumed hitOffset (w.consumed + k + pos) }
    | .blocked pos =>
      { report with
        verdict := .blockedBySecondDamage
        secondDamageOffset := w.consumed + k + pos
        explanation := .secondDamage w.consumed (w.consumed + k + pos) hitOffset }
  else
    { report with
      verdict := .searchBeganInsideDamage
      explanation := .insideDamage w.consumed hitOffset }

/-- The report that offers a cut. -/
def offerCut (report : LogDiagnosis) (raw : Bytes) (w : Walk) : LogDiagnosis :=
  let (kept, cut) := w.cutPoint
  { report with
    repairable := true
    offset := cut
    discard := raw.length - cut
    recordsKept := kept
    explanation := .offer w.consumed
      (if w.groupOpen then some (w.groupStart, w.groupSeq) else none) (raw.length - cut) cut kept }

/-- The search for committed records behind the damage, with the work limit of a repair. -/
def searchCommitted (raw : Bytes) (report : LogDiagnosis) (w : Walk) (decoded : Decoded) :
    LogDiagnosis :=
  match searchRegion raw w decoded with
  | none => offerCut report raw w
  | some (k, region) =>
    match findTerminalRecordWithin region w.expectedSeq
        (repairScanBudgetMultiple * bootScanBudget region.length) with
    | .found hit => reportHit report w k region hit
    | .inconclusive => { report with explanation := .inconclusive w.consumed }
    | .nothingFound => offerCut report raw w

/-- The report on a log that stops at a record which is not in order. -/
def diagnoseDamage (evidence : CommitEvidence) (raw : Bytes) (report : LogDiagnosis) (w : Walk)
    (decoded : Decoded) : LogDiagnosis :=
  let report := { report with damaged := true }
  let (kept, cut) := w.cutPoint
  match decoded with
  | .ok _ seq _ _ => { report with explanation := .outOfSequence w.consumed seq w.expectedSeq }
  | .maxLenExceeded => { report with explanation := .maxLen w.consumed }
  | decoded =>
    if evidence.withholds kept then
      { report with explanation := .withheld w.consumed cut kept evidence.high }
    else if selfHealing raw w decoded then
      -- the boot path discards these bytes by itself: nothing is offered
      { report with
        damaged := false
        explanation :=
          if w.groupOpen then .bootDiscardsGroup w.groupStart w.groupSeq kept
          else .bootDiscardsTail (raw.length - cut) cut kept }
    else searchCommitted raw report w decoded

/-- The report on a log that was walked to its end. -/
def diagnoseEnd (evidence : CommitEvidence) (report : LogDiagnosis) (w : Walk) : LogDiagnosis :=
  let firstMissing := if w.groupOpen then w.groupSeq else w.expectedSeq
  if evidence.withholds firstMissing then
    { report with damaged := true, explanation := .commitMissing firstMissing evidence.high }
  else if w.groupOpen then { report with explanation := .endsInTransaction w.groupSeq }
  else { report with explanation := .readsToEnd w.expectedSeq }

/-- The report on a log before anything was found; its finding is replaced by every branch. -/
def LogDiagnosis.blank (raw : Bytes) (recordsIntact : UInt64) : LogDiagnosis :=
  { LogDiagnosis.found .noLog with
    size := raw.length
    recordsIntact := recordsIntact }

/-- The report on a log of this format version. -/
def diagnoseLog (evidence : CommitEvidence) (raw : Bytes) : LogDiagnosis :=
  match walkRecords raw raw.length .start with
  | .countdown w more expected =>
    { LogDiagnosis.blank raw 0 with
      damaged := true
      explanation := .countdown w.consumed more w.groupStart expected }
  | .toEnd w => diagnoseEnd evidence (.blank raw w.expectedSeq) w
  | .stopped w decoded => diagnoseDamage evidence raw (.blank raw w.expectedSeq) w decoded

/-- Inspect a directory and change nothing. The snapshot is checked first and is never repaired; a
file of another format version is not damage. -/
def diagnose (d : Disk) : LogDiagnosis :=
  match loadSnapshot d.snapshot with
  | .error (.snapshot (.format version)) => .found (.snapshotVersion version)
  | .error (.snapshot why) => { LogDiagnosis.found (.snapshotDamaged why) with damaged := true }
  | _ =>
    match d.log with
    | none => .found .noLog
    | some raw =>
      match foreignVersion raw with
      | some version => { LogDiagnosis.found (.logVersion version) with size := raw.length }
      | none => diagnoseLog (readCommitEvidence d.commits) raw

/-! ## The cut -/

/-- Why a repair is not performed. -/
inductive RepairError where
  | notRepairable
  | changed
deriving DecidableEq

/-- The sidecar at its full length, with zeros behind what it held. -/
def preallocated (file : Bytes) : Bytes :=
  if file.length < commitsFileLen then file.takeD commitsFileLen 0 else file

/-- Write a slot into the sidecar of a directory that no store holds open: the file is created or
extended first. -/
def writeCommitsFile (d : Disk) (highPlusOne : UInt64) : Disk :=
  let counter := (readCommitEvidence d.commits).counter + 1
  { d with
    commits := some (writeAt (preallocated (d.commits.getD [])) (nextCommitSlotOffset counter)
      (encodeCommitSlot counter highPlusOne)) }

/-- Cut the log. -/
def Disk.truncateLogAt (d : Disk) (offset : ℕ) : Disk := { d with log := d.log.map (·.take offset) }

/-- Perform the cut that was shown, and only that one. The sidecar is lowered before the log is
shortened. -/
def applyRepair (shown : LogDiagnosis) (d : Disk) : Except RepairError Disk :=
  if shown.repairable then
    let now := diagnose d
    if now.repairable = false ∨ now.offset ≠ shown.offset ∨ now.discard ≠ shown.discard ∨
        now.size ≠ shown.size then .error .changed
    else .ok ((writeCommitsFile d now.recordsKept).truncateLogAt now.offset)
  else .error .notRepairable

/-! ## The walk is the reading of recovery -/

/-- Where a replay stands. -/
def Progress.walk (st : Progress) : Walk :=
  ⟨st.consumed, st.expectedSeq, st.groupStart, st.groupSeq, st.groupFinalSeq,
    decide (st.pending ≠ [])⟩

variable {more : UInt32}

theorem walk_hold (st : Progress) (b : Batch) (seq : UInt64) (n : ℕ) (hmore : 0 < more) :
    (st.hold b seq more n).walk = st.walk.step seq more n := by
  by_cases hpending : st.pending = [] <;> simp [walk, hold, Walk.step, hmore, hpending]

theorem walk_complete (st : Progress) (b : Batch) (seq : UInt64) (n : ℕ) :
    (st.complete b n).walk = st.walk.step seq 0 n := by
  simp [walk, complete, Walk.step]

theorem walk_cut_point (st : Progress) : st.walk.cutPoint = st.cutPoint := by
  by_cases hpending : st.pending = [] <;> simp [Walk.cutPoint, cutPoint, walk, hpending]

/-- What the decoder said of a damage. -/
def Damage.decoded : Damage → Decoded
  | torn => .torn
  | headerUntrusted => .headerUntrusted
  | payloadBad n => .payloadBad n

/-- The walk stops where recovery stops, for the same reason. -/
inductive WalkAgrees : Stop → WalkStop → Prop
  | finished (st : Progress) : WalkAgrees (.finished st) (.toEnd st.walk)
  | damaged (st : Progress) (damage : Damage) :
      WalkAgrees (.damaged st damage) (.stopped st.walk damage.decoded)
  | outOfSequence (st : Progress) (b : Batch) (seq : UInt64) (more : UInt32) (n : ℕ) :
      WalkAgrees (.refused (.outOfSequence st.consumed seq st.expectedSeq))
        (.stopped st.walk (.ok b seq more n))
  | maxLen (st : Progress) :
      WalkAgrees (.refused (.maxLen st.consumed)) (.stopped st.walk .maxLenExceeded)
  | countdown (st : Progress) (seq : UInt64) (more : UInt32) :
      WalkAgrees (.refused (.countdown st.consumed st.groupStart more (st.groupFinalSeq - seq)))
        (.countdown st.walk more (st.groupFinalSeq - seq))

theorem walk_accept {st st' : Progress} {b : Batch} {seq : UInt64} {n : ℕ}
    (h : st.accept b seq more n = .ok st') :
    ¬ seq ≠ st.walk.expectedSeq ∧
      ¬ (st.walk.groupOpen = true ∧ seq + more.toUInt64 ≠ st.walk.groupFinalSeq) ∧
      st'.walk = st.walk.step seq more n := by
  obtain ⟨hseq, hgroup, hcases⟩ := accept_eq_ok h
  refine ⟨not_not.mpr hseq, fun ⟨hopen, hne⟩ => hne (hgroup (of_decide_eq_true hopen)), ?_⟩
  rcases hcases with ⟨hmore, rfl⟩ | ⟨rfl, rfl⟩
  · exact walk_hold st b seq n hmore
  · exact walk_complete st b seq n

/-- The diagnosis walks the log as recovery reads it. -/
theorem walk_agrees (raw : Bytes) (fuel : ℕ) (st : Progress) :
    WalkAgrees (readRecords raw fuel st) (walkRecords raw fuel st.walk) := by
  induction fuel generalizing st with
  | zero => exact .finished st
  | succ fuel ih =>
    have hconsumed : st.walk.consumed = st.consumed := rfl
    rw [readRecords, walkRecords, hconsumed]
    by_cases hlt : st.consumed < raw.length
    · rw [if_pos hlt, if_pos hlt]
      cases hdecode : decodeRecord (raw.drop st.consumed) with
      | ok b seq more n =>
        cases haccept : st.accept b seq more n with
        | ok st' =>
          obtain ⟨hseq, hgroup, hwalk⟩ := walk_accept haccept
          simp only [haccept, if_neg hseq, if_neg hgroup, ← hwalk]
          exact ih st'
        | error why =>
          simp only [haccept]
          unfold accept at haccept
          split_ifs at haccept with hseq hgroup
          · cases haccept
            simp only [if_pos (show seq ≠ st.walk.expectedSeq from hseq)]
            exact .outOfSequence st b seq more n
          · cases haccept
            have hgroup' : st.walk.groupOpen = true ∧ seq + more.toUInt64 ≠ st.walk.groupFinalSeq :=
              ⟨decide_eq_true hgroup.1, hgroup.2⟩
            simp only [if_neg (show ¬ seq ≠ st.walk.expectedSeq from hseq), if_pos hgroup']
            exact .countdown st seq more
      | torn => exact .damaged st .torn
      | headerUntrusted => exact .damaged st .headerUntrusted
      | payloadBad n => exact .damaged st (.payloadBad n)
      | maxLenExceeded => exact .maxLen st
    · rw [if_neg hlt, if_neg hlt]
      exact .finished st

/-! ## Damage is what the boot refuses -/

variable {live : Live} {evidence : CommitEvidence} {raw : Bytes} {st : Progress} {damage : Damage}
  {report : LogDiagnosis} {w : Walk}

theorem search_region_eq (hstop : readLog live raw = .damaged st damage)
    (hdamage : damage ≠ .torn) :
    ∃ k, searchRegion raw st.walk damage.decoded = some (k, raw.drop (st.consumed + k)) ∧
      damage.region raw st = some (st.consumed + k, raw.drop (st.consumed + k)) := by
  cases damage with
  | torn => exact absurd rfl hdamage
  | headerUntrusted => exact ⟨0, by simp [searchRegion, scanFrom, Damage.decoded, walk], rfl⟩
  | payloadBad n =>
    have hn := frame_inside hstop
    refine ⟨n, ?_, by rw [Damage.region, if_pos hn]⟩
    simp [searchRegion, scanFrom, Damage.decoded, walk, hn]

/-- The diagnosis heals what recovery's search passes. -/
theorem self_healing_iff (hstop : readLog live raw = .damaged st damage) :
    selfHealing raw st.walk damage.decoded = true ↔ searchBehind raw st damage = .ok () := by
  by_cases hdamage : damage = .torn
  · subst hdamage
    simp [selfHealing, Damage.decoded, searchBehind, Damage.region]
  · obtain ⟨k, hsearch, hregion⟩ := search_region_eq hstop hdamage
    have hne : damage.decoded ≠ .torn := by
      cases damage <;> simp_all [Damage.decoded]
    have hfinal : (if st.walk.groupOpen = true then st.walk.groupFinalSeq else 0) =
        st.openGroupFinalSeq := by
      by_cases hpending : st.pending = [] <;> simp [walk, openGroupFinalSeq, hpending]
    have hseq : st.walk.expectedSeq = st.expectedSeq := rfl
    unfold selfHealing searchBehind
    simp only [hne, hsearch, hregion, hfinal, hseq, decide_false, Bool.false_or, decide_eq_true_eq]
    cases findNextRecord (raw.drop (st.consumed + k)) st.expectedSeq st.openGroupFinalSeq with
    | nothingFound => simp
    | found off => split_ifs <;> simp
    | inconclusive => simp

/-- The search for committed records offers a cut or offers nothing. -/
theorem search_committed_cases (raw : Bytes) (report : LogDiagnosis) (w : Walk)
    (decoded : Decoded) :
    ((searchCommitted raw report w decoded).damaged = report.damaged ∧
      (searchCommitted raw report w decoded).repairable = report.repairable) ∨
    (searchCommitted raw report w decoded = offerCut report raw w ∧
      ∀ k region, searchRegion raw w decoded = some (k, region) →
        findTerminalRecordWithin region w.expectedSeq
          (repairScanBudgetMultiple * bootScanBudget region.length) = .nothingFound) := by
  unfold searchCommitted
  cases hregion : searchRegion raw w decoded with
  | none => exact Or.inr ⟨rfl, nofun⟩
  | some searched =>
    obtain ⟨k, region⟩ := searched
    cases hfind : findTerminalRecordWithin region w.expectedSeq
        (repairScanBudgetMultiple * bootScanBudget region.length) with
    | nothingFound =>
      refine Or.inr ⟨by simp only [hfind], fun k' region' h => ?_⟩
      cases h
      exact hfind
    | inconclusive => exact Or.inl (by simp [hfind])
    | found hit =>
      refine Or.inl ?_
      simp only [hfind, reportHit]
      split
      · split <;> exact ⟨rfl, rfl⟩
      · exact ⟨rfl, rfl⟩

theorem damaged_of_search_committed (raw : Bytes) (report : LogDiagnosis) (w : Walk)
    (decoded : Decoded) : (searchCommitted raw report w decoded).damaged = report.damaged := by
  rcases search_committed_cases raw report w decoded with ⟨h, -⟩ | ⟨h, -⟩
  · exact h
  · rw [h]
    rfl

theorem diagnose_damage_eq (damage : Damage) :
    diagnoseDamage evidence raw report w damage.decoded = if evidence.withholds w.cutPoint.1 then
        { report with
          damaged := true
          explanation := .withheld w.consumed w.cutPoint.2 w.cutPoint.1 evidence.high }
      else if selfHealing raw w damage.decoded then
        { report with
          damaged := false
          explanation :=
            if w.groupOpen then .bootDiscardsGroup w.groupStart w.groupSeq w.cutPoint.1
            else .bootDiscardsTail (raw.length - w.cutPoint.2) w.cutPoint.2 w.cutPoint.1 }
      else searchCommitted raw { report with damaged := true } w damage.decoded := by
  cases damage <;> rfl

theorem diagnose_damage_iff (damage : Damage) :
    (diagnoseDamage evidence raw report w damage.decoded).damaged = false ↔
      evidence.withholds w.cutPoint.1 = false ∧ selfHealing raw w damage.decoded = true := by
  rw [diagnose_damage_eq]
  by_cases hev : evidence.withholds w.cutPoint.1 = true
  · simp [hev]
  · rw [if_neg hev] at *
    by_cases hheals : selfHealing raw w damage.decoded = true
    · simp [hev, hheals]
    · rw [if_neg hheals, damaged_of_search_committed]
      simp [hev, hheals]

/-- An offered cut is not withheld by the evidence. -/
theorem diagnose_damage_offer (hreport : report.repairable = false)
    (h : (diagnoseDamage evidence raw report w damage.decoded).repairable = true) :
    evidence.withholds w.cutPoint.1 = false ∧ diagnoseDamage evidence raw report w damage.decoded =
        offerCut { report with damaged := true } raw w ∧
      ∀ k region, searchRegion raw w damage.decoded = some (k, region) →
        findTerminalRecordWithin region w.expectedSeq
          (repairScanBudgetMultiple * bootScanBudget region.length) = .nothingFound := by
  rw [diagnose_damage_eq] at h ⊢
  by_cases hev : evidence.withholds w.cutPoint.1 = true
  · rw [if_pos hev] at h
    exact nomatch hreport.symm.trans h
  · rw [if_neg hev] at h ⊢
    by_cases hheals : selfHealing raw w damage.decoded = true
    · rw [if_pos hheals] at h
      exact nomatch hreport.symm.trans h
    · rw [if_neg hheals] at h ⊢
      rcases search_committed_cases raw { report with damaged := true } w damage.decoded with
        ⟨-, hsame⟩ | ⟨hoffer, hempty⟩
      · exact nomatch hreport.symm.trans (hsame.symm.trans h)
      · exact ⟨Bool.eq_false_iff.mpr hev, hoffer, hempty⟩

theorem diagnose_damage_congr {evidence' : CommitEvidence} (damage : Damage)
    (h : evidence.withholds w.cutPoint.1 = false) (h' : evidence'.withholds w.cutPoint.1 = false) :
    diagnoseDamage evidence' raw report w damage.decoded =
      diagnoseDamage evidence raw report w damage.decoded := by
  rw [diagnose_damage_eq, diagnose_damage_eq, h, h']
  rfl

theorem diagnose_end_damaged_iff (hreport : report.damaged = false) (w : Walk) :
    (diagnoseEnd evidence report w).damaged = false ↔ evidence.withholds w.cutPoint.1 = false := by
  unfold diagnoseEnd Walk.cutPoint
  cases w.groupOpen with
  | true => by_cases hev : evidence.withholds w.groupSeq = true <;> simp [hev, hreport]
  | false => by_cases hev : evidence.withholds w.expectedSeq = true <;> simp [hev, hreport]

theorem diagnose_end_not_repairable (hreport : report.repairable = false) (w : Walk) :
    (diagnoseEnd evidence report w).repairable = false := by
  unfold diagnoseEnd
  simp only
  split_ifs <;> exact hreport

/-- The report on a log follows where recovery stops reading it. -/
inductive ReportCases (live : Live) (evidence : CommitEvidence) (raw : Bytes) : Prop
  | finished {st : Progress} (hstop : readLog live raw = .finished st)
      (hreport : diagnoseLog evidence raw =
        diagnoseEnd evidence (.blank raw st.expectedSeq) st.walk)
  | damaged {st : Progress} {damage : Damage} (hstop : readLog live raw = .damaged st damage)
      (hreport : diagnoseLog evidence raw =
        diagnoseDamage evidence raw (.blank raw st.expectedSeq) st.walk damage.decoded)
  | refused {why : Refusal} (hstop : readLog live raw = .refused why)
      (hdamaged : (diagnoseLog evidence raw).damaged = true)
      (hrepairable : (diagnoseLog evidence raw).repairable = false)

theorem report_cases (live : Live) (evidence : CommitEvidence) (raw : Bytes) :
    ReportCases live evidence raw := by
  have hagrees : WalkAgrees (readLog live raw) (walkRecords raw raw.length .start) :=
    walk_agrees raw raw.length (.start live)
  have hunfold := diagnoseLog.eq_def evidence raw
  generalize hstop : readLog live raw = stop at hagrees
  generalize walkRecords raw raw.length .start = walked at hagrees hunfold
  cases hagrees with
  | finished st => exact .finished hstop hunfold
  | damaged st damage => exact .damaged hstop hunfold
  | outOfSequence | maxLen | countdown =>
    exact .refused hstop (congrArg LogDiagnosis.damaged hunfold)
      (congrArg LogDiagnosis.repairable hunfold)

/-- No damage is reported exactly where the log replays. -/
theorem diagnose_log_damaged_iff (live : Live) (hversion : foreignVersion raw = none) :
    (diagnoseLog evidence raw).damaged = false ↔ ∃ out, replayLog live evidence raw = .ok out := by
  unfold replayLog
  rw [hversion]
  cases report_cases live evidence raw with
  | @finished st hstop hreport =>
    rw [hreport, diagnose_end_damaged_iff rfl, walk_cut_point, hstop]
    simp only [close_log_eq_ok]
    exact ⟨fun h => ⟨_, h, rfl⟩, fun ⟨_, h, _⟩ => h⟩
  | @damaged st damage hstop hreport =>
    rw [hreport, diagnose_damage_iff, walk_cut_point, self_healing_iff hstop, hstop]
    simp only [cut_damaged_eq_ok]
    exact ⟨fun ⟨h, hsearch⟩ => ⟨_, hsearch, h, rfl⟩, fun ⟨_, hsearch, h, _⟩ => ⟨h, hsearch⟩⟩
  | refused hstop hdamaged =>
    rw [hdamaged, hstop]
    exact ⟨nofun, fun ⟨_, h⟩ => nomatch h⟩

/-- What an offered cut rests on. -/
structure Offered (live : Live) (evidence : CommitEvidence) (raw : Bytes) (st : Progress)
    (damage : Damage) : Prop where
  stop : readLog live raw = .damaged st damage
  notWithheld : evidence.withholds st.cutPoint.1 = false
  report : diagnoseLog evidence raw =
    offerCut { LogDiagnosis.blank raw st.expectedSeq with damaged := true } raw st.walk
  empty : ∀ k region, searchRegion raw st.walk damage.decoded = some (k, region) →
    findTerminalRecordWithin region st.expectedSeq
      (repairScanBudgetMultiple * bootScanBudget region.length) = .nothingFound

theorem offered (live : Live) (h : (diagnoseLog evidence raw).repairable = true) :
    ∃ st damage, Offered live evidence raw st damage := by
  cases report_cases live evidence raw with
  | finished hstop hreport =>
    rw [hreport, diagnose_end_not_repairable rfl] at h
    cases h
  | @damaged st damage hstop hreport =>
    rw [hreport] at h
    obtain ⟨hev, hoffer, hempty⟩ := diagnose_damage_offer rfl h
    rw [walk_cut_point] at hev
    exact ⟨st, damage, hstop, hev, hreport.trans hoffer, hempty⟩
  | refused hstop hdamaged hrepairable =>
    rw [hrepairable] at h
    cases h

section

variable (h : Offered live evidence raw st damage)

include h

theorem Offered.numbers :
    (diagnoseLog evidence raw).offset = st.cutPoint.2 ∧
      (diagnoseLog evidence raw).recordsKept = st.cutPoint.1 ∧
      (diagnoseLog evidence raw).recordsIntact = st.expectedSeq ∧
      (diagnoseLog evidence raw).damaged = true := by
  rw [h.report, ← walk_cut_point]
  exact ⟨rfl, rfl, rfl, rfl⟩

/-- Evidence that withholds nothing does not change a diagnosis. -/
theorem Offered.congr {evidence' : CommitEvidence}
    (hev : evidence'.withholds st.cutPoint.1 = false) :
    diagnoseLog evidence' raw = diagnoseLog evidence raw := by
  have hsame : ∀ e : CommitEvidence, diagnoseLog e raw =
      diagnoseDamage e raw (.blank raw st.expectedSeq) st.walk damage.decoded := by
    intro e
    cases report_cases live e raw with
    | finished hstop => exact nomatch h.stop.symm.trans hstop
    | damaged hstop hreport =>
      cases h.stop.symm.trans hstop
      exact hreport
    | refused hstop => exact nomatch h.stop.symm.trans hstop
  rw [hsame, hsame]
  have hcut := walk_cut_point st
  exact diagnose_damage_congr damage (by rw [hcut, h.notWithheld]) (by rw [hcut, hev])

theorem Offered.none_behind {k : ℕ} {region : Bytes}
    (hregion : searchRegion raw st.walk damage.decoded = some (k, region)) {i : ℕ} {b : Batch}
    {seq : UInt64} {more : UInt32} {n : ℕ}
    (hdecode : decodeRecord (region.drop i) = .ok b seq more n) (hseq : st.expectedSeq ≤ seq) :
    more ≠ 0 := by
  rintro rfl
  refine scan_nothing_found (h.empty k region hregion) i ⟨b, seq, 0, n, hdecode, ?_⟩
  simpa [countsAsTerminal] using hseq

end

/-! ## The lowered sidecar -/

variable {file : Bytes} {d : Disk}

/-- A sidecar that does not end inside one of its slots. -/
def Aligned (file : Bytes) : Prop :=
  SlotsOrEmpty file ∧
    (file.length ≤ commitSlotStride ∨ commitSlotStride + commitSlotLen ≤ file.length)

/-- The sidecar of a directory, if there is one, does not end inside a slot. -/
def SidecarAligned (d : Disk) : Prop := ∀ file, d.commits = some file → Aligned file

/-- Zeros are no slot. -/
theorem decode_zeros (n : ℕ) : decodeCommitSlot (replicate n 0) = none := by
  have hmagic : (replicate n (0 : UInt8)).take 4 ≠ commitsMagic := by
    intro heq
    have hmem : (0x43 : UInt8) ∈ (replicate n (0 : UInt8)).take 4 := heq ▸ mem_cons_self
    exact absurd (eq_of_mem_replicate (mem_of_mem_take hmem)) (by decide)
  unfold decodeCommitSlot
  rw [if_pos hmagic]
  split <;> rfl

/-- Zeros behind a sidecar that does not end inside a slot make no slot readable. -/
theorem read_evidence_zeros (h : Aligned file) (n : ℕ) :
    readCommitEvidence (some (file ++ replicate n 0)) = readCommitEvidence (some file) := by
  have hslot : ∀ best off, off + commitSlotLen ≤ file.length ∨ file.length ≤ off →
      considerSlot (file ++ replicate n 0) best off = considerSlot file best off := by
    intro best off hoff
    unfold considerSlot
    rcases hoff with hoff | hoff
    · rw [if_neg (by rw [length_append]; omega), if_neg (by omega), extract_append_left hoff]
    · have hzeros : decodeCommitSlot ((file ++ replicate n 0).extract off (off + commitSlotLen)) =
          none := by
        rw [extract_append_right hoff, extract, drop_replicate, take_replicate, decode_zeros]
      rw [hzeros, if_pos (show file.length < off + commitSlotLen by unfold commitSlotLen; omega)]
      split <;> rfl
  show considerSlot _ (considerSlot _ _ _) _ = considerSlot _ (considerSlot _ _ _) _
  have hfirst : 0 + commitSlotLen ≤ file.length ∨ file.length ≤ 0 := by
    rcases h.1 with rfl | hlen
    · exact .inr (le_refl 0)
    · exact .inl (by omega)
  rw [hslot _ 0 hfirst, hslot _ commitSlotStride h.2.symm]

theorem read_preallocated (h : Aligned file) : SlotsOrEmpty (preallocated file) ∧
    readCommitEvidence (some (preallocated file)) = readCommitEvidence (some file) := by
  unfold preallocated
  split_ifs with hshort
  · refine ⟨Or.inr (by rw [takeD_length]; decide), ?_⟩
    rw [takeD_eq_append hshort.le]
    exact read_evidence_zeros h _
  · exact ⟨h.1, rfl⟩

/-- The slot that a repair writes is what is read next. -/
theorem read_commits_file (hwhole : SidecarAligned d)
    (hroom : (readCommitEvidence d.commits).counter.toNat + 1 < 2 ^ 64) (highPlusOne : UInt64) :
    readCommitEvidence (writeCommitsFile d highPlusOne).commits =
      .ofSlot ((readCommitEvidence d.commits).counter + 1) highPlusOne := by
  have hfile : Aligned (d.commits.getD []) ∧
      readCommitEvidence (some (d.commits.getD [])) = readCommitEvidence d.commits := by
    cases hcommits : d.commits with
    | none => exact ⟨⟨Or.inl rfl, Or.inl (Nat.zero_le _)⟩, rfl⟩
    | some file => exact ⟨hwhole file hcommits, rfl⟩
  obtain ⟨hslots, hread⟩ := read_preallocated hfile.1
  exact read_written hslots (by rw [hread, hfile.2]) hroom highPlusOne

/-! ## Repair and boot -/

/-- A directory whose files are of this format version, damaged or not. -/
structure Disk.ThisFormat (d : Disk) : Prop where
  snapshot : ∀ version, loadSnapshot d.snapshot ≠ .error (.snapshot (.format version))
  log : ∀ raw, d.log = some raw → foreignVersion raw = none

theorem diagnose_eq_log {base : Live} (hbase : loadSnapshot d.snapshot = .ok base)
    (hlog : d.log = some raw) (hversion : foreignVersion raw = none) :
    diagnose d = diagnoseLog (readCommitEvidence d.commits) raw := by
  unfold diagnose
  rw [hbase, hlog]
  simp only [hversion]

/-- The diagnosis of a disk, by what is on it. -/
theorem diagnose_cases (h : d.ThisFormat) :
    (∃ why, loadSnapshot d.snapshot = .error why ∧ (diagnose d).damaged = true ∧
      (diagnose d).repairable = false) ∨
    ∃ base, loadSnapshot d.snapshot = .ok base ∧ ((d.log = none ∧ diagnose d = .found .noLog) ∨
        ∃ raw, d.log = some raw ∧ foreignVersion raw = none ∧
          diagnose d = diagnoseLog (readCommitEvidence d.commits) raw) := by
  cases hsnapshot : loadSnapshot d.snapshot with
  | error why =>
    left
    refine ⟨why, rfl, ?_⟩
    cases why with
    | snapshot why =>
      unfold diagnose
      rw [hsnapshot]
      cases why with
      | format version => exact absurd hsnapshot (h.snapshot version)
      | badHeader | truncatedBody | checksumMismatch | truncatedKey | truncatedValue =>
        exact ⟨rfl, rfl⟩
    | log why =>
      -- loading a snapshot reports nothing about the log
      unfold loadSnapshot at hsnapshot
      split at hsnapshot
      · cases hsnapshot
      · rename_i raw _
        cases hdecode : decodeSnapshot raw <;> simp [hdecode, Except.mapError] at hsnapshot
  | ok base =>
    right
    refine ⟨base, rfl, ?_⟩
    cases hlog : d.log with
    | none => exact Or.inl ⟨rfl, by rw [diagnose, hsnapshot, hlog]⟩
    | some raw =>
      have hversion := h.log raw hlog
      exact Or.inr ⟨raw, rfl, hversion, diagnose_eq_log hsnapshot hlog hversion⟩

/-- A directory is reported as undamaged exactly where it opens. -/
theorem damaged_iff (h : d.ThisFormat) (compactAfterBytes : ℕ) :
    (diagnose d).damaged = false ↔ ∃ s, openStore compactAfterBytes d = .ok s := by
  rcases diagnose_cases h with ⟨why, hwhy, hdamaged, -⟩ | ⟨base, hbase, hlog⟩
  · refine ⟨fun h => (nomatch hdamaged.symm.trans h), fun ⟨s, hs⟩ => ?_⟩
    obtain ⟨base, out, hbase, -⟩ := recovered_of_opens hs
    exact nomatch hwhy.symm.trans hbase
  have hopens : (∃ s, openStore compactAfterBytes d = .ok s) ↔
      ∃ out, recoverLog base d = .ok out := by
    constructor
    · rintro ⟨s, hs⟩
      obtain ⟨base', out, hbase', hout, -⟩ := recovered_of_opens hs
      cases hbase.symm.trans hbase'
      exact ⟨out, hout⟩
    · rintro ⟨out, hout⟩
      obtain ⟨s, hs⟩ := opens_with hbase hout compactAfterBytes
      exact ⟨s, hs.opens⟩
  rw [hopens]
  rcases hlog with ⟨hlog, hreport⟩ | ⟨raw, hlog, hversion, hreport⟩
  · rw [hreport]
    exact ⟨fun _ => ⟨⟨base, 0, none⟩, by simp only [recoverLog, hlog]⟩, fun _ => rfl⟩
  · simp only [hreport, diagnose_log_damaged_iff base hversion, recover_log_iff hlog]

/-- What an offered cut is. Up to `offset` the log holds complete transactions, `recordsKept`
records; from there to the damaged record it holds parts of a transaction that announce more; and
from the place where a record may stand behind the damage, no intact record of a sequence that was
not read ends a transaction. -/
structure OfferIs (d : Disk) (base : Live) (raw : Bytes) (st : Progress) (damage : Damage)
    (txs : List (List Batch)) : Prop where
  snapshot : loadSnapshot d.snapshot = .ok base
  log : d.log = some raw
  stop : readLog base raw = .damaged st damage
  intact : (diagnose d).recordsIntact = st.expectedSeq
  kept : IsTransactions 0 txs (raw.take (diagnose d).offset)
  count : (diagnose d).recordsKept = recordCount txs
  between : ∃ part k, raw.take st.consumed = raw.take (diagnose d).offset ++ part ∧
    IsParts (diagnose d).recordsKept k st.pending part ∧ (st.pending ≠ [] → 0 < k)
  behind : ∃ start, damage.region raw st = some (start, raw.drop start) ∧
    ∀ i b seq more n, start ≤ i → decodeRecord (raw.drop i) = .ok b seq more n →
      (diagnose d).recordsIntact ≤ seq → more ≠ 0

/-- What an offer is made of. -/
theorem offer_is (h : d.ThisFormat) (hoffer : (diagnose d).repairable = true) :
    ∃ base raw st damage txs, OfferIs d base raw st damage txs ∧
      Offered base (readCommitEvidence d.commits) raw st damage := by
  rcases diagnose_cases h with ⟨why, -, -, hnot⟩ | ⟨base, hbase, ⟨-, hreport⟩ | ⟨raw, hlog, hrest⟩⟩
  · exact nomatch hnot.symm.trans hoffer
  · rw [hreport] at hoffer
    cases hoffer
  · obtain ⟨hversion, hreport⟩ := hrest
    rw [hreport] at hoffer
    obtain ⟨st, damage, ho⟩ := offered base hoffer
    obtain ⟨hoffset, hkept, hintact, -⟩ := ho.numbers
    obtain ⟨txs, front, part, k, hread⟩ :=
      read_so_far (read_so_far_start base raw) (Or.inr ⟨damage, ho.stop⟩)
    rw [hread.cutPoint] at hoffset hkept
    -- a short write is cut off by the boot path
    have hdamage : damage ≠ .torn := by
      rintro rfl
      have hheals : (diagnoseLog (readCommitEvidence d.commits) raw).damaged = false := by
        rw [diagnose_log_damaged_iff base hversion]
        refine ⟨_, replay_log_iff.mpr ⟨hversion, .damaged ho.stop rfl, ho.notWithheld⟩⟩
      exact nomatch hheals.symm.trans ho.numbers.2.2.2
    obtain ⟨k', hsearch, hregion⟩ := search_region_eq ho.stop hdamage
    have hfront : front = raw.take (diagnose d).offset := by
      rw [hreport, hoffset]
      exact hread.front_eq_take
    refine ⟨base, raw, st, damage, txs, ⟨hbase, hlog, ho.stop, by rw [hreport, hintact],
      hfront ▸ hread.done, by rw [hreport, hkept], ⟨part, k, hfront ▸ hread.bytes, ?_, fun hne =>
        (hread.group hne).2.2.1⟩, st.consumed + k', hregion, ?_⟩, ho⟩
    · rw [hreport, hkept]
      exact hread.parts
    · intro i b seq more n hi hdecode hseq
      rw [hreport, hintact] at hseq
      obtain ⟨j, rfl⟩ := Nat.exists_eq_add_of_le hi
      rw [← drop_drop] at hdecode
      exact ho.none_behind hsearch hdecode hseq

theorem diagnose_lowered (h : d.ThisFormat) (hoffer : (diagnose d).repairable = true)
    (hwhole : SidecarAligned d)
    (hroom : (readCommitEvidence d.commits).counter.toNat + 1 < 2 ^ 64) :
    diagnose (writeCommitsFile d (diagnose d).recordsKept) = diagnose d := by
  obtain ⟨base, raw, st, damage, txs, his, ho⟩ := offer_is h hoffer
  have hversion := h.log raw his.log
  have hreport := diagnose_eq_log his.snapshot his.log hversion
  rw [diagnose_eq_log (d := writeCommitsFile d (diagnose d).recordsKept) his.snapshot his.log
    hversion, hreport]
  refine ho.congr ?_
  rw [read_commits_file hwhole hroom, ho.numbers.2.1]
  exact not_withholds_of_slot _ (UInt64.le_refl _)

/-- A repaired store opens with what the offer showed. -/
theorem opens_repaired {d' : Disk} (h : d.ThisFormat) {shown : LogDiagnosis}
    (happly : applyRepair shown d = .ok d') (hwhole : SidecarAligned d)
    (hroom : (readCommitEvidence d.commits).counter.toNat + 1 < 2 ^ 64) (compactAfterBytes : ℕ) :
    ∃ base raw st damage txs s, OfferIs d base raw st damage txs ∧
      openStore compactAfterBytes d' = .ok s ∧
      s.memory.live = applyBatches base txs.flatten ∧
      s.memory.nextSeq = (diagnose d).recordsKept := by
  unfold applyRepair at happly
  simp only at happly
  split_ifs at happly with hshown hchanged
  cases happly
  have hoffer : (diagnose d).repairable = true := by
    by_contra hnot
    exact hchanged (Or.inl (Bool.eq_false_iff.mpr hnot))
  obtain ⟨base, raw, st, damage, txs, his, ho⟩ := offer_is h hoffer
  have hfront := take_prefix (diagnose d).offset raw
  have hversion := foreign_version_of_take hfront (h.log raw his.log)
  have hlog : ((writeCommitsFile d (diagnose d).recordsKept).truncateLogAt
      (diagnose d).offset).log = some (raw.take (diagnose d).offset) := by
    show d.log.map _ = _
    rw [his.log]
    rfl
  have hallowed : (readCommitEvidence
      (writeCommitsFile d (diagnose d).recordsKept).commits).withholds (recordCount txs) =
      false := by
    rw [read_commits_file hwhole hroom, his.count]
    exact not_withholds_of_slot _ (UInt64.le_refl _)
  have hreplay := replay_whole base his.kept hversion hallowed
  obtain ⟨s, hs⟩ := opens_with
    (d := (writeCommitsFile d (diagnose d).recordsKept).truncateLogAt (diagnose d).offset)
    his.snapshot ((recover_log_iff hlog).mpr hreplay) compactAfterBytes
  exact ⟨base, raw, st, damage, txs, s, his, hs.opens, hs.live, hs.nextSeq.trans his.count.symm⟩

/-- Repair and boot agree. A directory is reported as undamaged exactly where it opens. Where a
cut is offered the directory does not open, and the cut keeps complete transactions with no last
record of a transaction behind the damage that recovery has not read. After the repair the
directory opens with exactly these transactions over the snapshot, and between the two steps of
the repair the same cut is offered, if the sidecar is absent or does not end inside a slot and its
counter is not the last one. -/
theorem repair_and_boot_agree {d : Disk} (h : d.ThisFormat) (compactAfterBytes : ℕ) :
    ((diagnose d).damaged = false ↔ ∃ s, openStore compactAfterBytes d = .ok s) ∧
    ((diagnose d).repairable = true → (∃ why, openStore compactAfterBytes d = .error why) ∧
      ∃ base raw st damage txs, OfferIs d base raw st damage txs) ∧
    (SidecarAligned d → (readCommitEvidence d.commits).counter.toNat + 1 < 2 ^ 64 →
      (∀ shown d', applyRepair shown d = .ok d' →
        ∃ base raw st damage txs s, OfferIs d base raw st damage txs ∧
          openStore compactAfterBytes d' = .ok s ∧
          s.memory.live = applyBatches base txs.flatten ∧
          s.memory.nextSeq = (diagnose d).recordsKept) ∧
      ((diagnose d).repairable = true → (∃ d', applyRepair (diagnose d) d = .ok d') ∧
        diagnose (writeCommitsFile d (diagnose d).recordsKept) = diagnose d)) := by
  refine ⟨damaged_iff h compactAfterBytes, fun hoffer => ?_, fun hwhole hroom =>
    ⟨fun shown d' happly => opens_repaired h happly hwhole hroom compactAfterBytes,
      fun hoffer => ⟨?_, diagnose_lowered h hoffer hwhole hroom⟩⟩⟩
  · obtain ⟨base, raw, st, damage, txs, his, ho⟩ := offer_is h hoffer
    refine ⟨?_, base, raw, st, damage, txs, his⟩
    cases hopen : openStore compactAfterBytes d with
    | error why => exact ⟨why, rfl⟩
    | ok s =>
      have hfine := (damaged_iff h compactAfterBytes).mpr ⟨s, hopen⟩
      rw [diagnose_eq_log his.snapshot his.log (h.log raw his.log)] at hfine
      exact nomatch hfine.symm.trans ho.numbers.2.2.2
  · unfold applyRepair
    rw [if_pos hoffer]
    simp only [hoffer]
    exact ⟨_, if_neg (by simp)⟩

namespace Sample

/-- A record of a given place in its transaction that deletes the empty key. -/
def part (seq : UInt64) (more : UInt32) : Bytes := frameBytes [2, 0, 0, 0, 0] seq more

/-- A transaction of one record, the first part of a group of three, its second part with a
damaged payload, and behind them an intact record that ends a transaction of an old sequence and
one that goes on with a later one. -/
def holedLog : Bytes :=
  part 0 0 ++ (part 1 2 ++ ((part 2 1).set 32 0 ++ (part 1 0 ++ part 7 1)))

/-- A directory with that log, and a sidecar that names its first record. -/
def holedDisk : Disk :=
  ⟨none, none, some holedLog, some (encodeCommitSlot 2 1 ++ List.replicate 512 0)⟩

theorem holed_disk_format : holedDisk.ThisFormat := by
  refine ⟨nofun, fun raw hraw => ?_⟩
  cases hraw
  decide +kernel

end Sample

open Sample in
/-- A cut that is offered although an intact record behind the damage ends a transaction: its
sequence is the first one that the cut removes, and below the one that recovery expects. -/
theorem offered_over_old_record :
    holedDisk.ThisFormat ∧ (diagnose holedDisk).repairable = true ∧
      (diagnose holedDisk).offset = 37 ∧ (diagnose holedDisk).recordsKept = 1 ∧
      (diagnose holedDisk).recordsIntact = 2 ∧
      decodeRecord (holedLog.drop 74) = .payloadBad 37 ∧
      decodeRecord (holedLog.drop 111) = .ok [.delete []] 1 0 37 :=
  ⟨holed_disk_format, by decide +kernel⟩

open Sample in
/-- The repair keeps the first record. -/
theorem holed_disk_repaired :
    (diagnose holedDisk).repairable = true ∧
      ∃ d', applyRepair (diagnose holedDisk) holedDisk = .ok d' ∧
      ∃ base raw st damage txs s, OfferIs holedDisk base raw st damage txs ∧
        openStore 0 d' = .ok s ∧ s.memory.live = applyBatches base txs.flatten ∧
        s.memory.nextSeq = (diagnose holedDisk).recordsKept := by
  have hoffer : (diagnose holedDisk).repairable = true := by decide +kernel
  have hwhole : SidecarAligned holedDisk := by
    intro file hfile
    cases hfile
    rw [Aligned, SlotsOrEmpty, length_append, length_encode_commit_slot, length_replicate]
    exact ⟨.inr (by decide), by decide⟩
  have hroom : (readCommitEvidence holedDisk.commits).counter.toNat + 1 < 2 ^ 64 := by
    decide +kernel
  obtain ⟨happly, hsame⟩ := (repair_and_boot_agree holed_disk_format 0).2.2 hwhole hroom
  obtain ⟨⟨d', hd'⟩, -⟩ := hsame hoffer
  exact ⟨hoffer, d', hd', happly _ d' hd'⟩

end Zycord.Storage
