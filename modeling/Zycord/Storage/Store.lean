import Zycord.Storage.Snapshot

/-!
# The store

A store as `node/storage` keeps it: four files in a directory and a live view in memory. Every
call that writes is a list of file steps, each of them a write with the barrier behind it, so that
a crash leaves the steps before it done and the one it falls into done in part (`Crash`).
`openStore` is the recovery that the next process runs.
-/

namespace Zycord.Storage

/-! ## Files -/

/-- The files of a store directory; a file may not exist. -/
structure Disk where
  snapshot : Option Bytes
  snapshotTmp : Option Bytes
  log : Option Bytes
  commits : Option Bytes

/-- A directory in which no store was ever opened. -/
def Disk.fresh : Disk := ⟨none, none, none, none⟩

/-- A write together with the barrier behind it: an append to the log, a slot of the sidecar, the
temporary snapshot, its renaming over the old one, and the truncation of the log. -/
inductive FileStep where
  | append (bytes : Bytes)
  | slot (counter highPlusOne : UInt64)
  | writeTmp (body : Bytes)
  | rename
  | truncateLog

/-- Append to the log. -/
def Disk.appendLog (d : Disk) (bytes : Bytes) : Disk :=
  { d with log := some (d.log.getD [] ++ bytes) }

/-- Write a slot of the sidecar. -/
def Disk.writeSlot (d : Disk) (counter : UInt64) (slot : Bytes) : Disk :=
  { d with commits := d.commits.map fun file => writeAt file (nextCommitSlotOffset counter) slot }

/-- The effect of a step whose barrier returned. -/
def FileStep.run (d : Disk) : FileStep → Disk
  | append bytes => d.appendLog bytes
  | slot counter highPlusOne => d.writeSlot counter (encodeCommitSlot counter highPlusOne)
  | writeTmp body => { d with snapshotTmp := some body }
  | rename => { d with snapshot := d.snapshotTmp, snapshotTmp := none }
  | truncateLog => { d with log := some [] }

/-- What a crash inside a step can leave: the files as before or as after the step; of an append
any first part; in the place of a slot bytes that its checksum rejects; in the temporary snapshot
anything. Renaming and truncating happen or do not happen. -/
inductive FileStep.Interrupted (d : Disk) : FileStep → Disk → Prop
  | append (bytes : Bytes) (k : ℕ) : Interrupted d (.append bytes) (d.appendLog (bytes.take k))
  | slotTorn (counter highPlusOne : UInt64) (torn : Bytes) (hlen : torn.length = commitSlotLen)
      (htorn : decodeCommitSlot torn = none) :
      Interrupted d (.slot counter highPlusOne) (d.writeSlot counter torn)
  | writeTmp (body : Bytes) (tmp : Option Bytes) :
      Interrupted d (.writeTmp body) { d with snapshotTmp := tmp }
  | before (step : FileStep) : Interrupted d step d
  | done (step : FileStep) : Interrupted d step (step.run d)

/-- What a crash anywhere in a list of steps can leave. -/
inductive Crash : List FileStep → Disk → Disk → Prop
  | idle (steps : List FileStep) (d : Disk) : Crash steps d d
  | inside {step : FileStep} {steps : List FileStep} {d d' : Disk}
      (h : step.Interrupted d d') : Crash (step :: steps) d d'
  | later {step : FileStep} {steps : List FileStep} {d d' : Disk}
      (h : Crash steps (step.run d) d') : Crash (step :: steps) d d'

/-- Run the steps of a call. -/
def runSteps (d : Disk) (steps : List FileStep) : Disk := steps.foldl FileStep.run d

/-! ## Calls -/

/-- What a process holds in memory of an open store. -/
structure Memory where
  live : Live
  nextSeq : UInt64
  logBytes : ℕ
  compactAt : ℕ
  commitCounter : UInt64

/-- Compact: a snapshot in the place of the log. -/
def Memory.compact (m : Memory) : List FileStep × Memory :=
  ([.writeTmp (encodeSnapshot m.live), .rename, .slot (m.commitCounter + 1) 0, .truncateLog],
    { m with logBytes := 0, nextSeq := 0, commitCounter := m.commitCounter + 1 })

/-- Compact once the log has grown past its threshold. -/
def Memory.compactIfDue (m : Memory) : List FileStep × Memory :=
  if m.logBytes < m.compactAt then ([], m) else m.compact

/-- Memory after a commit. -/
def Memory.applied (m : Memory) (bs : List Batch) (written : ℕ) : Memory :=
  { m with
    live := applyBatches m.live bs
    logBytes := m.logBytes + written
    nextSeq := m.nextSeq + UInt64.ofNat bs.length
    commitCounter := m.commitCounter + 1 }

/-- Commit one batch as one record: append, barrier, sidecar, and only then the live view. -/
def Memory.commitOne (m : Memory) (b : Batch) : Except StoreError (List FileStep × Memory) := do
  let record ← encodeRecord b m.nextSeq 0
  let after := m.applied [b] record.length
  let (steps, final) := after.compactIfDue
  .ok ([.append record, .slot after.commitCounter (m.nextSeq + 1)] ++ steps, final)

/-- Commit a batch; an empty one does nothing. -/
def Memory.commit (m : Memory) (b : Batch) : Except StoreError (List FileStep × Memory) :=
  if b = [] then .ok ([], m) else m.commitOne b

/-- Encode the parts of a group: consecutive sequences, each part with the number of parts still
to come, cut to 32 bits. -/
def encodeParts (seq : UInt64) : List Batch → Except StoreError (List Bytes)
  | [] => .ok []
  | b :: rest => do
      let record ← encodeRecord b seq (UInt32.ofNat rest.length)
      let records ← encodeParts (seq + 1) rest
      .ok (record :: records)

/-- Commit several batches as one transaction. All parts are encoded before anything is written;
every part but the last is written and made durable before the last one is written. -/
def Memory.commitGroup (m : Memory) (batches : List Batch) :
    Except StoreError (List FileStep × Memory) :=
  match batches.filter fun b => b ≠ [] with
  | [] => .ok ([], m)
  | [b] => m.commitOne b
  | bs => do
      let records ← encodeParts m.nextSeq bs
      let after := m.applied bs records.flatten.length
      let (steps, final) := after.compactIfDue
      .ok ([.append records.dropLast.flatten, .append (records.getLastD []),
        .slot after.commitCounter (m.nextSeq + UInt64.ofNat bs.length)] ++ steps, final)

/-- A call on a store. -/
inductive Call where
  | commit (b : Batch)
  | commitGroup (batches : List Batch)
  | compact

/-- What a call does to the files and to memory. -/
def Memory.plan (m : Memory) : Call → Except StoreError (List FileStep × Memory)
  | .commit b => m.commit b
  | .commitGroup batches => m.commitGroup batches
  | .compact => .ok m.compact

/-- The batches a call commits. -/
def Call.transaction : Call → List Batch
  | commit b => if b = [] then [] else [b]
  | commitGroup batches => batches.filter fun b => b ≠ []
  | compact => []

/-- What a call makes of the records. -/
def Call.effect (call : Call) (live : Live) : Live := applyBatches live call.transaction

/-! ## Opening -/

/-- Why a store does not open. -/
inductive OpenError where
  | snapshot (why : SnapshotError)
  | log (why : Refusal)
deriving DecidableEq

/-- When the log is compacted, with its default. -/
def compactThreshold (compactAfterBytes : ℕ) : ℕ :=
  if compactAfterBytes = 0 then 64 * 2 ^ 20 else compactAfterBytes

/-- Load the snapshot, if there is one. -/
def loadSnapshot : Option Bytes → Except OpenError Live
  | none => .ok FinMap.empty
  | some raw => (decodeSnapshot raw).mapError .snapshot

/-- Replay the log, if there is one. -/
def recoverLog (live : Live) (d : Disk) : Except OpenError Recovered :=
  match d.log with
  | none => .ok ⟨live, 0, none⟩
  | some raw => (replayLog live (readCommitEvidence d.commits) raw).mapError .log

/-- The log after recovery. -/
def recoveredLog (d : Disk) (cut : Option ℕ) : Bytes :=
  match cut with
  | none => d.log.getD []
  | some offset => (d.log.getD []).take offset

/-- Whether the sidecar must be restated: it names another sequence than the log accounts for. -/
def restates (prior : CommitEvidence) (nextSeq : UInt64) : Bool :=
  let haveEvidence := prior.verified && prior.has
  (haveEvidence != decide (0 < nextSeq)) || (haveEvidence && prior.high != nextSeq - 1)

/-- An open store: the files and the memory of the process that holds it. -/
structure Session where
  disk : Disk
  memory : Memory

/-- Open the store of a directory. -/
def openStore (compactAfterBytes : ℕ) (d : Disk) : Except OpenError Session := do
  let base ← loadSnapshot d.snapshot
  let recovered ← recoverLog base d
  let log := recoveredLog d recovered.cut
  let prior := readCommitEvidence d.commits
  let disk : Disk :=
    { d with log := some log, commits := some (d.commits.getD (List.replicate commitsFileLen 0)) }
  let memory : Memory :=
    { live := recovered.live
      nextSeq := recovered.nextSeq
      logBytes := log.length
      compactAt := compactThreshold compactAfterBytes
      commitCounter := prior.counter }
  if restates prior recovered.nextSeq then
    .ok ⟨(FileStep.slot (prior.counter + 1) recovered.nextSeq).run disk,
      { memory with commitCounter := prior.counter + 1 }⟩
  else .ok ⟨disk, memory⟩

/-- A call that returns. -/
def Session.perform (s : Session) (call : Call) : Except StoreError Session := do
  let (steps, memory) ← s.memory.plan call
  .ok ⟨runSteps s.disk steps, memory⟩

/-- A crash during a call: what it can leave of the files. A call that is refused writes
nothing. -/
inductive Session.CrashIn (s : Session) (call : Call) (d : Disk) : Prop
  | accepted {steps : List FileStep} {memory : Memory}
      (hplan : s.memory.plan call = .ok (steps, memory)) (hcrash : Crash steps s.disk d) :
      CrashIn s call d
  | refused {e : StoreError} (hplan : s.memory.plan call = .error e) (hd : d = s.disk) :
      CrashIn s call d

/-- A commit whose write or barrier fails while the process lives on: the files hold a first part of
what the call appends to the log, or all of it when only the last barrier failed. The sidecar is not
written, memory stays as it is, and the store takes no commit any more. -/
def Session.FailsIn (s : Session) (call : Call) (d : Disk) : Prop :=
  ∃ (pieces : List Bytes) (rest : List FileStep) (memory : Memory),
    s.memory.plan call = .ok (pieces.map .append ++ rest, memory) ∧
      Crash (pieces.map .append) s.disk d

end Zycord.Storage
