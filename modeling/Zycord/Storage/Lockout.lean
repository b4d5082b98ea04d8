import Zycord.Storage.Crash
import Zycord.Storage.Repair

/-!
# The store does not lock itself out

Whole lives of a directory: processes open the store, call it, close it or die anywhere, recovery
itself included, and an operator runs the repair. `never_locked_out` says that every directory such
a life leads to opens, and that its sidecar names no sequence that the log does not account for,
if the sidecar can be read whenever it is opened.

An I/O error there is treated as no evidence, and the write counter starts again at zero. The
slots then no longer stand in the order of their counters: `unreadable_sidecar_locks_out` is a
life after which the store refuses its own undamaged log.
-/

namespace Zycord.Storage

open FinMap List Session

/-! ## Opening with a sidecar that may not be readable -/

/-- What one read of the sidecar gives. -/
def evidenceRead (readable : Bool) (d : Disk) : CommitEvidence :=
  if readable then readCommitEvidence d.commits else .absent

/-- Whether the two reads of the sidecar succeed: the one in front of the replay, and the one that
takes the write counter from it. -/
structure Reads where
  replay : Bool
  opening : Bool

/-- Recovery by the evidence at hand. -/
def recoverWith (evidence : CommitEvidence) (live : Live) (d : Disk) : Except OpenError Recovered :=
  match d.log with
  | none => .ok ⟨live, 0, none⟩
  | some raw => (replayLog live evidence raw).mapError .log

/-- The files once the log is cut and the sidecar exists. -/
def openedDisk (d : Disk) (out : Recovered) : Disk :=
  { d with log := some (recoveredLog d out.cut), commits := some (sidecarFile d) }

/-- Open the store of a directory whose sidecar may not be readable. -/
def openReading (compactAfterBytes : ℕ) (reads : Reads) (d : Disk) :
    Except OpenError Session := do
  let base ← loadSnapshot d.snapshot
  let recovered ← recoverWith (evidenceRead reads.replay d) base d
  let prior := evidenceRead reads.opening d
  let memory : Memory :=
    { live := recovered.live
      nextSeq := recovered.nextSeq
      logBytes := (recoveredLog d recovered.cut).length
      compactAt := compactThreshold compactAfterBytes
      commitCounter := prior.counter }
  if restates prior recovered.nextSeq then
    .ok ⟨(FileStep.slot (prior.counter + 1) recovered.nextSeq).run (openedDisk d recovered),
      { memory with commitCounter := prior.counter + 1 }⟩
  else .ok ⟨openedDisk d recovered, memory⟩

/-- With both reads successful, this is how a store opens. -/
theorem open_reading_eq (compactAfterBytes : ℕ) (d : Disk) :
    openReading compactAfterBytes ⟨true, true⟩ d = openStore compactAfterBytes d := by
  have hrecover : ∀ base, recoverWith (evidenceRead true d) base d = recoverLog base d := fun _ =>
    rfl
  unfold openReading openStore
  simp only [hrecover]
  rfl

/-- What a crash while the store is opened can leave: the log as it was or cut, or created; the
sidecar created, or given its length; and the slot that restates it before, inside or after its
write. -/
inductive OpenCrash (reads : Reads) (d : Disk) : Disk → Prop
  | before : OpenCrash reads d d
  | recovered {base : Live} {out : Recovered} (hbase : loadSnapshot d.snapshot = .ok base)
      (hout : recoverWith (evidenceRead reads.replay d) base d = .ok out) :
      OpenCrash reads d { d with log := d.log.map fun _ => recoveredLog d out.cut }
  | logOpened {base : Live} {out : Recovered} (hbase : loadSnapshot d.snapshot = .ok base)
      (hout : recoverWith (evidenceRead reads.replay d) base d = .ok out) :
      OpenCrash reads d { d with log := some (recoveredLog d out.cut) }
  | sidecarCreated {base : Live} {out : Recovered} (hbase : loadSnapshot d.snapshot = .ok base)
      (hout : recoverWith (evidenceRead reads.replay d) base d = .ok out)
      (hnew : d.commits = none) :
      OpenCrash reads d { d with log := some (recoveredLog d out.cut), commits := some [] }
  | sidecarOpened {base : Live} {out : Recovered} (hbase : loadSnapshot d.snapshot = .ok base)
      (hout : recoverWith (evidenceRead reads.replay d) base d = .ok out) :
      OpenCrash reads d (openedDisk d out)
  | restating {base : Live} {out : Recovered} {d' : Disk}
      (hbase : loadSnapshot d.snapshot = .ok base)
      (hout : recoverWith (evidenceRead reads.replay d) base d = .ok out)
      (hrestates : restates (evidenceRead reads.opening d) out.nextSeq = true)
      (hcrash : (FileStep.slot ((evidenceRead reads.opening d).counter + 1)
        out.nextSeq).Interrupted (openedDisk d out) d') : OpenCrash reads d d'

/-- What a crash inside a repair that was approved can leave. -/
inductive RepairCrash (shown : LogDiagnosis) (d : Disk) : Disk → Prop
  | preallocated {d' : Disk} (happly : applyRepair shown d = .ok d') :
      RepairCrash shown d { d with commits := some (preallocated (d.commits.getD [])) }
  | torn {d' : Disk} {torn : Bytes} (happly : applyRepair shown d = .ok d')
      (hlen : torn.length = commitSlotLen) (htorn : decodeCommitSlot torn = none) :
      RepairCrash shown d
        { d with
          commits := some (writeAt (preallocated (d.commits.getD []))
            (nextCommitSlotOffset ((readCommitEvidence d.commits).counter + 1)) torn) }
  | lowered {d' : Disk} (happly : applyRepair shown d = .ok d') :
      RepairCrash shown d (writeCommitsFile d (diagnose d).recordsKept)

/-! ## Lives of a directory -/

/-- A directory, and the memory of the process that has the store open, if there is one. -/
structure Host where
  disk : Disk
  memory : Option Memory

/-- A directory in which no store was ever opened. -/
def Host.fresh : Host := ⟨Disk.fresh, none⟩

/-- What can happen to a directory. `opening` and `calling` restrict the openings and the calls. -/
inductive HostStep (opening : Disk → Reads → Prop) (calling : Session → Call → Prop) :
    Host → Host → Prop
  | opened {d : Disk} {reads : Reads} {compactAfterBytes : ℕ} {s : Session}
      (hallowed : opening d reads) (hopen : openReading compactAfterBytes reads d = .ok s) :
      HostStep opening calling ⟨d, none⟩ ⟨s.disk, some s.memory⟩
  | openCrashed {d d' : Disk} {reads : Reads} (hallowed : opening d reads)
      (hcrash : OpenCrash reads d d') : HostStep opening calling ⟨d, none⟩ ⟨d', none⟩
  | returned {d : Disk} {m : Memory} {call : Call} {s : Session} (hallowed : calling ⟨d, m⟩ call)
      (hcall : Session.perform ⟨d, m⟩ call = .ok s) :
      HostStep opening calling ⟨d, some m⟩ ⟨s.disk, some s.memory⟩
  | crashed {d d' : Disk} {m : Memory} {call : Call} (hallowed : calling ⟨d, m⟩ call)
      (hcrash : Session.CrashIn ⟨d, m⟩ call d') : HostStep opening calling ⟨d, some m⟩ ⟨d', none⟩
  | closed {d : Disk} {m : Memory} : HostStep opening calling ⟨d, some m⟩ ⟨d, none⟩
  | repaired {d d' : Disk} {shown : LogDiagnosis} (happly : applyRepair shown d = .ok d') :
      HostStep opening calling ⟨d, none⟩ ⟨d', none⟩
  | repairCrashed {d d' : Disk} {shown : LogDiagnosis} (hcrash : RepairCrash shown d d') :
      HostStep opening calling ⟨d, none⟩ ⟨d', none⟩

/-- The lives of a directory. -/
def Life (opening : Disk → Reads → Prop) (calling : Session → Call → Prop) (h : Host) : Prop :=
  Relation.ReflTransGen (HostStep opening calling) Host.fresh h

/-! ## What the directory holds -/

/-- A directory in which a store was opened for the first time and the process died before the
sidecar existed. -/
structure Blank (d : Disk) : Prop where
  snapshot : d.snapshot = none
  log : d.log = none ∨ d.log = some []
  commits : d.commits = none

/-- A directory between two processes. -/
def Recoverable (d : Disk) : Prop :=
  Blank d ∨ ∃ live txs tail counter high, Holds d live txs tail counter high

variable {d d' : Disk} {live : Live} {high counter : UInt64} {reads : Reads}
  {compactAfterBytes : ℕ} {s : Session} {h : Host}

theorem Recovers.recoverable {bound : ℕ} (h : Recovers d live bound) : Recoverable d := by
  obtain ⟨txs, tail, counter, high, hholds, -⟩ := h
  exact Or.inr ⟨live, txs, tail, counter, high, hholds⟩

/-- What recovery finds in a directory, whether the sidecar can be read or not, and what the
directory holds once the log is recovered and the sidecar exists. -/
structure Finds (d : Disk) (base : Live) (out : Recovered) (counter high : UInt64) : Prop where
  snapshot : loadSnapshot d.snapshot = .ok base
  recovers : ∀ readable, recoverWith (evidenceRead readable d) base d = .ok out
  holds : ∃ txs, Holds (openedDisk d out) out.live txs [] counter high ∧
    out.nextSeq = recordCount txs
  counter : (readCommitEvidence d.commits).counter = counter

theorem Blank.evidence (h : Blank d) (readable : Bool) : evidenceRead readable d = .absent := by
  cases readable with
  | false => rfl
  | true =>
    show readCommitEvidence d.commits = .absent
    rw [h.commits]
    rfl

theorem Blank.recovered_log (h : Blank d) : recoveredLog d none = [] := by
  rcases h.log with hlog | hlog <;> simp [recoveredLog, hlog]

/-- A blank disk with a fresh sidecar holds the empty log. -/
theorem Blank.holds (h : Blank d) {file : Bytes} (hfile : SidecarHolds file 0 0) :
    Holds { d with log := some [], commits := some file } empty [] [] 0 0 := by
  refine ⟨⟨empty, ?_, rfl⟩, ⟨[], rfl, rfl⟩, unfinished_nil _, ⟨file, rfl, hfile⟩,
    UInt64.le_refl _, nofun⟩
  show loadSnapshot d.snapshot = _
  rw [h.snapshot]
  rfl

/-- Opening a blank disk finds the empty store. -/
theorem Blank.finds (h : Blank d) : Finds d empty ⟨empty, 0, none⟩ 0 0 := by
  refine ⟨by rw [h.snapshot]; rfl, fun readable => ?_, ⟨[], ?_, rfl⟩, by rw [h.commits]; rfl⟩
  · rw [h.evidence readable]
    unfold recoverWith
    rcases h.log with hlog | hlog
    · rw [hlog]
    · rw [hlog]
      rfl
  · have hfile : sidecarFile d = replicate commitsFileLen 0 := by
      rw [sidecarFile, h.commits]
      rfl
    show Holds { d with log := some (recoveredLog d none), commits := some (sidecarFile d) }
      _ _ _ _ _
    rw [h.recovered_log, hfile]
    exact h.holds sidecar_holds_zeros

/-- Opening a disk that holds a log finds its transactions. -/
theorem Holds.finds {txs : List (List Batch)} {tail : Bytes}
    (h : Holds d live txs tail counter high) :
    ∃ base cut, Finds d base ⟨live, recordCount txs, cut⟩ counter high := by
  obtain ⟨base, hsnapshot, hlive⟩ := h.base
  obtain ⟨log, hlog, hwhole⟩ := h.log
  obtain ⟨file, hfile, hside⟩ := h.sidecar
  have hevidence : ∀ readable, (evidenceRead readable d).withholds (recordCount txs) = false := by
    intro readable
    cases readable with
    | false => rfl
    | true =>
      show (readCommitEvidence d.commits).withholds _ = false
      rw [hfile]
      exact hside.not_withholds h.accounted
  obtain ⟨cut, hreplay, hnone, hsome⟩ := replay_transactions base hwhole h.unfinished
    (hevidence false)
  have hkept : recoveredLog d cut = log := by
    cases cut with
    | none => simp [recoveredLog, hlog, hnone rfl]
    | some offset => simp [recoveredLog, hlog, hsome offset rfl]
  rw [hlive] at hreplay
  refine ⟨base, cut, hsnapshot, fun readable => ?_, ⟨txs, ⟨⟨base, hsnapshot, hlive⟩,
    ⟨log, by simp [openedDisk, hkept], hwhole⟩, unfinished_nil _, ⟨file, ?_, hside⟩, h.accounted,
      h.fits⟩, rfl⟩, ?_⟩
  · -- the evidence does not withhold the cut, so recovery does not depend on it
    obtain ⟨hversion, hgives, -⟩ := replay_log_iff.mp hreplay
    simp only [recoverWith, hlog, map_error_eq_ok]
    exact replay_log_iff.mpr ⟨hversion, hgives, hevidence readable⟩
  · show some (sidecarFile d) = some file
    rw [sidecarFile, hfile]
    rfl
  · rw [hfile]
    exact hside.counter_read

theorem Recoverable.finds (h : Recoverable d) :
    ∃ base out counter high, Finds d base out counter high := by
  rcases h with hblank | ⟨live, txs, tail, counter, high, hholds⟩
  · exact ⟨_, _, _, _, hblank.finds⟩
  · obtain ⟨base, cut, hfinds⟩ := hholds.finds
    exact ⟨base, _, counter, high, hfinds⟩

/-! ## Opening keeps it -/

/-- An opening with a readable sidecar leads to a sound store. -/
theorem Finds.opens {base : Live} {out : Recovered} (h : Finds d base out counter high)
    (hreads : reads.opening = true) (hroom : counter.toNat + 1 < 2 ^ 64)
    (hopen : openReading compactAfterBytes reads d = .ok s) : Sound s := by
  obtain ⟨txs, hholds, hseq⟩ := h.holds
  have hprior : (evidenceRead reads.opening d).counter = counter := by
    rw [hreads]
    exact h.counter
  simp only [openReading, h.snapshot, h.recovers, bind, Except.bind, hprior] at hopen
  split at hopen
  · cases hopen
    refine ⟨txs, out.nextSeq, hholds.slot hroom out.nextSeq ?_, hseq⟩
    rw [hseq]
    exact UInt64.le_refl _
  · cases hopen
    exact ⟨txs, high, hholds, hseq⟩

/-- Recovery keeps a recoverable disk recoverable. -/
theorem Recoverable.kept (h : Recoverable d) :
    ∃ base out counter high, Finds d base out counter high ∧
      Recoverable { d with log := some (recoveredLog d out.cut) } ∧
      (d.commits = none →
        Recoverable { d with log := some (recoveredLog d out.cut), commits := some [] }) := by
  rcases h with hblank | ⟨live, txs, tail, counter, high, hholds⟩
  · refine ⟨_, _, _, _, hblank.finds, ?_, fun _ => ?_⟩
    · rw [hblank.recovered_log]
      exact Or.inl ⟨hblank.snapshot, Or.inr rfl, hblank.commits⟩
    · rw [hblank.recovered_log]
      exact Or.inr ⟨_, _, _, _, _, hblank.holds sidecar_holds_empty⟩
  · obtain ⟨base, cut, hfinds⟩ := hholds.finds
    obtain ⟨file, hfile, -⟩ := hholds.sidecar
    have hopened : openedDisk d ⟨live, recordCount txs, cut⟩ =
        { d with log := some (recoveredLog d cut) } := by
      rw [openedDisk, sidecarFile, hfile]
      rfl
    obtain ⟨txs', hopen, -⟩ := hfinds.holds
    rw [hopened] at hopen
    exact ⟨base, _, counter, high, hfinds, Or.inr ⟨_, _, _, _, _, hopen⟩,
      fun hnone => nomatch hnone.symm.trans hfile⟩

/-- A crash while opening keeps a recoverable disk recoverable. -/
theorem Recoverable.open_crash (h : Recoverable d) (hreads : reads.opening = true)
    (hroom : (readCommitEvidence d.commits).counter.toNat + 1 < 2 ^ 64)
    (hcrash : OpenCrash reads d d') : Recoverable d' := by
  obtain ⟨base, out, counter, high, hfinds, hkept, hcreated⟩ := h.kept
  obtain ⟨txs, hholds, hseq⟩ := hfinds.holds
  -- recovery has one outcome
  have hsame : ∀ {base' out'}, loadSnapshot d.snapshot = .ok base' →
      recoverWith (evidenceRead reads.replay d) base' d = .ok out' → out' = out := by
    intro base' out' hbase' hout'
    cases hfinds.snapshot.symm.trans hbase'
    exact Except.ok.inj (hout'.symm.trans (hfinds.recovers _))
  cases hcrash with
  | before => exact h
  | recovered hbase hout =>
    cases hsame hbase hout
    cases hlog : d.log with
    | none =>
      have hd : { d with log := none } = d := by rw [← hlog]
      exact hd.symm ▸ h
    | some raw => exact hkept
  | logOpened hbase hout =>
    cases hsame hbase hout
    exact hkept
  | sidecarCreated hbase hout hnew =>
    cases hsame hbase hout
    exact hcreated hnew
  | sidecarOpened hbase hout =>
    cases hsame hbase hout
    exact Or.inr ⟨_, _, _, _, _, hholds⟩
  | restating hbase hout hrestates hcrash =>
    cases hsame hbase hout
    have hprior : (evidenceRead reads.opening d).counter = counter := by
      rw [hreads]
      exact hfinds.counter
    rw [hprior] at hcrash
    rw [hfinds.counter] at hroom
    refine (hholds.slot_interrupted hroom ?_ hcrash).recoverable
    rw [hseq]
    exact UInt64.le_refl _

/-! ## The repair has nothing to do -/

/-- A recoverable directory opens. -/
theorem Recoverable.opens (h : Recoverable d) (compactAfterBytes : ℕ) :
    ∃ s, openStore compactAfterBytes d = .ok s := by
  obtain ⟨base, out, counter, high, hfinds⟩ := h.finds
  obtain ⟨s, hs⟩ := opens_with hfinds.snapshot (hfinds.recovers true) compactAfterBytes
  exact ⟨s, hs.opens⟩

theorem not_repairable_of_opens (h : openStore compactAfterBytes d = .ok s) :
    (diagnose d).repairable = false := by
  obtain ⟨base, out, hbase, hout, -⟩ := recovered_of_opens h
  have hformat : d.ThisFormat := by
    refine ⟨fun version herror => absurd (hbase.symm.trans herror) nofun, fun raw hraw => ?_⟩
    exact (replay_log_iff.mp ((recover_log_iff hraw).mp hout)).1
  have hfine := (damaged_iff hformat compactAfterBytes).mpr ⟨s, h⟩
  by_contra hoffer
  rw [Bool.not_eq_false] at hoffer
  obtain ⟨base, raw, st, damage, txs, his, ho⟩ := offer_is hformat hoffer
  rw [diagnose_eq_log his.snapshot his.log (hformat.log raw his.log)] at hfine
  exact nomatch hfine.symm.trans ho.numbers.2.2.2

theorem Recoverable.not_repaired (h : Recoverable d) {shown : LogDiagnosis} :
    applyRepair shown d ≠ .ok d' := by
  intro happly
  obtain ⟨s, hs⟩ := h.opens 0
  have hnot := not_repairable_of_opens hs
  unfold applyRepair at happly
  simp only [hnot, true_or, if_true] at happly
  split at happly <;> cases happly

/-! ## Lives -/

/-- What holds of a directory in use and of one at rest. -/
def Host.Sane (h : Host) : Prop :=
  match h.memory with
  | none => Recoverable h.disk
  | some m => Sound ⟨h.disk, m⟩

/-- The sidecar is read on opening, and its counter has room. -/
def Readable (d : Disk) (reads : Reads) : Prop :=
  reads.opening = true ∧ (readCommitEvidence d.commits).counter.toNat + 1 < 2 ^ 64

theorem Sound.recoverable (h : Sound s) : Recoverable s.disk := by
  obtain ⟨txs, high, hholds, -⟩ := h
  exact Or.inr ⟨_, _, _, _, _, hholds⟩

/-- Every step of the host keeps its directory recoverable. -/
theorem HostStep.sane {h' : Host} (hstep : HostStep Readable Roomy h h') (hsane : h.Sane) :
    h'.Sane := by
  cases hstep with
  | opened hallowed hopen =>
    obtain ⟨base, out, counter, high, hfinds⟩ := Recoverable.finds hsane
    exact hfinds.opens hallowed.1 (hfinds.counter ▸ hallowed.2) hopen
  | openCrashed hallowed hcrash => exact Recoverable.open_crash hsane hallowed.1 hallowed.2 hcrash
  | returned hallowed hcall => exact (Sound.perform hsane hallowed hcall).1
  | crashed hallowed hcrash =>
    exact (Sound.crash hsane hallowed hcrash).elim Recovers.recoverable Recovers.recoverable
  | closed => exact Sound.recoverable hsane
  | repaired happly => exact absurd happly (Recoverable.not_repaired hsane)
  | repairCrashed hcrash =>
    cases hcrash with
    | preallocated happly | torn happly | lowered happly =>
      exact absurd happly (Recoverable.not_repaired hsane)

theorem Life.sane (hlife : Life Readable Roomy h) : h.Sane := by
  induction hlife with
  | refl => exact Or.inl ⟨rfl, Or.inl rfl, rfl⟩
  | tail hlife hstep ih => exact hstep.sane ih

/-- The store never locks itself out. After any life in which the sidecar can be read whenever it
is opened, and which keeps the limits of the counters, the directory opens, and the sequence that
its sidecar names lies below the next one that the log and the snapshot account for. -/
theorem never_locked_out {h : Host} (hlife : Life Readable Session.Roomy h)
    (compactAfterBytes : ℕ) :
    ∃ s, openStore compactAfterBytes h.disk = .ok s ∧
      ((readCommitEvidence h.disk.commits).verified = true →
        (readCommitEvidence h.disk.commits).has = true →
        (readCommitEvidence h.disk.commits).high < s.memory.nextSeq) := by
  have hsane := hlife.sane
  have hrecoverable : Recoverable h.disk := by
    unfold Host.Sane at hsane
    split at hsane
    · exact hsane
    · exact hsane.recoverable
  obtain ⟨s, hs⟩ := hrecoverable.opens compactAfterBytes
  refine ⟨s, hs, fun hverified hhas => ?_⟩
  cases hlog : h.disk.log with
  | some raw => exact evidence_accounted hlog hs hverified hhas
  | none =>
    -- without a log there is no sidecar either
    rcases hrecoverable with hblank | ⟨live, txs, tail, counter, high, hholds⟩
    · rw [hblank.commits] at hverified
      cases hverified
    · obtain ⟨log, hsome, -⟩ := hholds.log
      exact nomatch hlog.symm.trans hsome

/-! ## A sidecar that cannot be read once -/

namespace Sample

/-- The store after opening it. -/
def reopened (reads : Reads) (d : Disk) : Session :=
  match openReading 0 reads d with
  | .ok s => s
  | .error _ => ⟨d, ⟨FinMap.empty, 0, 0, 0, 0⟩⟩

/-- The store after a call. -/
def after (s : Session) (call : Call) : Session :=
  match s.perform call with
  | .ok s' => s'
  | .error _ => s

/-- A store with one commit. -/
def committed : Session := after (reopened ⟨true, true⟩ Disk.fresh) (.commit firstBatch)

/-- Two commits and a compaction: one slot names the second commit, the other one, written behind
it, says that nothing is committed. -/
def compacted : Session :=
  after (after committed (.commit otherBatch)) .compact

/-- The directory is opened while the sidecar cannot be read, and a batch is committed. -/
def locked : Session := after (reopened ⟨false, false⟩ compacted.disk) (.commit firstBatch)

variable {s : Session}

theorem open_reopened {reads : Reads} {d : Disk} (h : openReading 0 reads d = .ok s) :
    openReading 0 reads d = .ok (reopened reads d) := by
  rw [reopened, h]

theorem perform_after {call : Call} (h : ∀ b ∈ call.transaction, Recordable b) :
    s.perform call = .ok (after s call) := by
  obtain ⟨s', hs'⟩ := perform_recordable s h
  rw [after, hs']

theorem first_recordable : ∀ b ∈ (Call.commit firstBatch).transaction, Recordable b := by
  intro b hb
  cases mem_singleton.mp hb
  exact ⟨by decide, by decide⟩

theorem other_recordable : ∀ b ∈ (Call.commit otherBatch).transaction, Recordable b := by
  intro b hb
  cases mem_singleton.mp hb
  exact ⟨by decide, by decide⟩

end Sample

/-- Room for a call can be decided. -/
instance (s : Session) (call : Call) : Decidable (s.Roomy call) :=
  inferInstanceAs (Decidable (_ ∧ _ ∧ _))

namespace Sample

variable {opening : Disk → Reads → Prop} {s : Session}

theorem life_after {call : Call} (h : Life opening Roomy ⟨s.disk, some s.memory⟩)
    (hroomy : s.Roomy call) (hcall : ∀ b ∈ call.transaction, Recordable b) :
    Life opening Roomy ⟨(after s call).disk, some (after s call).memory⟩ :=
  h.tail (.returned hroomy (perform_after hcall))

theorem life_reopened {reads : Reads} {d : Disk} (h : Life opening Roomy ⟨d, none⟩)
    (hallowed : opening d reads) (hopen : openReading 0 reads d = .ok s) :
    Life opening Roomy ⟨(reopened reads d).disk, some (reopened reads d).memory⟩ :=
  h.tail (.opened hallowed (open_reopened hopen))

theorem committed_life (h : opening Disk.fresh ⟨true, true⟩) :
    Life opening Roomy ⟨committed.disk, some committed.memory⟩ := by
  obtain ⟨s, hs, -⟩ := opens_fresh 0
  have hopen : Life opening Roomy ⟨(reopened ⟨true, true⟩ Disk.fresh).disk,
      some (reopened ⟨true, true⟩ Disk.fresh).memory⟩ :=
    life_reopened Relation.ReflTransGen.refl h hs
  exact life_after hopen (by decide +kernel) first_recordable

end Sample

open Sample in
/-- A process that dies behind its first commit. -/
theorem committed_not_locked_out :
    Life Readable Session.Roomy ⟨committed.disk, none⟩ ∧ ∃ s, openStore 0 committed.disk = .ok s ∧
        ((readCommitEvidence committed.disk.commits).verified = true →
          (readCommitEvidence committed.disk.commits).has = true →
          (readCommitEvidence committed.disk.commits).high < s.memory.nextSeq) := by
  have hlife : Life Readable Roomy ⟨committed.disk, none⟩ :=
    (committed_life ⟨rfl, by decide⟩).tail .closed
  exact ⟨hlife, never_locked_out hlife 0⟩

/-- The counter has room. -/
def CounterRoom (d : Disk) (_reads : Reads) : Prop :=
  (readCommitEvidence d.commits).counter.toNat + 1 < 2 ^ 64

open Sample in
/-- An opening at which the sidecar cannot be read locks the store out of its own undamaged log:
the slot of the generation before the compaction has the higher counter again. -/
theorem unreadable_sidecar_locks_out :
    Life CounterRoom Session.Roomy ⟨locked.disk, none⟩ ∧
      (∃ s, openStore 0 { locked.disk with commits := none } = .ok s) ∧
      openStore 0 locked.disk = .error (.log (.commitGone 1 1)) := by
  refine ⟨?_, Except.exists_of_is_some (by decide +kernel), by decide +kernel⟩
  obtain ⟨s, hs⟩ : ∃ s, openReading 0 ⟨false, false⟩ compacted.disk = .ok s :=
    Except.exists_of_is_some (by decide +kernel)
  have hcompact : ∀ b ∈ Call.compact.transaction, Recordable b := nofun
  have hfirst : Life CounterRoom Roomy ⟨committed.disk, some committed.memory⟩ := by
    refine committed_life ?_
    unfold CounterRoom
    decide
  have hcompacted : Life CounterRoom Roomy ⟨compacted.disk, some compacted.memory⟩ :=
    life_after (life_after hfirst (by decide +kernel) other_recordable) (by decide +kernel) hcompact
  have hroom : CounterRoom compacted.disk ⟨false, false⟩ := by
    unfold CounterRoom
    decide +kernel
  have hopened := life_reopened (hcompacted.tail .closed) hroom hs
  have hlocked : Life CounterRoom Roomy ⟨locked.disk, some locked.memory⟩ :=
    life_after hopened (by decide +kernel) first_recordable
  exact hlocked.tail .closed

end Zycord.Storage
