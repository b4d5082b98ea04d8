import Zycord.Storage.Transactions

/-!
# Crash atomicity

What a directory holds after any history of calls, crashes and recoveries: a snapshot, whole
transactions behind it, possibly the first bytes of one more, and a sidecar that names no sequence
the log does not account for (`Holds`). Every file step keeps that, whether it completes or a crash
falls into it, and recovery reads exactly the view it stands for (`Holds.opens`).

The count of the parts still to come is cut to 32 bits when a group is encoded, so a group of more
than 2^32 batches is not atomic: `huge_group_torn` recovers its first batch alone. The main
theorem, `crash_atomic`, is for runs whose groups are smaller and whose 64-bit counters have room.
-/

namespace Zycord.Storage

open FinMap List Nat Session UInt64

/-! ## What a directory holds -/

/-- The directory stands for a live view: its snapshot and the whole transactions of its log lead
there, the log ends with at most the first bytes of another transaction, and the sidecar names no
sequence beyond the whole ones. -/
structure Holds (d : Disk) (live : Live) (txs : List (List Batch)) (tail : Bytes)
    (counter high : UInt64) : Prop where
  base : ∃ base, loadSnapshot d.snapshot = .ok base ∧ applyBatches base txs.flatten = live
  log : ∃ log, d.log = some (log ++ tail) ∧ IsLog 0 txs log
  unfinished : Unfinished (recordCount txs) tail
  sidecar : ∃ file, d.commits = some file ∧ SidecarHolds file counter high
  accounted : high ≤ recordCount txs
  fits : live.Fits

/-- The directory stands for a live view, and the counter of its sidecar is within a bound. -/
def Recovers (d : Disk) (live : Live) (bound : ℕ) : Prop :=
  ∃ txs tail counter high, Holds d live txs tail counter high ∧ counter.toNat ≤ bound

variable {tail : Bytes} {bound : ℕ} {d d' : Disk} {live : Live} {txs : List (List Batch)}
  {counter high : UInt64} {s s' : Session} {call : Call} {steps : List FileStep} {m m' : Memory}
  {b : Batch}

theorem Holds.recovers
    (h : Holds d live txs tail counter high) (hle : counter.toNat ≤ bound) :
    Recovers d live bound := ⟨txs, tail, counter, high, h, hle⟩

theorem Recovers.mono {bound' : ℕ} (h : Recovers d live bound)
    (hle : bound ≤ bound') : Recovers d live bound' := by
  obtain ⟨txs, tail, counter, high, hholds, hcounter⟩ := h
  exact hholds.recovers (hcounter.trans hle)

/-- An open store between two calls: nothing unfinished, and memory agrees with the files. -/
def Sound (s : Session) : Prop :=
  ∃ txs high, Holds s.disk s.memory.live txs [] s.memory.commitCounter high ∧
    s.memory.nextSeq = recordCount txs

/-! ## Opening -/

theorem SidecarHolds.counter_read {file : Bytes}
    (h : SidecarHolds file counter high) : (readCommitEvidence (some file)).counter = counter := by
  rcases h.read with hread | ⟨hread, hzero, -⟩
  · rw [hread, CommitEvidence.counter_of_slot]
  · rw [hread, hzero]
    rfl

/-- Recovery opens the directory with the view it stands for. -/
theorem Holds.opens
    (h : Holds d live txs tail counter high) (hroom : counter.toNat + 1 < 2 ^ 64)
    (compactAfterBytes : ℕ) :
    ∃ s, openStore compactAfterBytes d = .ok s ∧ s.memory.live = live ∧ Sound s := by
  obtain ⟨base, hsnapshot, hlive⟩ := h.base
  obtain ⟨log, hlog, hwhole⟩ := h.log
  obtain ⟨file, hfile, hside⟩ := h.sidecar
  obtain ⟨cut, hreplay, hnone, hsome⟩ := replay_transactions base hwhole h.unfinished
    (hside.not_withholds h.accounted)
  have hrecover : recoverLog base d = .ok ⟨live, recordCount txs, cut⟩ := by
    simp only [recoverLog, hlog, hfile, hreplay, hlive]
    rfl
  have hkept : recoveredLog d cut = log := by
    cases cut with
    | none => simp [recoveredLog, hlog, hnone rfl]
    | some offset => simp [recoveredLog, hlog, hsome offset rfl]
  have hcounter := hside.counter_read
  unfold openStore
  rw [hsnapshot]
  simp only [bind, Except.bind, hrecover, hkept, hfile, hcounter, Option.getD_some]
  split
  · refine ⟨_, rfl, rfl, txs, recordCount txs, ⟨⟨base, hsnapshot, hlive⟩,
      ⟨log, by simp [FileStep.run, Disk.writeSlot], hwhole⟩, unfinished_nil _,
      ⟨_, rfl, hside.write hroom (recordCount txs)⟩, UInt64.le_refl _, h.fits⟩, rfl⟩
  · exact ⟨_, rfl, rfl, txs, high, ⟨⟨base, hsnapshot, hlive⟩, ⟨log, by simp, hwhole⟩,
      unfinished_nil _, ⟨file, rfl, hside⟩, h.accounted, h.fits⟩, rfl⟩

theorem opens_fresh (compactAfterBytes : ℕ) :
    ∃ s, openStore compactAfterBytes Disk.fresh = .ok s ∧ s.memory.live = empty ∧
      s.memory.nextSeq = 0 ∧ s.memory.commitCounter = 0 ∧ Sound s := by
  refine ⟨_, rfl, rfl, rfl, rfl, [], 0, ⟨⟨empty, rfl, rfl⟩, ⟨[], rfl, rfl⟩,
    unfinished_nil _, ⟨_, rfl, sidecar_holds_zeros⟩, UInt64.le_refl _, ?_⟩, rfl⟩
  intro e he
  cases he

/-! ## File steps -/

section Steps

variable {bs : List Batch} {records : List Bytes}

section

variable (h : Holds d live txs [] counter high)

include h

theorem Holds.append_piece (hlen : bs.length ≤ 2 ^ 32)
    (hencode : encodeParts (recordCount txs) bs = .ok records) {k : ℕ}
    (hk : k < records.flatten.length) :
    Holds (d.appendLog (records.flatten.take k)) live txs (records.flatten.take k) counter
      high := by
  obtain ⟨log, hlog, hwhole⟩ := h.log
  exact ⟨h.base, ⟨log, by simp [Disk.appendLog, hlog], hwhole⟩,
    ⟨bs, records, k, hlen, hencode, hk, rfl⟩,
    h.sidecar, h.accounted, h.fits⟩

/-- Appending all the records of a transaction adds it to the log. -/
theorem Holds.append_whole (hne : bs ≠ []) (hlen : bs.length ≤ 2 ^ 32)
    (hencode : encodeParts (recordCount txs) bs = .ok records)
    (hroom : (recordCount txs).toNat + bs.length < 2 ^ 64) :
    Holds (d.appendLog records.flatten) (applyBatches live bs) (txs ++ [bs]) [] counter high := by
  obtain ⟨base, hsnapshot, hlive⟩ := h.base
  obtain ⟨log, hlog, hwhole⟩ := h.log
  refine ⟨⟨base, hsnapshot, ?_⟩, ⟨log ++ records.flatten, ?_, ?_⟩, unfinished_nil _,
    h.sidecar, ?_, ?_⟩
  · rw [flatten_append, apply_batches_append, hlive]
    simp
  · simp [Disk.appendLog, hlog]
  · exact hwhole.append hne hlen (by rwa [zero_add])
  · have hle := le_iff_toNat_le.mp h.accounted
    have hbs : (ofNat bs.length).toNat = bs.length :=
      toNat_ofNat_of_lt' (show bs.length < 2 ^ 64 by omega)
    rw [UInt64.le_iff_toNat_le, record_count_append, UInt64.toNat_add]
    omega
  · exact h.fits.apply_batches (fits_of_encode_parts hencode)

theorem Holds.slot (hroom : counter.toNat + 1 < 2 ^ 64) (high' : UInt64)
    (hhigh : high' ≤ recordCount txs) :
    Holds ((FileStep.slot (counter + 1) high').run d) live txs [] (counter + 1) high' := by
  obtain ⟨file, hfile, hside⟩ := h.sidecar
  exact ⟨h.base, h.log, h.unfinished, ⟨_, by simp [FileStep.run, Disk.writeSlot, hfile],
    hside.write hroom high'⟩, hhigh, h.fits⟩

theorem Holds.slot_interrupted (hroom : counter.toNat + 1 < 2 ^ 64) {high' : UInt64}
    (hhigh : high' ≤ recordCount txs)
    (hcrash : (FileStep.slot (counter + 1) high').Interrupted d d') :
    Recovers d' live (counter.toNat + 1) := by
  cases hcrash with
  | slotTorn _ _ torn hlen htorn =>
    obtain ⟨file, hfile, hside⟩ := h.sidecar
    have hcommits : (d.writeSlot (counter + 1) torn).commits =
        some (writeAt file (nextCommitSlotOffset (counter + 1)) torn) := by
      simp [Disk.writeSlot, hfile]
    have htorn : Holds (d.writeSlot (counter + 1) torn) live txs [] counter high :=
      ⟨h.base, h.log, h.unfinished, ⟨_, hcommits, hside.torn hlen (Or.inl htorn)⟩,
        h.accounted, h.fits⟩
    exact htorn.recovers (le_succ _)
  | before => exact h.recovers (le_succ _)
  | done => exact (h.slot hroom high' hhigh).recovers (to_nat_succ hroom).le

theorem Holds.set_tmp (tmp : Option Bytes) :
    Holds { d with snapshotTmp := tmp } live txs [] counter high :=
  ⟨h.base, h.log, h.unfinished, h.sidecar, h.accounted, h.fits⟩

theorem Holds.publish (htmp : d.snapshotTmp = some (encodeSnapshot live)) :
    Holds (FileStep.rename.run d) live txs [] counter high := by
  obtain ⟨base, -, hlive⟩ := h.base
  refine ⟨⟨live, ?_, ?_⟩, h.log, h.unfinished, h.sidecar, h.accounted, h.fits⟩
  · simp only [FileStep.run, htmp, loadSnapshot, decode_encode_snapshot h.fits]
    rfl
  · rw [← hlive]
    exact apply_batches_idempotent base txs.flatten

end

theorem Holds.truncate (h : Holds d live txs [] counter 0)
    (hsnapshot : loadSnapshot d.snapshot = .ok live) :
    Holds (FileStep.truncateLog.run d) live [] [] counter 0 :=
  ⟨⟨live, hsnapshot, rfl⟩, ⟨[], rfl, rfl⟩, unfinished_nil _, h.sidecar, UInt64.le_refl _, h.fits⟩

end Steps

/-! ## Compaction -/

theorem crash_nil (h : Crash [] d d') : d' = d := by
  cases h
  rfl

/-- What a crash in the first steps leaves, a crash in all of them can leave. -/
theorem Crash.append (h : Crash steps d d') (rest : List FileStep) :
    Crash (steps ++ rest) d d' := by
  induction h with
  | idle steps d => exact .idle _ d
  | inside h => exact .inside h
  | later _ ih => exact .later ih

/-- A failed commit leaves the files as a death in it could. -/
theorem Session.FailsIn.crash_in (h : s.FailsIn call d) : s.CrashIn call d := by
  obtain ⟨pieces, rest, memory, hplan, hcrash⟩ := h
  exact .accepted hplan (hcrash.append rest)

theorem crash_cons {step : FileStep}
    (h : Crash (step :: steps) d d') : step.Interrupted d d' ∨ Crash steps (step.run d) d' := by
  cases h with
  | idle => exact Or.inl (.before step)
  | inside h => exact Or.inl h
  | later h => exact Or.inr h

section Compaction

variable (h : Holds d m.live txs [] m.commitCounter high)
  (hroom : m.commitCounter.toNat + 1 < 2 ^ 64)

include h hroom

theorem Holds.compact : Holds (runSteps d m.compact.1) m.live [] [] (m.commitCounter + 1) 0 := by
  have htmp := h.set_tmp (some (encodeSnapshot m.live))
  have hslot := (htmp.publish rfl).slot hroom 0 (le_iff_toNat_le.mpr (zero_le _))
  refine hslot.truncate ?_
  show (decodeSnapshot (encodeSnapshot m.live)).mapError OpenError.snapshot = .ok m.live
  rw [decode_encode_snapshot h.fits]
  rfl

/-- A crash during compaction loses nothing. -/
theorem Holds.compact_crash (hcrash : Crash m.compact.1 d d') :
    Recovers d' m.live (m.commitCounter.toNat + 1) := by
  have hzero : 0 ≤ recordCount txs := le_iff_toNat_le.mpr (zero_le _)
  have htmp := h.set_tmp (some (encodeSnapshot m.live))
  have hpublished := htmp.publish rfl
  rcases crash_cons hcrash with hin | hcrash
  · -- writing the temporary snapshot
    cases hin with
    | writeTmp _ tmp => exact (h.set_tmp tmp).recovers (le_succ _)
    | before => exact h.recovers (le_succ _)
    | done => exact htmp.recovers (le_succ _)
  rcases crash_cons hcrash with hin | hcrash
  · -- renaming it
    cases hin with
    | before => exact htmp.recovers (le_succ _)
    | done => exact hpublished.recovers (le_succ _)
  rcases crash_cons hcrash with hin | hcrash
  · -- resetting the sidecar
    exact hpublished.slot_interrupted hroom hzero hin
  have hdone := (h.compact hroom).recovers (to_nat_succ hroom).le
  rcases crash_cons hcrash with hin | hcrash
  · -- truncating the log: the snapshot holds what the old log leads to
    cases hin with
    | before => exact (hpublished.slot hroom 0 hzero).recovers (to_nat_succ hroom).le
    | done => exact hdone
  · cases crash_nil hcrash
    exact hdone

theorem Holds.compact_if_due (hseq : m.nextSeq = recordCount txs) :
    Sound ⟨runSteps d m.compactIfDue.1, m.compactIfDue.2⟩ ∧ m.compactIfDue.2.live = m.live := by
  unfold Memory.compactIfDue
  split
  · exact ⟨⟨txs, high, h, hseq⟩, rfl⟩
  · exact ⟨⟨[], 0, h.compact hroom, rfl⟩, rfl⟩

theorem Holds.compact_if_due_crash (hcrash : Crash m.compactIfDue.1 d d') :
    Recovers d' m.live (m.commitCounter.toNat + 1) := by
  unfold Memory.compactIfDue at hcrash
  split at hcrash
  · cases crash_nil hcrash
    exact h.recovers (le_succ _)
  · exact h.compact_crash hroom hcrash

end Compaction

/-! ## Transactions -/

/-- A call that commits a transaction: its records are appended in some pieces, the sidecar names
the last of them, and a compaction follows if it is due. -/
structure Transacts (m : Memory) (bs : List Batch) (steps : List FileStep) (m' : Memory) :
    Prop where
  nonempty : bs ≠ []
  writes : ∃ records pieces : List Bytes, encodeParts m.nextSeq bs = .ok records ∧
    pieces.flatten = records.flatten ∧
    steps = pieces.map FileStep.append ++
      .slot (m.commitCounter + 1) (m.nextSeq + UInt64.ofNat bs.length) ::
        (m.applied bs records.flatten.length).compactIfDue.1 ∧
    m' = (m.applied bs records.flatten.length).compactIfDue.2

theorem transacts_of_commit_one
    (h : m.commitOne b = .ok (steps, m')) : Transacts m [b] steps m' := by
  simp only [Memory.commitOne, Except.bind_eq_ok, Except.ok.injEq, Prod.mk.injEq] at h
  obtain ⟨record, hrecord, rfl, rfl⟩ := h
  refine ⟨by simp, [record], [record], encode_parts_cons.mpr ⟨record, [], hrecord, rfl, rfl⟩,
    rfl, ?_, ?_⟩
  · simp only [flatten_cons, flatten_nil, append_nil]
    rfl
  · simp

/-- A call plans nothing, a compaction or a transaction. -/
theorem plan_cases
    (h : m.plan call = .ok (steps, m')) :
    (call.transaction = [] ∧ steps = [] ∧ m' = m) ∨
      (call.transaction = [] ∧ steps = m.compact.1 ∧ m' = m.compact.2) ∨
      Transacts m call.transaction steps m' := by
  cases call with
  | commit b =>
    simp only [Memory.plan, Memory.commit] at h
    simp only [Call.transaction]
    split_ifs at h with hb
    · simp only [Except.ok.injEq, Prod.mk.injEq] at h
      exact Or.inl ⟨if_pos hb, h.1.symm, h.2.symm⟩
    · rw [if_neg hb]
      exact Or.inr (Or.inr (transacts_of_commit_one h))
  | commitGroup batches =>
    simp only [Memory.plan, Memory.commitGroup] at h
    simp only [Call.transaction]
    split at h
    · rename_i hnil
      simp only [Except.ok.injEq, Prod.mk.injEq] at h
      exact Or.inl ⟨hnil, h.1.symm, h.2.symm⟩
    · rename_i b hone
      rw [hone]
      exact Or.inr (Or.inr (transacts_of_commit_one h))
    · rename_i hnil hone
      simp only [Except.bind_eq_ok, Except.ok.injEq, Prod.mk.injEq] at h
      obtain ⟨records, hrecords, rfl, rfl⟩ := h
      refine Or.inr (Or.inr ⟨hnil, records, [records.dropLast.flatten, records.getLastD []],
        hrecords, ?_, rfl, rfl⟩)
      obtain ⟨b, rest, hcons⟩ := exists_cons_of_ne_nil hnil
      rw [hcons] at hrecords
      obtain ⟨record, later, -, -, rfl⟩ := encode_parts_cons.mp hrecords
      have hsplit := dropLast_append_getLast (cons_ne_nil record later)
      conv_rhs => rw [← hsplit]
      simp [List.getLast?_eq_some_getLast]
  | compact =>
    simp only [Memory.plan, Except.ok.injEq] at h
    exact Or.inr (Or.inl ⟨rfl, by rw [h], by rw [h]⟩)

section Appends

theorem append_log_append (d : Disk) (a b : Bytes) :
    (d.appendLog a).appendLog b = d.appendLog (a ++ b) := by
  simp [Disk.appendLog]

variable {log : Bytes}

theorem append_log_nil (h : d.log = some log) : d.appendLog [] = d := by
  obtain ⟨snapshot, tmp, log', commits⟩ := d
  simp only at h
  simp [Disk.appendLog, h]

theorem run_appends (h : d.log = some log) (pieces : List Bytes) (rest : List FileStep) :
    runSteps d (pieces.map FileStep.append ++ rest) =
      runSteps (d.appendLog pieces.flatten) rest := by
  induction pieces generalizing d log with
  | nil => rw [flatten_nil, append_log_nil h, map_nil, nil_append]
  | cons piece pieces ih =>
    have hlog : (d.appendLog piece).log = some (log ++ piece) := by simp [Disk.appendLog, h]
    rw [flatten_cons, ← append_log_append, ← ih hlog]
    rfl

/-- A crash among appends keeps a prefix of what they write. -/
theorem crash_appends (h : d.log = some log) {pieces : List Bytes} {rest : List FileStep}
    (hcrash : Crash (pieces.map FileStep.append ++ rest) d d') :
    (∃ k, d' = d.appendLog (pieces.flatten.take k)) ∨
      Crash rest (d.appendLog pieces.flatten) d' := by
  induction pieces generalizing d log with
  | nil =>
    rw [flatten_nil, append_log_nil h]
    exact Or.inr hcrash
  | cons piece pieces ih =>
    have hlog : (d.appendLog piece).log = some (log ++ piece) := by simp [Disk.appendLog, h]
    rcases crash_cons hcrash with hin | hcrash
    · left
      cases hin with
      | append _ k =>
        refine ⟨min k piece.length, ?_⟩
        rw [flatten_cons, take_append_of_le_length (min_le_right _ _), take_eq_take_min]
      | before => exact ⟨0, by rw [take_zero, append_log_nil h]⟩
      | done => exact ⟨piece.length, by rw [flatten_cons, take_left]; rfl⟩
    · rw [flatten_cons, ← append_log_append]
      rcases ih hlog hcrash with ⟨k, rfl⟩ | hcrash
      · refine Or.inl ⟨piece.length + k, ?_⟩
        rw [append_log_append, take_length_add_append]
      · exact Or.inr hcrash

/-- A barrier that fails behind the appends leaves all of them. -/
theorem crash_appends_whole (h : d.log = some log) (pieces : List Bytes) :
    Crash (pieces.map FileStep.append) d (d.appendLog pieces.flatten) := by
  induction pieces generalizing d log with
  | nil =>
    rw [flatten_nil, append_log_nil h]
    exact .idle _ d
  | cons piece pieces ih =>
    have hlog : (d.appendLog piece).log = some (log ++ piece) := by simp [Disk.appendLog, h]
    rw [flatten_cons, ← append_log_append]
    exact .later (ih hlog)

end Appends

/-- The limits a call has to keep: a group of at most 2^32 batches, and 64-bit counters that do not
wrap, neither in the call nor in the recovery after it. -/
def Session.Roomy (s : Session) (call : Call) : Prop :=
  call.transaction.length ≤ 2 ^ 32 ∧ s.memory.nextSeq.toNat + call.transaction.length < 2 ^ 64 ∧
    s.memory.commitCounter.toNat + 3 < 2 ^ 64

section Transaction

variable {bs : List Batch} (h : Holds s.disk s.memory.live txs [] s.memory.commitCounter high)
  (hseq : s.memory.nextSeq = recordCount txs) (hlen : bs.length ≤ 2 ^ 32)
  (hroom : s.memory.nextSeq.toNat + bs.length < 2 ^ 64)
  (hcounter : s.memory.commitCounter.toNat + 3 < 2 ^ 64)

include h hseq hlen hroom hcounter

theorem Holds.transacted {pieces records : List Bytes} {n : ℕ} (hne : bs ≠ [])
    (hencode : encodeParts s.memory.nextSeq bs = .ok records)
    (hpieces : pieces.flatten = records.flatten) :
    Holds ((FileStep.slot (s.memory.commitCounter + 1)
        (s.memory.nextSeq + ofNat bs.length)).run (s.disk.appendLog pieces.flatten))
      (s.memory.applied bs n).live (txs ++ [bs]) [] (s.memory.applied bs n).commitCounter
      (s.memory.nextSeq + ofNat bs.length) := by
  rw [hseq] at hencode hroom
  rw [hpieces, hseq, ← record_count_append]
  exact (h.append_whole hne hlen hencode hroom).slot (by omega) _ (UInt64.le_refl _)

theorem Holds.transact (ht : Transacts s.memory bs steps m') :
    Sound ⟨runSteps s.disk steps, m'⟩ ∧ m'.live = applyBatches s.memory.live bs := by
  obtain ⟨records, pieces, hencode, hpieces, rfl, rfl⟩ := ht.writes
  obtain ⟨log, hlog, -⟩ := h.log
  rw [run_appends hlog]
  refine Holds.compact_if_due (h.transacted hseq hlen hroom hcounter ht.nonempty hencode hpieces)
    ?_ ?_
  · show (s.memory.commitCounter + 1).toNat + 1 < 2 ^ 64
    rw [to_nat_succ (by omega)]
    omega
  · show s.memory.nextSeq + ofNat bs.length = _
    rw [hseq, record_count_append]

/-- A crash during a transaction leaves all of it or none. -/
theorem Holds.transact_crash {d' : Disk} (ht : Transacts s.memory bs steps m')
    (hcrash : Crash steps s.disk d') :
    Recovers d' s.memory.live (s.memory.commitCounter.toNat + 2) ∨
      Recovers d' (applyBatches s.memory.live bs) (s.memory.commitCounter.toNat + 2) := by
  obtain ⟨records, pieces, hencode, hpieces, rfl, -⟩ := ht.writes
  obtain ⟨log, hlog, -⟩ := h.log
  have hslot := h.transacted (n := records.flatten.length) hseq hlen hroom hcounter ht.nonempty
    hencode hpieces
  have hsucc : (s.memory.commitCounter + 1).toNat = s.memory.commitCounter.toNat + 1 :=
    to_nat_succ (by omega)
  rw [hseq] at hencode hroom
  have hwhole := h.append_whole ht.nonempty hlen hencode hroom
  rcases crash_appends hlog hcrash with ⟨k, rfl⟩ | hcrash
  · -- in the log: all of the transaction, or only its first bytes
    rw [hpieces]
    rcases lt_or_ge k records.flatten.length with hk | hk
    · exact Or.inl ((h.append_piece hlen hencode hk).recovers (by omega))
    · rw [take_of_length_le hk]
      exact Or.inr (hwhole.recovers (by omega))
  · right
    rcases crash_cons hcrash with hin | hcrash
    · -- in the sidecar
      rw [hpieces] at hin
      refine (hwhole.slot_interrupted (by omega) ?_ hin).mono (by omega)
      rw [hseq, record_count_append]
      exact UInt64.le_refl _
    · -- in the compaction that follows
      refine (hslot.compact_if_due_crash ?_ hcrash).mono ?_
      · show (s.memory.commitCounter + 1).toNat + 1 < 2 ^ 64
        omega
      · show (s.memory.commitCounter + 1).toNat + 1 ≤ _
        omega

end Transaction

/-! ## Calls -/

/-- A call that returns keeps the store sound and has its effect. -/
theorem Sound.perform (h : Sound s) (hroomy : s.Roomy call) (hcall : s.perform call = .ok s') :
    Sound s' ∧ s'.memory.live = call.effect s.memory.live := by
  obtain ⟨txs, high, hholds, hseq⟩ := h
  obtain ⟨hlen, hroom, hcounter⟩ := hroomy
  simp only [Session.perform, Except.bind_eq_ok, Except.ok.injEq] at hcall
  obtain ⟨⟨steps, m'⟩, hplan, rfl⟩ := hcall
  unfold Call.effect
  rcases plan_cases hplan with ⟨hnone, rfl, rfl⟩ | ⟨hnone, rfl, rfl⟩ | ht
  · rw [hnone]
    exact ⟨⟨txs, high, hholds, hseq⟩, rfl⟩
  · rw [hnone]
    exact ⟨⟨[], 0, hholds.compact (by omega), rfl⟩, rfl⟩
  · exact hholds.transact hseq hlen hroom hcounter ht

/-- A crash inside a call recovers to before it or after it. -/
theorem Sound.crash (h : Sound s) (hroomy : s.Roomy call) (hcrash : s.CrashIn call d) :
    Recovers d s.memory.live (s.memory.commitCounter.toNat + 2) ∨
      Recovers d (call.effect s.memory.live) (s.memory.commitCounter.toNat + 2) := by
  obtain ⟨txs, high, hholds, hseq⟩ := h
  obtain ⟨hlen, hroom, hcounter⟩ := hroomy
  cases hcrash with
  | accepted hplan hcrash =>
    rcases plan_cases hplan with ⟨-, rfl, -⟩ | ⟨-, rfl, -⟩ | ht
    · cases crash_nil hcrash
      exact Or.inl (hholds.recovers (by omega))
    · exact Or.inl ((hholds.compact_crash (by omega) hcrash).mono (by omega))
    · exact hholds.transact_crash hseq hlen hroom hcounter ht hcrash
  | refused hplan hd =>
    rw [hd]
    exact Or.inl (hholds.recovers (by omega))

/-- An open store leaves files that open with its own view. -/
theorem Sound.opens (h : Sound s) (hroom : s.memory.commitCounter.toNat + 1 < 2 ^ 64)
    (compactAfterBytes : ℕ) :
    ∃ s', openStore compactAfterBytes s.disk = .ok s' ∧ Sound s' ∧
      s'.memory.live = s.memory.live := by
  obtain ⟨txs, high, hholds, -⟩ := h
  obtain ⟨s', hopen, hlive, hsound⟩ := hholds.opens hroom compactAfterBytes
  exact ⟨s', hopen, hsound, hlive⟩

/-- A call moves the counter of the sidecar by two at most: its own slot and a compaction's. -/
theorem commit_counter_le (hplan : m.plan call = .ok (steps, m'))
    (hroom : m.commitCounter.toNat + 3 < 2 ^ 64) :
    m'.commitCounter.toNat ≤ m.commitCounter.toNat + 2 := by
  have hsucc : (m.commitCounter + 1).toNat = m.commitCounter.toNat + 1 := to_nat_succ (by omega)
  have hsucc₂ : (m.commitCounter + 1 + 1).toNat = (m.commitCounter + 1).toNat + 1 :=
    to_nat_succ (by omega)
  rcases plan_cases hplan with ⟨-, -, rfl⟩ | ⟨-, -, rfl⟩ | ht
  · omega
  · show (m.commitCounter + 1).toNat ≤ _
    omega
  · obtain ⟨records, pieces, -, -, -, rfl⟩ := ht.writes
    unfold Memory.compactIfDue
    split
    · show (m.commitCounter + 1).toNat ≤ _
      omega
    · show (m.commitCounter + 1 + 1).toNat ≤ _
      omega

/-- What a call that returned has written opens with the view it led to. -/
theorem Sound.perform_opens (h : Sound s) (hroomy : s.Roomy call)
    (hcall : s.perform call = .ok s') (compactAfterBytes : ℕ) :
    ∃ s'', openStore compactAfterBytes s'.disk = .ok s'' ∧ Sound s'' ∧
      s''.memory.live = s'.memory.live := by
  refine (h.perform hroomy hcall).1.opens ?_ compactAfterBytes
  simp only [Session.perform, Except.bind_eq_ok, Except.ok.injEq] at hcall
  obtain ⟨⟨steps, m'⟩, hplan, rfl⟩ := hcall
  have hle := commit_counter_le hplan hroomy.2.2
  have hcounter := hroomy.2.2
  show m'.commitCounter.toNat + 1 < 2 ^ 64
  omega

/-- A commit can fail with its whole transaction in the log, and the next process applies it. -/
theorem Sound.fails_whole (h : Sound s) (hroomy : s.Roomy call) (hcall : s.perform call = .ok s')
    (hne : call.transaction ≠ []) :
    ∃ d, s.FailsIn call d ∧ ∀ compactAfterBytes, ∃ s'', openStore compactAfterBytes d = .ok s'' ∧
      Sound s'' ∧ s''.memory.live = s'.memory.live := by
  have hlive := (h.perform hroomy hcall).2
  obtain ⟨txs, high, hholds, hseq⟩ := h
  obtain ⟨hlen, hroom, hcounter⟩ := hroomy
  simp only [Session.perform, Except.bind_eq_ok, Except.ok.injEq] at hcall
  obtain ⟨⟨steps, m'⟩, hplan, rfl⟩ := hcall
  rcases plan_cases hplan with ⟨hnone, -⟩ | ⟨hnone, -⟩ | ht
  · exact absurd hnone hne
  · exact absurd hnone hne
  · obtain ⟨records, pieces, hencode, hpieces, rfl, -⟩ := ht.writes
    obtain ⟨log, hlog, -⟩ := hholds.log
    refine ⟨_, ⟨pieces, _, m', hplan, crash_appends_whole hlog pieces⟩, fun compactAfterBytes => ?_⟩
    rw [hseq] at hencode hroom
    obtain ⟨s'', hopen, hview, hsound⟩ :=
      (hholds.append_whole hne hlen hencode hroom).opens (by omega) compactAfterBytes
    exact ⟨s'', hpieces ▸ hopen, hsound, hview.trans hlive.symm⟩

/-- A call that takes new sequences commits a transaction. -/
theorem transaction_ne_nil (hplan : m.plan call = .ok (steps, m'))
    (hgrows : m.nextSeq < m'.nextSeq) :
    call.transaction ≠ [] := by
  rcases plan_cases hplan with ⟨-, -, rfl⟩ | ⟨-, -, rfl⟩ | ht
  · exact absurd hgrows (UInt64.lt_irrefl _)
  · exact absurd hgrows UInt64.not_lt_zero
  · exact ht.nonempty

/-- Every record takes at least a byte of the log. -/
theorem length_le_of_encode_parts {seq : UInt64} {bs : List Batch} {records : List Bytes}
    (h : encodeParts seq bs = .ok records) : bs.length ≤ records.flatten.length := by
  induction bs generalizing seq records with
  | nil => exact Nat.zero_le _
  | cons b rest ih =>
    obtain ⟨record, later, hrecord, hlater, rfl⟩ := encode_parts_cons.mp h
    obtain ⟨-, -, rfl⟩ := encode_record_eq_ok.mp hrecord
    have hrest := ih hlater
    have hpos : 0 < recordHeaderLen := by decide
    rw [flatten_cons, length_append, length_cons, length_frame_bytes]
    omega

/-- A call that did not compact has no more batches than the log has bytes. -/
theorem roomy_of_plan (hplan : s.memory.plan call = .ok (steps, m')) (hkept : m'.nextSeq ≠ 0)
    (hlog : m'.logBytes ≤ 2 ^ 32) (hseq : s.memory.nextSeq.toNat + 2 ^ 32 < 2 ^ 64)
    (hcounter : s.memory.commitCounter.toNat + 3 < 2 ^ 64) : s.Roomy call := by
  have hlen : call.transaction.length ≤ 2 ^ 32 := by
    rcases plan_cases hplan with ⟨hnone, -⟩ | ⟨hnone, -⟩ | ht
    · simp [hnone]
    · simp [hnone]
    · obtain ⟨records, pieces, hencode, -, -, rfl⟩ := ht.writes
      have hle := length_le_of_encode_parts hencode
      unfold Memory.compactIfDue at hkept hlog
      split at hkept
      · rename_i hsmall
        rw [if_pos hsmall] at hlog
        have hsum : s.memory.logBytes + records.flatten.length ≤ 2 ^ 32 := hlog
        omega
      · exact absurd rfl hkept
  exact ⟨hlen, by omega, hcounter⟩

/-- A batch that fits in a record, also when its payload is escaped. -/
def Recordable (b : Batch) : Prop :=
  batchSize b ≤ maxRecordLen ∧ (escapePayload (b.flatMap Mutation.encode)).length ≤ maxRecordLen

theorem encode_parts_recordable {bs : List Batch} (h : ∀ b ∈ bs, Recordable b) (seq : UInt64) :
    ∃ records, encodeParts seq bs = .ok records := by
  induction bs generalizing seq with
  | nil => exact ⟨[], rfl⟩
  | cons b rest ih =>
    obtain ⟨later, hlater⟩ := ih (fun b' hb' => h b' (mem_cons_of_mem _ hb')) (seq + 1)
    obtain ⟨hsize, hescaped⟩ := h b mem_cons_self
    have hrecord : encodeRecord b seq (UInt32.ofNat rest.length) = .ok _ :=
      encode_record_eq_ok.mpr ⟨hsize, hescaped, rfl⟩
    exact ⟨_, encode_parts_cons.mpr ⟨_, later, hrecord, hlater, rfl⟩⟩

variable {batches : List Batch}

theorem commit_group_eq {m : Memory} {bs : List Batch} {records : List Bytes}
    (hbs : batches.filter (fun b => b ≠ []) = bs) (hlen : 2 ≤ bs.length)
    (hencode : encodeParts m.nextSeq bs = .ok records) :
    ∃ m' rest, m.commitGroup batches =
      .ok (.append records.dropLast.flatten :: .append (records.getLastD []) :: rest, m') := by
  match bs, hlen with
  | b :: b' :: later, _ =>
    simp only [Memory.commitGroup, hbs, hencode]
    exact ⟨_, _, rfl⟩

theorem commit_one_recordable (m : Memory) (h : Recordable b) :
    ∃ plan, m.commitOne b = .ok plan := by
  have hrecord : encodeRecord b m.nextSeq 0 = .ok _ := encode_record_eq_ok.mpr ⟨h.1, h.2, rfl⟩
  simp only [Memory.commitOne, hrecord]
  exact ⟨_, rfl⟩

theorem commit_group_recordable (m : Memory)
    (h : ∀ b ∈ batches.filter fun b => b ≠ [], Recordable b) :
    ∃ plan, m.commitGroup batches = .ok plan := by
  match hbs : batches.filter (fun b => b ≠ []) with
  | [] => exact ⟨([], m), by simp only [Memory.commitGroup, hbs]⟩
  | [b] =>
    obtain ⟨plan, hplan⟩ := commit_one_recordable m (h b (hbs ▸ mem_singleton_self b))
    exact ⟨plan, by simp only [Memory.commitGroup, hbs, hplan]⟩
  | b :: b' :: later =>
    rw [hbs] at h
    obtain ⟨records, hencode⟩ := encode_parts_recordable h m.nextSeq
    obtain ⟨m', rest, hgroup⟩ := commit_group_eq hbs (by simp) hencode
    exact ⟨_, hgroup⟩

theorem perform_recordable (s : Session) (h : ∀ b ∈ call.transaction, Recordable b) :
    ∃ s', s.perform call = .ok s' := by
  have hplan : ∃ plan, s.memory.plan call = .ok plan := by
    cases call with
    | commit b =>
      simp only [Memory.plan, Memory.commit]
      split_ifs with hb
      · exact ⟨_, rfl⟩
      · exact commit_one_recordable _ (h b (by simp [Call.transaction, hb]))
    | commitGroup batches => exact commit_group_recordable s.memory h
    | compact => exact ⟨_, rfl⟩
  obtain ⟨plan, hplan⟩ := hplan
  simp only [perform, hplan]
  exact ⟨_, rfl⟩

/-! ## Histories -/

/-- What a store can go through: it is opened in a fresh directory, calls return, and a process
dies in a call and the next one opens what it left. The view is the one the calls that returned
led to, since the last recovery. `allowed` restricts the calls. -/
inductive History (allowed : Session → Call → Prop) : Session → Live → Prop
  | opened {compactAfterBytes : ℕ} {s : Session}
      (hopen : openStore compactAfterBytes Disk.fresh = .ok s) : History allowed s FinMap.empty
  | returned {s s' : Session} {live : Live} {call : Call} (h : History allowed s live)
      (hallowed : allowed s call) (hcall : s.perform call = .ok s') :
      History allowed s' (call.effect live)
  | crashed {s s' : Session} {live : Live} {call : Call} {d : Disk} {compactAfterBytes : ℕ}
      (h : History allowed s live) (hallowed : allowed s call) (hcrash : s.CrashIn call d)
      (hopen : openStore compactAfterBytes d = .ok s') : History allowed s' s'.memory.live

theorem Sound.reopens (h : Sound s) (hroomy : s.Roomy call)
    (hcrash : s.CrashIn call d) (compactAfterBytes : ℕ) :
    ∃ s', openStore compactAfterBytes d = .ok s' ∧ Sound s' ∧
      (s'.memory.live = s.memory.live ∨ s'.memory.live = call.effect s.memory.live) := by
  have hcounter := hroomy.2.2
  rcases h.crash hroomy hcrash with hrecovers | hrecovers <;>
    obtain ⟨txs, tail, counter, high, hholds, hle⟩ := hrecovers <;>
    obtain ⟨s', hopen, hlive, hsound⟩ := hholds.opens (by omega) compactAfterBytes
  · exact ⟨s', hopen, hsound, Or.inl hlive⟩
  · exact ⟨s', hopen, hsound, Or.inr hlive⟩

/-- Along every history the store is sound and holds what was committed. -/
theorem History.sound (h : History Roomy s live) :
    Sound s ∧ s.memory.live = live := by
  induction h with
  | @opened compactAfterBytes s hopen =>
    obtain ⟨s₀, hs₀, hlive, -, -, hsound⟩ := opens_fresh compactAfterBytes
    cases hopen.symm.trans hs₀
    exact ⟨hsound, hlive⟩
  | returned h hallowed hcall ih =>
    obtain ⟨hsound, hlive⟩ := ih.1.perform hallowed hcall
    exact ⟨hsound, by rw [hlive, ih.2]⟩
  | @crashed s s' live call d compactAfterBytes h hallowed hcrash hopen ih =>
    obtain ⟨s₀, hs₀, hsound, -⟩ := ih.1.reopens hallowed hcrash compactAfterBytes
    cases hopen.symm.trans hs₀
    exact ⟨hsound, rfl⟩

/-- The store is crash atomic. After any history within the limits it shows the view its calls
led to; a crash anywhere in the next call leaves a directory that opens, with that view or with
the call's transaction applied as a whole; and it accepts every call whose batches fit in a record
each, with the same guarantee. -/
theorem crash_atomic {s : Session} {live : Live} (h : History Session.Roomy s live) :
    s.memory.live = live ∧ (∀ call d, s.Roomy call → s.CrashIn call d → ∀ compactAfterBytes,
        ∃ s', openStore compactAfterBytes d = .ok s' ∧ History Session.Roomy s' s'.memory.live ∧
          (s'.memory.live = live ∨ s'.memory.live = call.effect live)) ∧
      ∀ call, s.Roomy call → (∀ b ∈ call.transaction, Recordable b) →
        ∃ s', s.perform call = .ok s' ∧ History Session.Roomy s' (call.effect live) ∧
          s'.memory.live = call.effect live := by
  obtain ⟨hsound, hlive⟩ := h.sound
  refine ⟨hlive, ?_, ?_⟩
  · intro call d hroomy hcrash compactAfterBytes
    obtain ⟨s', hopen, -, hview⟩ := hsound.reopens hroomy hcrash compactAfterBytes
    rw [hlive] at hview
    exact ⟨s', hopen, .crashed h hroomy hcrash hopen, hview⟩
  · intro call hroomy hrecordable
    obtain ⟨s', hcall⟩ := perform_recordable s hrecordable
    have hhistory := History.returned h hroomy hcall
    exact ⟨s', hcall, hhistory, hhistory.sound.2⟩

/-- The first commit of a new store, wherever the process dies in it. -/
theorem first_commit_atomic :
    ∃ s, openStore 0 Disk.fresh = .ok s ∧ s.Roomy (.commit [.put [0] [0]]) ∧
      (∀ d, s.CrashIn (.commit [.put [0] [0]]) d → ∃ s', openStore 0 d = .ok s' ∧
        (s'.memory.live = FinMap.empty ∨ s'.memory.live = FinMap.empty.insert [0] [0])) ∧
      ∃ s', s.perform (.commit [.put [0] [0]]) = .ok s' ∧
        s'.memory.live = FinMap.empty.insert [0] [0] := by
  obtain ⟨s, hopen, -, hseq, hcounter, -⟩ := opens_fresh 0
  have hroomy : s.Roomy (.commit [.put [0] [0]]) := by
    unfold Roomy
    rw [hseq, hcounter]
    decide
  obtain ⟨-, hcrash, hperform⟩ := crash_atomic (.opened hopen)
  refine ⟨s, hopen, hroomy, ?_, ?_⟩
  · intro d hd
    obtain ⟨s', hopen', -, hview⟩ := hcrash _ d hroomy hd 0
    exact ⟨s', hopen', hview⟩
  · have hrecordable : ∀ b ∈ (Call.commit [.put [0] [0]]).transaction, Recordable b := by
      intro b hb
      cases mem_singleton.mp hb
      exact ⟨by decide, by decide⟩
    obtain ⟨s', hcall, -, hview⟩ := hperform _ hroomy hrecordable
    exact ⟨s', hcall, hview⟩

/-! ## Groups beyond the countdown -/

/-- All records but the last are a proper prefix of the transaction. -/
theorem flatten_drop_last_eq_take {seq : UInt64} {bs : List Batch} {records : List Bytes}
    (hne : bs ≠ []) (h : encodeParts seq bs = .ok records) :
    ∃ k, k < records.flatten.length ∧ records.dropLast.flatten = records.flatten.take k := by
  induction bs generalizing seq records with
  | nil => exact absurd rfl hne
  | cons b rest ih =>
    obtain ⟨record, later, hrecord, hlater, rfl⟩ := encode_parts_cons.mp h
    cases rest with
    | nil =>
      cases hlater
      obtain ⟨-, -, rfl⟩ := encode_record_eq_ok.mp hrecord
      refine ⟨0, ?_, rfl⟩
      rw [flatten_singleton, length_frame_bytes]
      exact Nat.add_pos_left (by decide) _
    | cons b' rest =>
      obtain ⟨k, hk, htake⟩ := ih (cons_ne_nil _ _) hlater
      obtain ⟨record', later', -, -, rfl⟩ := encode_parts_cons.mp hlater
      refine ⟨record.length + k, ?_, ?_⟩
      · rw [flatten_cons, length_append]
        exact Nat.add_lt_add_left hk _
      · rw [dropLast_cons_cons, flatten_cons, htake]
        exact (take_length_add_append k).symm

/-- A group of 2^32 + 1 batches can be torn by a crash. -/
theorem Sound.group_torn (h : Sound s) {rest : List Batch}
    (hlen : rest.length = 2 ^ 32) (hne : ∀ b' ∈ b :: rest, b' ≠ [])
    (hrecordable : ∀ b' ∈ b :: rest, Recordable b')
    (hroom : s.memory.nextSeq.toNat + 1 < 2 ^ 64)
    (hcounter : s.memory.commitCounter.toNat + 1 < 2 ^ 64) :
    ∃ d, s.CrashIn (.commitGroup (b :: rest)) d ∧ ∀ compactAfterBytes, ∃ s',
      openStore compactAfterBytes d = .ok s' ∧ s'.memory.live = applyBatches s.memory.live [b] := by
  obtain ⟨txs, high, hholds, hseq⟩ := h
  obtain ⟨records, hencode⟩ := encode_parts_recordable hrecordable s.memory.nextSeq
  obtain ⟨record, later, hrecord, hlater, rfl⟩ := encode_parts_cons.mp hencode
  have hfilter : (b :: rest).filter (fun b' => b' ≠ []) = b :: rest :=
    filter_eq_self.mpr fun b' hb' => decide_eq_true (hne b' hb')
  obtain ⟨m', steps, hplan⟩ := commit_group_eq hfilter (by simp [hlen]) hencode
  have hcrash : s.CrashIn (.commitGroup (b :: rest))
      (s.disk.appendLog (record :: later).dropLast.flatten) := .accepted hplan (.inside (.done _))
  refine ⟨_, hcrash, fun compactAfterBytes => ?_⟩
  -- the first record stands in the log as a transaction of its own
  have hfirst : encodeParts (recordCount txs) [b] = .ok [record] := by
    rw [hlen, hseq] at hrecord
    exact encode_parts_cons.mpr ⟨record, [], hrecord, rfl, rfl⟩
  rw [hseq] at hroom
  have hone := hholds.append_whole (cons_ne_nil b []) (by simp) hfirst hroom
  -- and the others as the first bytes of the next one
  have hcons : rest ≠ [] := by
    rintro rfl
    simp at hlen
  obtain ⟨k, hk, htake⟩ := flatten_drop_last_eq_take hcons hlater
  have hsecond : encodeParts (recordCount (txs ++ [[b]])) rest = .ok later := by
    rw [record_count_append, ← hseq]
    exact hlater
  have htorn := hone.append_piece hlen.le hsecond hk
  have hdisk : s.disk.appendLog (record :: later).dropLast.flatten =
      (s.disk.appendLog [record].flatten).appendLog (later.flatten.take k) := by
    obtain ⟨b', rest', rfl⟩ := exists_cons_of_ne_nil hcons
    obtain ⟨record', later', -, -, rfl⟩ := encode_parts_cons.mp hlater
    rw [append_log_append, ← htake, dropLast_cons_cons, flatten_cons, flatten_singleton]
  obtain ⟨s', hopen, hlive, -⟩ := htorn.opens hcounter compactAfterBytes
  exact ⟨s', hdisk ▸ hopen, hlive⟩

namespace Sample

/-- Two batches of one mutation each, and a group of 2^32 + 1 of them. -/
def firstBatch : Batch := [.put [0] [0]]

/-- See `firstBatch`. -/
def otherBatch : Batch := [.put [1] [1]]

/-- More records than a group can count. -/
def hugeGroup : List Batch := firstBatch :: List.replicate (2 ^ 32) otherBatch

theorem mem_huge_group (h : b ∈ hugeGroup) : b = firstBatch ∨ b = otherBatch := by
  rcases mem_cons.mp h with rfl | h
  · exact Or.inl rfl
  · exact Or.inr (eq_of_mem_replicate h)

theorem huge_group_ne_nil (h : b ∈ hugeGroup) : b ≠ [] := by
  rcases mem_huge_group h with rfl | rfl <;> exact cons_ne_nil _ _

theorem huge_group_recordable (h : b ∈ hugeGroup) : Recordable b := by
  rcases mem_huge_group h with rfl | rfl <;> exact ⟨by decide, by decide⟩

theorem find_effect_huge_group (live : Live) :
    ((Call.commitGroup hugeGroup).effect live).find? [1] = some [1] := by
  have hfilter : hugeGroup.filter (fun b => b ≠ []) = hugeGroup :=
    filter_eq_self.mpr fun b hb => decide_eq_true (huge_group_ne_nil hb)
  obtain ⟨n, hn⟩ : ∃ n, 2 ^ 32 = n + 1 := ⟨2 ^ 32 - 1, by decide⟩
  have hlast : hugeGroup = (firstBatch :: replicate n otherBatch) ++ [otherBatch] := by
    rw [hugeGroup, hn, replicate_succ', cons_append]
  simp only [Call.effect, Call.transaction, hfilter]
  rw [hlast, apply_batches_append]
  exact find_apply_batch _ _ _

end Sample

open Sample in
/-- A group of 2^32 + 1 batches is not atomic: a store in a fresh directory that dies in front of
the group's last record opens again with the first batch applied and no other. -/
theorem huge_group_torn :
    ∃ s d s', History (fun _ _ => True) s FinMap.empty ∧ s.CrashIn (.commitGroup hugeGroup) d ∧
      openStore 0 d = .ok s' ∧ s'.memory.live = applyBatches FinMap.empty [firstBatch] ∧
      s'.memory.live ≠ FinMap.empty ∧
      s'.memory.live ≠ (Call.commitGroup hugeGroup).effect FinMap.empty := by
  obtain ⟨s, hopen, hlive, hseq, hcounter, hsound⟩ := opens_fresh 0
  have hroom : s.memory.nextSeq.toNat + 1 < 2 ^ 64 := by
    rw [hseq]
    decide
  have hslots : s.memory.commitCounter.toNat + 1 < 2 ^ 64 := by
    rw [hcounter]
    decide
  have hlen : (replicate (2 ^ 32) otherBatch).length = 2 ^ 32 := length_replicate
  obtain ⟨d, hcrash, hreopens⟩ := hsound.group_torn hlen (fun _ => huge_group_ne_nil)
    (fun _ => huge_group_recordable) hroom hslots
  rw [← hugeGroup] at hcrash
  obtain ⟨s', hopen', hlive'⟩ := hreopens 0
  rw [hlive] at hlive'
  refine ⟨s, d, s', .opened hopen, hcrash, hopen', hlive', ?_, ?_⟩
  · rw [hlive']
    decide
  · intro h
    have hfind := find_effect_huge_group empty
    rw [← h, hlive'] at hfind
    exact absurd hfind (by decide)

end Zycord.Storage
