import Zycord.Storage.Transactions

/-!
# What recovery leaves

Recovery of arbitrary bytes. Whatever the log holds, a recovery that succeeds has read complete
transactions in sequence, has applied exactly those and has left exactly their bytes
(`LogGives.transactions`). Recovering again finds the same transactions and nothing to cut
(`recovery_idempotent`), and the sidecar can turn a recovery into a refusal and into nothing else
(`sidecar_only_refuses`).
-/

namespace Zycord.Storage

open FinMap Nat Progress UInt64 List

/-! ## Appending to transactions -/

variable {seq : UInt64} {k n compactAfterBytes : ℕ} {bs : List Batch} {log raw part front : Bytes}
  {b : Batch} {more : UInt32} {txs : List (List Batch)} {st st' : Progress} {base live : Live}
  {evidence : CommitEvidence} {out : Recovered} {d : Disk} {s : Session}

/-- One more record of a transaction. -/
theorem IsParts.append {record : Bytes} (h : IsParts seq (k + 1) bs raw)
    (hrecord : decodeRecord record = .ok b (seq + UInt64.ofNat bs.length) more record.length)
    (hmore : more.toNat = k) : IsParts seq k (bs ++ [b]) (raw ++ record) := by
  induction bs generalizing seq raw with
  | nil =>
    cases h
    rw [show seq + UInt64.ofNat ([] : List Batch).length = seq from UInt64.add_zero seq] at hrecord
    exact ⟨record, [], more, hrecord, by simpa using hmore, rfl, by simp⟩
  | cons first rest ih =>
    obtain ⟨front, tail, count, hfront, hcount, htail, rfl⟩ := h
    rw [add_length_cons] at hrecord
    refine ⟨front, tail ++ record, count, hfront, ?_, ih htail hrecord, append_assoc _ _ _⟩
    show count.toNat = (rest ++ [b]).length + k
    rw [length_append, length_singleton]
    omega

/-- One more transaction at the end. -/
theorem IsTransactions.append (h : IsTransactions seq txs raw) (hne : bs ≠ [])
    (hparts : IsParts (seq + recordCount txs) 0 bs front) :
    IsTransactions seq (txs ++ [bs]) (raw ++ front) := by
  induction txs generalizing seq raw with
  | nil =>
    cases h
    rw [show seq + recordCount [] = seq from add_zero seq] at hparts
    exact ⟨front, [], hne, hparts, rfl, by simp⟩
  | cons tx later ih =>
    obtain ⟨first, tail, htx, hfirst, htail, rfl⟩ := h
    rw [record_count_cons, ← add_assoc] at hparts
    exact ⟨first, tail ++ front, htx, hfirst, ih htail hparts, append_assoc _ _ _⟩

/-! ## Reading arbitrary bytes -/

/-- How far reading has come: complete transactions that are applied, and behind them the parts of
an open one that are held and announce `k` more. -/
structure ReadSoFar (live : Live) (raw : Bytes) (st : Progress) (txs : List (List Batch))
    (front part : Bytes) (k : ℕ) : Prop where
  done : IsTransactions 0 txs front
  live : st.live = applyBatches live txs.flatten
  parts : IsParts (recordCount txs) k st.pending part
  bytes : raw.take st.consumed = front ++ part
  inside : st.consumed ≤ raw.length
  seq : st.expectedSeq = recordCount txs + UInt64.ofNat st.pending.length
  group : st.pending ≠ [] → st.groupStart = front.length ∧ st.groupSeq = recordCount txs ∧
    0 < k ∧ k < 2 ^ 32 ∧ st.groupFinalSeq + 1 = st.expectedSeq + UInt64.ofNat k

theorem read_so_far_start (live : Live) (raw : Bytes) :
    ReadSoFar live raw (.start live) [] [] [] 0 where
  done := rfl
  live := rfl
  parts := rfl
  bytes := rfl
  inside := Nat.zero_le _
  seq := rfl
  group := fun h => absurd rfl h

theorem accept_eq_ok (h : st.accept b seq more n = .ok st') :
    seq = st.expectedSeq ∧ (st.pending ≠ [] → seq + more.toUInt64 = st.groupFinalSeq) ∧
      ((0 < more ∧ st' = st.hold b seq more n) ∨ (more = 0 ∧ st' = st.complete b n)) := by
  unfold accept at h
  split_ifs at h with hseq hgroup hmore
  · cases h
    refine ⟨not_not.mp hseq, fun hp => ?_, Or.inl ⟨hmore, rfl⟩⟩
    by_contra hne
    exact hgroup ⟨hp, hne⟩
  · cases h
    refine ⟨not_not.mp hseq, fun hp => ?_, Or.inr ⟨?_, rfl⟩⟩
    · by_contra hne
      exact hgroup ⟨hp, hne⟩
    · rw [← UInt32.toNat_inj]
      rw [UInt32.lt_iff_toNat_lt, not_lt] at hmore
      exact le_zero.mp hmore

theorem more_of_group (hk : 0 < k) (hlt : k < 2 ^ 32)
    (hfinal : st.groupFinalSeq + 1 = st.expectedSeq + UInt64.ofNat k)
    (h : st.expectedSeq + more.toUInt64 = st.groupFinalSeq) : more.toNat + 1 = k := by
  rw [← h, UInt64.add_assoc] at hfinal
  have hcount := (UInt64.add_right_inj _).mp hfinal
  rw [← UInt64.toNat_inj, UInt64.toNat_add, UInt32.toNat_toUInt64,
    UInt64.toNat_ofNat_of_lt' (hlt.trans (by decide))] at hcount
  have hone : (1 : UInt64).toNat = 1 := rfl
  have := more.toNat_lt
  omega

theorem ReadSoFar.length_front (h : ReadSoFar live raw st txs front part k)
    (hpending : st.pending = []) : part = [] ∧ front.length = st.consumed := by
  have hparts := h.parts
  rw [hpending] at hparts
  cases hparts
  have hbytes := congrArg length h.bytes
  rw [append_nil, length_take_of_le h.inside] at hbytes
  exact ⟨rfl, hbytes.symm⟩

section

variable (h : ReadSoFar live raw st txs front part k)

include h

theorem ReadSoFar.cutPoint : st.cutPoint = (recordCount txs, front.length) := by
  unfold Progress.cutPoint
  split_ifs with hpending
  · rw [(h.length_front hpending).2, h.seq, hpending]
    exact congrArg (·, _) (add_zero _)
  · rw [(h.group hpending).1, (h.group hpending).2.1]

/-- Accepting a record keeps the account of what was read. -/
theorem ReadSoFar.accept (hdecode : decodeRecord (raw.drop st.consumed) = .ok b seq more n)
    (haccept : st.accept b seq more n = .ok st') :
    ∃ txs' front' part' k', ReadSoFar live raw st' txs' front' part' k' := by
  obtain ⟨rfl, hgroup, hcases⟩ := accept_eq_ok haccept
  obtain ⟨-, -, -, -, hn⟩ := decode_eq_ok hdecode
  have hinside : st.consumed + n ≤ raw.length := by
    rw [length_drop] at hn
    have := h.inside
    omega
  have hlen : ((raw.drop st.consumed).take n).length = n := length_take_of_le hn
  have hrecord : decodeRecord ((raw.drop st.consumed).take n) =
      .ok b st.expectedSeq more ((raw.drop st.consumed).take n).length := by
    rw [hlen, ← decode_append hlen.ge ((raw.drop st.consumed).drop n), take_append_drop]
    exact hdecode
  -- the parts of the open transaction with the record behind them
  have hparts : IsParts (recordCount txs) more.toNat (st.pending ++ [b])
      (part ++ (raw.drop st.consumed).take n) := by
    rw [h.seq] at hrecord
    by_cases hpending : st.pending = []
    · rw [hpending, (h.length_front hpending).1]
      rw [hpending] at hrecord
      have hnone : IsParts (recordCount txs) (more.toNat + 1) [] [] := rfl
      exact hnone.append hrecord rfl
    · obtain ⟨-, -, hk, hlt, hfinal⟩ := h.group hpending
      refine IsParts.append ?_ hrecord rfl
      rw [more_of_group hk hlt hfinal (hgroup hpending)]
      exact h.parts
  have hbytes : raw.take (st.consumed + n) = front ++ (part ++ (raw.drop st.consumed).take n) := by
    rw [take_add, h.bytes, append_assoc]
  have hseq : st.expectedSeq + 1 = recordCount txs + UInt64.ofNat (st.pending ++ [b]).length := by
    rw [h.seq, length_append, UInt64.ofNat_add, ← UInt64.add_assoc]
    rfl
  rcases hcases with ⟨hpos, rfl⟩ | ⟨rfl, rfl⟩
  · -- the transaction stays open
    obtain ⟨hlive, hfinal, hcut⟩ := hold_group (b := b) (n := n) hgroup
    rw [h.cutPoint, Prod.mk.injEq] at hcut
    refine ⟨txs, front, part ++ (raw.drop st.consumed).take n, more.toNat, h.done,
      hlive.trans h.live, hparts, hbytes, hinside, hseq,
      fun _ => ⟨hcut.2, hcut.1, UInt32.lt_iff_toNat_lt.mp hpos, more.toNat_lt, ?_⟩⟩
    show (st.hold b st.expectedSeq more n).groupFinalSeq + 1 = st.expectedSeq + 1 + _
    rw [hfinal, add_assoc, add_assoc, add_comm 1]
    simp
  · -- the record was the last of its transaction
    refine ⟨txs ++ [st.pending ++ [b]], front ++ (part ++ (raw.drop st.consumed).take n), [], 0,
      ?_, ?_, rfl, ?_, hinside, ?_, fun hne => absurd rfl hne⟩
    · refine h.done.append (by simp) ?_
      rw [zero_add]
      exact hparts
    · show applyBatches st.live (st.pending ++ [b]) = _
      rw [h.live, ← apply_batches_append]
      simp
    · rw [append_nil]
      exact hbytes
    · rw [record_count_append]
      exact hseq.trans (add_zero _).symm

/-- Wherever reading stops, the account holds. -/
theorem read_so_far {fuel : ℕ}
    (hstop : readRecords raw fuel st = .finished st' ∨
      ∃ damage, readRecords raw fuel st = .damaged st' damage) :
    ∃ txs' front' part' k', ReadSoFar live raw st' txs' front' part' k' := by
  induction fuel generalizing st txs front part k with
  | zero =>
    rcases hstop with hstop | ⟨damage, hstop⟩
    · cases hstop
      exact ⟨txs, front, part, k, h⟩
    · cases hstop
  | succ fuel ih =>
    rw [readRecords] at hstop
    split at hstop
    · cases hdecode : decodeRecord (raw.drop st.consumed) with
      | ok b seq more n =>
        simp only [hdecode] at hstop
        cases haccept : st.accept b seq more n with
        | ok next =>
          simp only [haccept] at hstop
          obtain ⟨txs', front', part', k', hnext⟩ := h.accept hdecode haccept
          exact ih hnext hstop
        | error why => simp [haccept] at hstop
      | torn | headerUntrusted | payloadBad n =>
        simp only [hdecode] at hstop
        obtain ⟨damage, hstop⟩ := hstop.resolve_left Stop.noConfusion
        cases hstop
        exact ⟨txs, front, part, k, h⟩
      | maxLenExceeded => simp [hdecode] at hstop
    · rcases hstop with hstop | ⟨damage, hstop⟩
      · cases hstop
        exact ⟨txs, front, part, k, h⟩
      · cases hstop

end

/-! ## What a recovery that succeeds has done -/

/-- What the log alone gives, whatever the sidecar says: it was read to its end, or up to a
damaged record with nothing to keep behind it. -/
inductive LogGives (live : Live) (raw : Bytes) : Recovered → Prop
  | finished {st : Progress} (hstop : readLog live raw = .finished st) :
      LogGives live raw
        ⟨st.live, st.cutPoint.1, if st.pending = [] then none else some st.cutPoint.2⟩
  | damaged {st : Progress} {damage : Damage} (hstop : readLog live raw = .damaged st damage)
      (hsearch : searchBehind raw st damage = .ok ()) :
      LogGives live raw ⟨st.live, st.cutPoint.1, some st.cutPoint.2⟩

/-- A replay succeeds exactly on what the specification allows. -/
theorem replay_log_iff :
    replayLog live evidence raw = .ok out ↔ foreignVersion raw = none ∧ LogGives live raw out ∧
        evidence.withholds out.nextSeq = false := by
  unfold replayLog
  cases hversion : foreignVersion raw with
  | some v => simp
  | none =>
    rw [eq_self, true_and]
    cases hstop : readLog live raw with
    | refused why =>
      refine ⟨nofun, fun ⟨hgives, _⟩ => ?_⟩
      cases hgives with
      | finished h | damaged h => exact nomatch hstop.symm.trans h
    | damaged st damage =>
      refine cut_damaged_eq_ok.trans ⟨?_, fun ⟨hgives, hevidence⟩ => ?_⟩
      · rintro ⟨hsearch, hevidence, rfl⟩
        exact ⟨.damaged hstop hsearch, hevidence⟩
      · cases hgives with
        | finished h => exact nomatch hstop.symm.trans h
        | damaged h hsearch =>
          cases hstop.symm.trans h
          exact ⟨hsearch, hevidence, rfl⟩
    | finished st =>
      refine close_log_eq_ok.trans ⟨?_, fun ⟨hgives, hevidence⟩ => ?_⟩
      · rintro ⟨hevidence, rfl⟩
        exact ⟨.finished hstop, hevidence⟩
      · cases hgives with
        | finished h =>
          cases hstop.symm.trans h
          exact ⟨hevidence, rfl⟩
        | damaged h => exact nomatch hstop.symm.trans h

theorem ReadSoFar.front_eq_take (h : ReadSoFar live raw st txs front part k) :
    front = raw.take front.length := by
  have hle : front.length ≤ st.consumed := by
    have hlen := congrArg length h.bytes
    rw [length_take, length_append] at hlen
    omega
  have hbytes := congrArg (take front.length) h.bytes
  rw [take_take, min_eq_left hle, take_left' rfl] at hbytes
  exact hbytes.symm

/-- Recovery applies complete transactions and leaves their bytes, whatever it reads. -/
theorem LogGives.transactions (hlog : d.log = some raw) (h : LogGives live raw out) :
    recoveredLog d out.cut <+: raw ∧ ∃ txs, IsTransactions 0 txs (recoveredLog d out.cut) ∧
        out.live = applyBatches live txs.flatten ∧ out.nextSeq = recordCount txs := by
  have hcut : ∀ offset, recoveredLog d (some offset) = raw.take offset := fun offset => by
    simp [recoveredLog, hlog]
  cases h with
  | @finished st hstop =>
    obtain ⟨txs, front, part, k, hread⟩ :=
      read_so_far (read_so_far_start live raw) (Or.inl hstop)
    have hkept : recoveredLog d (if st.pending = [] then none else some st.cutPoint.2) =
        front := by
      split_ifs with hpending
      · have hend := consumed_of_finished (zero_add _).ge hstop
        have hfront := hread.front_eq_take
        rw [(hread.length_front hpending).2, take_of_length_le hend] at hfront
        rw [hfront]
        exact congrArg (·.getD []) hlog
      · rw [hcut, hread.cutPoint]
        exact hread.front_eq_take.symm
    rw [hkept]
    exact ⟨hread.front_eq_take ▸ take_prefix _ _, txs, hread.done, hread.live,
      by rw [hread.cutPoint]⟩
  | @damaged st damage hstop hsearch =>
    obtain ⟨txs, front, part, k, hread⟩ :=
      read_so_far (read_so_far_start live raw) (Or.inr ⟨damage, hstop⟩)
    have hkept : recoveredLog d (some st.cutPoint.2) = front := by
      rw [hcut, hread.cutPoint]
      exact hread.front_eq_take.symm
    rw [hkept]
    exact ⟨hread.front_eq_take ▸ take_prefix _ _, txs, hread.done, hread.live,
      by rw [hread.cutPoint]⟩

theorem replay_whole (live : Live) (hlog : IsTransactions 0 txs log)
    (hversion : foreignVersion log = none)
    (hevidence : evidence.withholds (recordCount txs) = false) :
    replayLog live evidence log = .ok ⟨applyBatches live txs.flatten, recordCount txs, none⟩ := by
  have hraw : log.drop (start live).consumed = log ++ [] := by simp [start]
  obtain ⟨fuel, st, hread, henough, hlive, hpending, hconsumed, hseq⟩ :=
    read_transactions hlog hraw (zero_add _).ge rfl
  have hseq : st.expectedSeq = recordCount txs := hseq.trans (zero_add _)
  have hfinished : readRecords log fuel st = .finished st := by
    cases fuel with
    | zero => rfl
    | succ fuel => rw [readRecords, if_neg (by omega)]
  unfold replayLog readLog
  rw [hversion, hread, hfinished]
  simp only [closeLog, if_pos hpending, checkAccounted, hseq, hevidence, hlive]
  rfl

/-! ## Opening -/

/-- The sidecar a directory is opened with; one that does not exist is created. -/
def sidecarFile (d : Disk) : Bytes := d.commits.getD (List.replicate commitsFileLen 0)

/-- What opening a directory does with what recovery found in it. -/
structure OpensWith (compactAfterBytes : ℕ) (d : Disk) (out : Recovered) (s : Session) :
    Prop where
  opens : openStore compactAfterBytes d = .ok s
  live : s.memory.live = out.live
  nextSeq : s.memory.nextSeq = out.nextSeq
  snapshot : s.disk.snapshot = d.snapshot
  log : s.disk.log = some (recoveredLog d out.cut)
  commits : s.disk.commits = some (sidecarFile d) ∨ s.disk.commits = some (writeAt (sidecarFile d)
      (nextCommitSlotOffset ((readCommitEvidence d.commits).counter + 1))
      (encodeCommitSlot ((readCommitEvidence d.commits).counter + 1) out.nextSeq))

theorem recover_log_iff (hlog : d.log = some raw) : recoverLog base d = .ok out ↔
      replayLog base (readCommitEvidence d.commits) raw = .ok out := by
  simp only [recoverLog, hlog, map_error_eq_ok]

theorem opens_with (hbase : loadSnapshot d.snapshot = .ok base)
    (hout : recoverLog base d = .ok out) (compactAfterBytes : ℕ) :
    ∃ s, OpensWith compactAfterBytes d out s := by
  have hopen : openStore compactAfterBytes d = openStore compactAfterBytes d := rfl
  conv_rhs at hopen => simp only [openStore, hbase, bind, Except.bind, hout]
  split at hopen
  · exact ⟨_, hopen, rfl, rfl, rfl, rfl, Or.inr rfl⟩
  · exact ⟨_, hopen, rfl, rfl, rfl, rfl, Or.inl rfl⟩

/-- A store that opens has recovered its log. -/
theorem recovered_of_opens (h : openStore compactAfterBytes d = .ok s) :
    ∃ base out, loadSnapshot d.snapshot = .ok base ∧ recoverLog base d = .ok out ∧
      OpensWith compactAfterBytes d out s := by
  cases hbase : loadSnapshot d.snapshot with
  | error why =>
    simp only [openStore, hbase, bind, Except.bind] at h
    cases h
  | ok base =>
    cases hout : recoverLog base d with
    | error why =>
      simp only [openStore, hbase, bind, Except.bind, hout] at h
      cases h
    | ok out =>
      obtain ⟨s', hs'⟩ := opens_with hbase hout compactAfterBytes
      cases h.symm.trans hs'.opens
      exact ⟨base, out, rfl, hout, hs'⟩

theorem read_sidecar_file (d : Disk) :
    readCommitEvidence (some (sidecarFile d)) = readCommitEvidence d.commits := by
  unfold sidecarFile
  cases d.commits with
  | none => decide +kernel
  | some file => rfl

/-- The sidecar is absent, empty or holds at least its first slot. -/
def SidecarWhole (d : Disk) : Prop := ∀ file, d.commits = some file → SlotsOrEmpty file

theorem SidecarWhole.file (h : SidecarWhole d) : SlotsOrEmpty (sidecarFile d) := by
  unfold sidecarFile
  cases hcommits : d.commits with
  | none =>
    refine Or.inr ?_
    rw [Option.getD_none, length_replicate]
    decide
  | some file => exact h file hcommits

/-- Opening leaves evidence that does not withhold what recovery kept. -/
theorem OpensWith.not_withholds (h : OpensWith compactAfterBytes d out s)
    (hwhole : SidecarWhole d) (hroom : (readCommitEvidence d.commits).counter.toNat + 1 < 2 ^ 64)
    (hevidence : (readCommitEvidence d.commits).withholds out.nextSeq = false) :
    (readCommitEvidence s.disk.commits).withholds out.nextSeq = false := by
  rcases h.commits with hsame | hwritten
  · rw [hsame, read_sidecar_file]
    exact hevidence
  · rw [hwritten, read_written hwhole.file (by rw [read_sidecar_file]) hroom]
    exact not_withholds_of_slot _ (UInt64.le_refl _)

/-- Recovery applies whole transactions and is idempotent. Whatever the log and the sidecar hold, a
recovery that succeeds has applied complete transactions in sequence and leaves exactly their bytes;
and opening the directory again gives the same view and the same next sequence and cuts nothing, if
the sidecar is absent, empty or holds its first slot and its counter is not the last one. -/
theorem recovery_idempotent {d : Disk} {raw : Bytes} {base : Live} {out : Recovered}
    (hlog : d.log = some raw) (hbase : loadSnapshot d.snapshot = .ok base)
    (hreplay : replayLog base (readCommitEvidence d.commits) raw = .ok out)
    (compactAfterBytes : ℕ) :
    ∃ txs kept s, kept <+: raw ∧ IsTransactions 0 txs kept ∧
      out.live = applyBatches base txs.flatten ∧ out.nextSeq = recordCount txs ∧
      openStore compactAfterBytes d = .ok s ∧ s.memory.live = out.live ∧
      s.memory.nextSeq = out.nextSeq ∧ s.disk.log = some kept ∧
      (SidecarWhole d → (readCommitEvidence d.commits).counter.toNat + 1 < 2 ^ 64 →
        replayLog base (readCommitEvidence s.disk.commits) kept =
          .ok ⟨out.live, out.nextSeq, none⟩ ∧
        ∃ again, openStore compactAfterBytes s.disk = .ok again ∧ again.memory.live = out.live ∧
          again.memory.nextSeq = out.nextSeq ∧ again.disk.log = some kept) := by
  obtain ⟨hversion, hgives, hevidence⟩ := replay_log_iff.mp hreplay
  obtain ⟨hfront, txs, htxs, hlive, hseq⟩ := hgives.transactions hlog
  obtain ⟨s, hs⟩ := opens_with hbase ((recover_log_iff hlog).mpr hreplay) compactAfterBytes
  refine ⟨txs, recoveredLog d out.cut, s, hfront, htxs, hlive, hseq, hs.opens, hs.live, hs.nextSeq,
    hs.log, fun hwhole hroom => ?_⟩
  -- the second recovery reads the transactions that the first one kept
  have hagain := replay_whole base htxs (foreign_version_of_take hfront hversion)
    (hseq ▸ hs.not_withholds hwhole hroom hevidence)
  rw [← hlive, ← hseq] at hagain
  obtain ⟨again, hs'⟩ := opens_with (hs.snapshot ▸ hbase) ((recover_log_iff hs.log).mpr hagain)
    compactAfterBytes
  refine ⟨hagain, again, hs'.opens, hs'.live, hs'.nextSeq, ?_⟩
  rw [hs'.log]
  exact congrArg (some <| ·.getD []) hs.log

namespace Sample

/-- A record that deletes the empty key, as a transaction of its own. -/
def deletion (seq : UInt64) : Bytes := frameBytes [2, 0, 0, 0, 0] seq 0

/-- A directory whose log ends inside its second record. -/
def tornDisk : Disk := ⟨none, none, some (deletion 0 ++ (deletion 1).take 10), none⟩

/-- A directory with one record, and a sidecar whose slot with the last counter stands in front of
an older one that names sequence 99. -/
def forgedDisk : Disk :=
  ⟨none, none, some (deletion 0),
    some (encodeCommitSlot (2 ^ 64 - 1) 0 ++ (List.replicate 480 0 ++ encodeCommitSlot 5 100))⟩

end Sample

open Sample in
/-- The torn record is cut off once. -/
theorem torn_disk_idempotent :
    replayLog FinMap.empty .absent (deletion 0 ++ (deletion 1).take 10) =
        .ok ⟨FinMap.empty, 1, some 37⟩ ∧
      ∃ txs kept s again, kept <+: deletion 0 ++ (deletion 1).take 10 ∧
        IsTransactions 0 txs kept ∧ 1 = recordCount txs ∧ openStore 0 tornDisk = .ok s ∧
        s.memory.nextSeq = 1 ∧ s.disk.log = some kept ∧ openStore 0 s.disk = .ok again ∧
        again.memory.nextSeq = 1 ∧ again.disk.log = some kept := by
  have hreplay : replayLog empty .absent (deletion 0 ++ (deletion 1).take 10) =
      .ok ⟨empty, 1, some 37⟩ := by decide +kernel
  have hlog : tornDisk.log = some (deletion 0 ++ (deletion 1).take 10) := rfl
  have hwhole : SidecarWhole tornDisk := fun file hfile => nomatch hfile
  obtain ⟨txs, kept, s, hfront, htxs, -, hcount, hopen, -, hseq, hkept, hagain⟩ :=
    recovery_idempotent hlog rfl hreplay 0
  obtain ⟨-, again, hreopen, -, hseq', hkept'⟩ := hagain hwhole (by decide)
  exact ⟨hreplay, txs, kept, s, again, hfront, htxs, hcount, hopen, hseq, hkept, hreopen, hseq',
    hkept'⟩

deriving instance DecidableEq for Disk, Memory, Session

open Sample in
/-- With the last counter in the wrong slot, the store that recovery opened does not open again:
the slot it writes wraps to counter zero and the older slot is read. -/
theorem forged_counter_locks_out :
    replayLog FinMap.empty (readCommitEvidence forgedDisk.commits) (deletion 0) =
        .ok ⟨FinMap.empty, 1, none⟩ ∧
      ∃ s, openStore 0 forgedDisk = .ok s ∧
        openStore 0 s.disk = .error (.log (.commitGone 1 99)) := by
  have hreplay : replayLog empty (readCommitEvidence forgedDisk.commits) (deletion 0) =
      .ok ⟨empty, 1, none⟩ := by decide +kernel
  have hlog : forgedDisk.log = some (deletion 0) := rfl
  obtain ⟨s, hs⟩ := opens_with rfl ((recover_log_iff hlog).mpr hreplay) 0
  have hagain : (openStore 0 forgedDisk >>= fun s => openStore 0 s.disk) =
      .error (.log (.commitGone 1 99)) := by decide +kernel
  rw [hs.opens] at hagain
  exact ⟨hreplay, s, hs.opens, hagain⟩

/-! ## Recovery without the sidecar -/

theorem evidence_accounted {compactAfterBytes : ℕ} {d : Disk} {raw : Bytes} {s : Session}
    (hlog : d.log = some raw) (hopen : openStore compactAfterBytes d = .ok s)
    (hverified : (readCommitEvidence d.commits).verified = true)
    (hhas : (readCommitEvidence d.commits).has = true) :
    (readCommitEvidence d.commits).high < s.memory.nextSeq := by
  obtain ⟨base, out, hbase, hout, hs⟩ := recovered_of_opens hopen
  have hevidence := (replay_log_iff.mp ((recover_log_iff hlog).mp hout)).2.2
  rw [CommitEvidence.withholds, hverified, hhas, Bool.true_and, Bool.true_and,
    decide_eq_false_iff_not, UInt64.not_le] at hevidence
  rw [hs.nextSeq]
  exact hevidence

/-- The sidecar can only refuse. Opening a directory gives the view, the next sequence and the log
that opening it without a sidecar gives, or it is refused; and where it succeeds over a log, every
sequence that verified evidence names lies below the next one. -/
theorem sidecar_only_refuses (compactAfterBytes : ℕ) (d : Disk) :
    ((∃ why, openStore compactAfterBytes d = .error why) ∨
      ∃ s s', openStore compactAfterBytes d = .ok s ∧
        openStore compactAfterBytes { d with commits := none } = .ok s' ∧
        s.memory.live = s'.memory.live ∧ s.memory.nextSeq = s'.memory.nextSeq ∧
        s.disk.log = s'.disk.log) ∧
    ∀ raw s, d.log = some raw → openStore compactAfterBytes d = .ok s →
      (readCommitEvidence d.commits).verified = true → (readCommitEvidence d.commits).has = true →
      (readCommitEvidence d.commits).high < s.memory.nextSeq := by
  constructor
  · cases hopen : openStore compactAfterBytes d with
    | error why => exact Or.inl ⟨why, rfl⟩
    | ok s =>
      right
      obtain ⟨base, out, hbase, hout, hs⟩ := recovered_of_opens hopen
      -- recovery gives the same without the evidence
      have hout' : recoverLog base { d with commits := none } = .ok out := by
        cases hlog : d.log with
        | none => simpa [recoverLog, hlog] using hout
        | some raw =>
          obtain ⟨hversion, hgives, -⟩ := replay_log_iff.mp ((recover_log_iff hlog).mp hout)
          rw [← hlog]
          exact (recover_log_iff (d := { d with commits := none }) hlog).mpr
            (replay_log_iff.mpr ⟨hversion, hgives, rfl⟩)
      obtain ⟨s', hs'⟩ := opens_with (d := { d with commits := none }) hbase hout'
        compactAfterBytes
      exact ⟨s, s', rfl, hs'.opens, hs.live.trans hs'.live.symm, hs.nextSeq.trans hs'.nextSeq.symm,
        hs.log.trans hs'.log.symm⟩
  · intro raw s hlog hopen hverified hhas
    exact evidence_accounted hlog hopen hverified hhas

namespace Sample

/-- A directory whose sidecar names the one record of its log. -/
def namedDisk : Disk := ⟨none, none, some (deletion 0), some (encodeCommitSlot 2 1)⟩

end Sample

open Sample in
/-- Evidence of the one record of a log lies below the next sequence. -/
theorem named_record_accounted :
    ∃ s, openStore 0 namedDisk = .ok s ∧
      readCommitEvidence namedDisk.commits = ⟨true, true, 0, 2⟩ ∧ 0 < s.memory.nextSeq := by
  have hread : readCommitEvidence namedDisk.commits = ⟨true, true, 0, 2⟩ := by decide +kernel
  have hreplay : replayLog empty (readCommitEvidence namedDisk.commits) (deletion 0) =
      .ok ⟨empty, 1, none⟩ := by decide +kernel
  have hlog : namedDisk.log = some (deletion 0) := rfl
  obtain ⟨s, hs⟩ := opens_with rfl ((recover_log_iff hlog).mpr hreplay) 0
  have hlt := (sidecar_only_refuses 0 namedDisk).2 (deletion 0) s hlog hs.opens
  rw [hread] at hlt
  exact ⟨s, hs.opens, hread, hlt rfl rfl⟩

end Zycord.Storage
