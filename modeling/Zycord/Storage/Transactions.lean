import Zycord.Storage.Store

/-!
# Logs of whole transactions

What recovery reads from a log that this code wrote: whole transactions in sequence, and possibly
the first bytes of one more. `replay_transactions` says that the whole transactions are applied,
the rest is cut off, and the next sequence is the one behind the last whole transaction.
-/

namespace Zycord.Storage

open Except Nat Progress UInt32 UInt64 List

/-! ## Encoded groups -/

variable {seq : UInt64} {b : Batch} {bs rest : List Batch} {records : List Bytes}
  {log raw tail : Bytes} {k n fuel : ℕ} {st st' : Progress} {more : UInt32}
  {txs : List (List Batch)}

theorem encode_parts_cons :
    encodeParts seq (b :: rest) = .ok records ↔
      ∃ record later, encodeRecord b seq (ofNat rest.length) = .ok record ∧
        encodeParts (seq + 1) rest = .ok later ∧ records = record :: later := by
  simp only [encodeParts, bind_eq_ok, ok.injEq]
  constructor
  · rintro ⟨record, hrecord, later, hlater, rfl⟩
    exact ⟨record, later, hrecord, hlater, rfl⟩
  · rintro ⟨record, later, hrecord, hlater, rfl⟩
    exact ⟨record, hrecord, later, hlater, rfl⟩

theorem fits_of_encode_parts (h : encodeParts seq bs = .ok records) :
    ∀ b ∈ bs, ∀ m ∈ b, m.Fits := by
  induction bs generalizing seq records with
  | nil => simp
  | cons b rest ih =>
    obtain ⟨record, later, hrecord, hlater, -⟩ := encode_parts_cons.mp h
    exact forall_mem_cons.mpr ⟨fits_of_batch_size (encode_record_eq_ok.mp hrecord).1, ih hlater⟩

theorem magic_of_encode_parts (hne : bs ≠ []) (h : encodeParts seq bs = .ok records) :
    ∃ rest, records.flatten = recordMagic ++ rest := by
  obtain ⟨b, bs, rfl⟩ := exists_cons_of_ne_nil hne
  obtain ⟨record, later, hrecord, -, rfl⟩ := encode_parts_cons.mp h
  obtain ⟨-, -, rfl⟩ := encode_record_eq_ok.mp hrecord
  exact ⟨_, rfl⟩

/-! ## Transactions in bytes -/

/-- The records of batches that are intact and in sequence, each of them announcing the ones behind
it and `k` more. -/
def IsParts : UInt64 → ℕ → List Batch → Bytes → Prop
  | _, _, [], raw => raw = []
  | seq, k, b :: rest, raw =>
    ∃ record tail more, decodeRecord record = .ok b seq more record.length ∧
      more.toNat = rest.length + k ∧ IsParts (seq + 1) k rest tail ∧ raw = record ++ tail

/-- Complete transactions, one behind the other, from a sequence on: the last record of each
announces no more. -/
def IsTransactions : UInt64 → List (List Batch) → Bytes → Prop
  | _, [], raw => raw = []
  | seq, bs :: later, raw =>
    ∃ front tail, bs ≠ [] ∧ IsParts seq 0 bs front ∧
      IsTransactions (seq + UInt64.ofNat bs.length) later tail ∧ raw = front ++ tail

/-- The number of records of transactions. -/
def recordCount (txs : List (List Batch)) : UInt64 := UInt64.ofNat txs.flatten.length

theorem record_count_cons (bs : List Batch) (txs : List (List Batch)) :
    recordCount (bs :: txs) = UInt64.ofNat bs.length + recordCount txs := by
  rw [recordCount, flatten_cons, length_append, UInt64.ofNat_add]
  rfl

theorem record_count_append (txs : List (List Batch)) (bs : List Batch) :
    recordCount (txs ++ [bs]) = recordCount txs + UInt64.ofNat bs.length := by
  simp [recordCount]

theorem is_parts_of_encode (h : encodeParts seq bs = .ok records) (hlen : bs.length ≤ 2 ^ 32) :
    IsParts seq 0 bs records.flatten := by
  induction bs generalizing seq records with
  | nil =>
    cases h
    rfl
  | cons b rest ih =>
    obtain ⟨record, later, hrecord, hlater, rfl⟩ := encode_parts_cons.mp h
    rw [length_cons] at hlen
    have hdecode := decode_encode_record hrecord []
    rw [append_nil] at hdecode
    have hlt : rest.length < 2 ^ 32 := by omega
    exact ⟨record, later.flatten, _, hdecode, toNat_ofNat_of_lt' hlt,
      ih hlater (by omega), by rw [flatten_cons]⟩

/-! ## Reading one record -/

/-- Reading that has rounds left for every byte. -/
def Enough (raw : Bytes) (fuel : ℕ) (st : Progress) : Prop := raw.length ≤ st.consumed + fuel

theorem read_record {batch : Batch} (hfuel : Enough raw fuel st)
    (hdecode : decodeRecord (raw.drop st.consumed) = .ok batch seq more n)
    (haccept : st.accept batch seq more n = .ok st') (hn : st'.consumed = st.consumed + n) :
    ∃ fuel', readRecords raw fuel st = readRecords raw fuel' st' ∧ Enough raw fuel' st' := by
  obtain ⟨length, -, -, rfl, hspan⟩ := decode_eq_ok hdecode
  rw [length_drop] at hspan
  have hpos : 0 < recordHeaderLen := by decide
  unfold Enough at hfuel
  obtain ⟨fuel, rfl⟩ : ∃ f, fuel = f + 1 := exists_eq_succ_of_ne_zero (by omega)
  refine ⟨fuel, ?_, ?_⟩
  · rw [readRecords, if_pos (by omega)]
    simp only [hdecode, haccept]
  · unfold Enough
    omega

/-- Reading that finishes has consumed the log. -/
theorem consumed_of_finished (hfuel : Enough raw fuel st)
    (h : readRecords raw fuel st = .finished st') : raw.length ≤ st'.consumed := by
  induction fuel generalizing st with
  | zero =>
    cases h
    exact hfuel
  | succ fuel ih =>
    rw [readRecords] at h
    split at h
    · split at h
      · rename_i hlt batch seq more n hdecode
        split at h
        · rename_i next haccept
          refine ih ?_ h
          -- an accepted record moves forward
          obtain ⟨length, -, -, rfl, -⟩ := decode_eq_ok hdecode
          have hconsumed : next.consumed = st.consumed + (recordHeaderLen + length.toNat) := by
            unfold accept at haccept
            split_ifs at haccept <;> cases haccept
            · simp only [hold]
            · rfl
          have hpos : 0 < recordHeaderLen := by decide
          unfold Enough at hfuel ⊢
          omega
        · cases h
      all_goals cases h
    · cases h
      omega

/-! ## Reading one transaction -/

/-- The open group ends where the parts still to come say. -/
def GroupAgrees (st : Progress) (rest : List Batch) : Prop :=
  st.pending ≠ [] → st.groupFinalSeq = st.expectedSeq + UInt64.ofNat (rest.length - 1)

theorem add_length_cons (seq : UInt64) (b : Batch) (rest : List Batch) :
    seq + UInt64.ofNat (b :: rest).length = seq + 1 + UInt64.ofNat rest.length := by
  rw [length_cons, UInt64.ofNat_add, UInt64.add_assoc, UInt64.add_comm 1]
  rfl

theorem hold_group (hgroup : st.pending ≠ [] → st.expectedSeq + more.toUInt64 = st.groupFinalSeq) :
    (st.hold b st.expectedSeq more n).live = st.live ∧
      (st.hold b st.expectedSeq more n).groupFinalSeq = st.expectedSeq + more.toUInt64 ∧
      ((st.hold b st.expectedSeq more n).groupSeq, (st.hold b st.expectedSeq more n).groupStart) =
        st.cutPoint := by
  by_cases hpending : st.pending = []
  · simp [hold, cutPoint, hpending]
  · simp [hold, cutPoint, hpending, hgroup hpending]

/-- Reading a part of a transaction that goes on behind it. -/
theorem read_part {record : Bytes} (hne : rest ≠ []) (hlen : rest.length < 2 ^ 32)
    (hgroup : GroupAgrees st (b :: rest)) (hfuel : Enough raw fuel st)
    (hraw : raw.drop st.consumed = record ++ tail)
    (hdecode : decodeRecord (raw.drop st.consumed) =
      .ok b st.expectedSeq (ofNat rest.length) record.length) :
    ∃ fuel' st', readRecords raw fuel st = readRecords raw fuel' st' ∧ Enough raw fuel' st' ∧
      GroupAgrees st' rest ∧ raw.drop st'.consumed = tail ∧ st'.live = st.live ∧
      st'.cutPoint = st.cutPoint ∧ st'.pending = st.pending ++ [b] ∧
      st'.consumed = st.consumed + record.length ∧ st'.expectedSeq = st.expectedSeq + 1 := by
  have hmore : 0 < UInt32.ofNat rest.length := by
    rw [UInt32.lt_iff_toNat_lt, UInt32.toNat_ofNat_of_lt' hlen]
    exact length_pos_of_ne_nil hne
  have hfinal : st.pending ≠ [] →
      st.expectedSeq + (UInt32.ofNat rest.length).toUInt64 = st.groupFinalSeq := by
    intro hpending
    rw [hgroup hpending, UInt32.toUInt64_ofNat' hlen]
    rfl
  have haccept : st.accept b st.expectedSeq (ofNat rest.length) record.length =
      .ok (st.hold b st.expectedSeq (ofNat rest.length) record.length) := by
    unfold accept
    rw [if_neg (by simp), if_neg (by rintro ⟨hpending, hneq⟩; exact hneq (hfinal hpending)),
      if_pos hmore]
  obtain ⟨fuel', hread, henough⟩ := read_record hfuel hdecode haccept rfl
  obtain ⟨hlive, hgroup', hcut⟩ := hold_group (b := b) (n := record.length) hfinal
  refine ⟨fuel', _, hread, henough, fun _ => ?_, ?_, hlive, (if_neg (by simp [hold])).trans hcut,
    rfl, rfl, rfl⟩
  · obtain ⟨b', rest, rfl⟩ := exists_cons_of_ne_nil hne
    rw [hgroup', UInt32.toUInt64_ofNat' hlen]
    exact add_length_cons _ _ _
  · show raw.drop (st.consumed + record.length) = tail
    rw [← drop_drop, hraw]
    exact drop_left' rfl

theorem accept_last (hgroup : GroupAgrees st [b]) :
    st.accept b st.expectedSeq (ofNat ([] : List Batch).length) n = .ok (st.complete b n) := by
  unfold accept
  rw [if_neg (by simp), if_neg, if_neg (by decide)]
  rintro ⟨hpending, hneq⟩
  refine hneq ?_
  rw [hgroup hpending]
  rfl

/-- What reading a whole transaction does. -/
structure ReadWhole (raw : Bytes) (fuel : ℕ) (st : Progress) (bs : List Batch) (n : ℕ) (fuel' : ℕ)
    (st' : Progress) : Prop where
  reads : readRecords raw fuel st = readRecords raw fuel' st'
  enough : Enough raw fuel' st'
  live : st'.live = applyBatches st.live (st.pending ++ bs)
  pending : st'.pending = []
  consumed : st'.consumed = st.consumed + n
  expectedSeq : st'.expectedSeq = st.expectedSeq + UInt64.ofNat bs.length

/-- Reading the parts of a transaction that are still to come, the last one among them. -/
theorem read_parts {front : Bytes} (hne : bs ≠ []) (hparts : IsParts st.expectedSeq 0 bs front)
    (hraw : raw.drop st.consumed = front ++ tail) (hfuel : Enough raw fuel st)
    (hgroup : GroupAgrees st bs) :
    ∃ fuel' st', ReadWhole raw fuel st bs front.length fuel' st' := by
  induction bs generalizing front fuel st with
  | nil => exact absurd rfl hne
  | cons b rest ih =>
    obtain ⟨record, later, more, hrecord, hmore, hlater, rfl⟩ := hparts
    rw [append_assoc] at hraw
    have hlt : rest.length < 2 ^ 32 := by
      have := more.toNat_lt
      omega
    obtain rfl : more = UInt32.ofNat rest.length := by
      rw [← UInt32.toNat_inj, hmore, UInt32.toNat_ofNat_of_lt' hlt]
      rfl
    have hdecode := (decode_append le_rfl (later ++ tail)).mpr hrecord
    rw [← hraw] at hdecode
    by_cases hrest : rest = []
    · subst hrest
      cases hlater
      obtain ⟨fuel', hread, henough⟩ := read_record hfuel hdecode (accept_last hgroup) rfl
      exact ⟨fuel', _, hread, henough, rfl, rfl, by simp [complete], rfl⟩
    · obtain ⟨fuel₁, st₁, hread, henough, hagrees, hraw₁, hlive, -, hpending, hconsumed, hseq⟩ :=
        read_part hrest hlt hgroup hfuel hraw hdecode
      rw [← hseq] at hlater
      obtain ⟨fuel', st', h⟩ := ih hrest hlater hraw₁ henough hagrees
      refine ⟨fuel', st', hread.trans h.reads, h.enough, ?_, h.pending, ?_, ?_⟩
      · rw [h.live, hlive, hpending, append_assoc, singleton_append]
      · rw [h.consumed, hconsumed, length_append, add_assoc]
      · rw [h.expectedSeq, hseq, add_length_cons]

/-! ## Reading the first bytes of a transaction -/

/-- What reading a log that ends inside a transaction does: nothing of the transaction is applied,
and the place to cut stays where it was. -/
structure ReadPiece (raw : Bytes) (fuel : ℕ) (st st' : Progress) : Prop where
  reads : readRecords raw fuel st = .finished st' ∨ readRecords raw fuel st = .damaged st' .torn
  live : st'.live = st.live
  cutPoint : st'.cutPoint = st.cutPoint

theorem read_torn {record : Bytes} (hrecord : encodeRecord b seq more = .ok record)
    (hk : k < record.length) (hraw : raw.drop st.consumed = record.take k)
    (hfuel : Enough raw fuel st) : ReadPiece raw fuel st st := by
  refine ⟨?_, rfl, rfl⟩
  cases fuel with
  | zero => exact Or.inl rfl
  | succ fuel =>
    rw [readRecords]
    split
    · right
      rw [hraw, decode_take_record hrecord hk]
    · exact Or.inl rfl

/-- Reading a transaction of which only the first bytes are there. -/
theorem read_piece (hlen : bs.length ≤ 2 ^ 32)
    (hencode : encodeParts st.expectedSeq bs = .ok records)
    (hraw : raw.drop st.consumed = records.flatten.take k) (hk : k < records.flatten.length)
    (hfuel : Enough raw fuel st) (hgroup : GroupAgrees st bs) :
    ∃ st', ReadPiece raw fuel st st' := by
  induction bs generalizing records fuel st k with
  | nil =>
    cases hencode
    simp at hk
  | cons b rest ih =>
    obtain ⟨record, later, hrecord, hlater, rfl⟩ := encode_parts_cons.mp hencode
    rw [flatten_cons] at hraw hk
    rcases lt_or_ge k record.length with hshort | hlong
    · rw [take_append_of_le_length hshort.le] at hraw
      exact ⟨st, read_torn hrecord hshort hraw hfuel⟩
    · -- the record is there as a whole, and the transaction goes on behind it
      rw [take_append, take_of_length_le hlong] at hraw
      rw [length_append] at hk
      have hrest : rest ≠ [] := by
        intro hnil
        subst hnil
        cases hlater
        simp only [flatten_nil, length_nil] at hk
        omega
      have hlt : rest.length < 2 ^ 32 := by
        simp only [length_cons] at hlen
        omega
      have hdecode := decode_encode_record hrecord (later.flatten.take (k - record.length))
      rw [← hraw] at hdecode
      obtain ⟨fuel₁, st₁, hread, henough, hagrees, hraw₁, hlive, hcut, -, -, hseq⟩ :=
        read_part hrest hlt hgroup hfuel hraw hdecode
      rw [← hseq] at hlater
      obtain ⟨st', h⟩ := ih hlt.le hlater hraw₁ (by omega) henough hagrees
      exact ⟨st', by rw [hread]; exact h.reads, h.live.trans hlive, h.cutPoint.trans hcut⟩

/-! ## Whole logs -/

/-- The bytes of whole transactions, from a sequence on. -/
def IsLog : UInt64 → List (List Batch) → Bytes → Prop
  | _, [], raw => raw = []
  | seq, bs :: later, raw =>
    ∃ records tail, bs ≠ [] ∧ bs.length ≤ 2 ^ 32 ∧ encodeParts seq bs = .ok records ∧
      IsLog (seq + UInt64.ofNat bs.length) later tail ∧ raw = records.flatten ++ tail

/-- The first bytes of a transaction, never all of them. -/
def Unfinished (seq : UInt64) (tail : Bytes) : Prop :=
  ∃ bs records k, bs.length ≤ 2 ^ 32 ∧ encodeParts seq bs = .ok records ∧
    k < records.flatten.length ∧ tail = records.flatten.take k

theorem unfinished_nil (seq : UInt64) : Unfinished seq [] := by
  obtain ⟨record, hrecord⟩ : ∃ record, encodeRecord [] seq 0 = .ok record :=
    ⟨_, encode_record_eq_ok.mpr ⟨by decide, by decide, rfl⟩⟩
  have hlen : 0 < record.length := by
    obtain ⟨-, -, rfl⟩ := encode_record_eq_ok.mp hrecord
    rw [length_frame_bytes]
    exact Nat.add_pos_left (by decide) _
  refine ⟨[[]], [record], 0, by decide, encode_parts_cons.mpr ⟨record, [], hrecord, rfl, rfl⟩, ?_,
    rfl⟩
  simpa using hlen

theorem IsLog.isTransactions (h : IsLog seq txs log) : IsTransactions seq txs log := by
  induction txs generalizing seq log with
  | nil => exact h
  | cons bs later ih =>
    obtain ⟨records, tail, hne, hlen, hencode, hlater, rfl⟩ := h
    exact ⟨records.flatten, tail, hne, is_parts_of_encode hencode hlen, ih hlater, rfl⟩

/-- Appending a transaction's records extends the log by it. -/
theorem IsLog.append (h : IsLog seq txs raw) (hne : bs ≠ []) (hlen : bs.length ≤ 2 ^ 32)
    (hencode : encodeParts (seq + recordCount txs) bs = .ok records) :
    IsLog seq (txs ++ [bs]) (raw ++ records.flatten) := by
  induction txs generalizing seq raw with
  | nil =>
    cases h
    rw [show seq + recordCount [] = seq from add_zero seq] at hencode
    exact ⟨records, [], hne, hlen, hencode, rfl, by simp⟩
  | cons tx later ih =>
    obtain ⟨first, tail, htx, hfirst, hparts, htail, rfl⟩ := h
    rw [record_count_cons, ← add_assoc] at hencode
    refine ⟨first, tail ++ records.flatten, htx, hfirst, hparts, ih htail hencode, ?_⟩
    rw [append_assoc]

/-- Whole transactions are read and applied in turn. -/
theorem read_transactions (hlog : IsTransactions st.expectedSeq txs log)
    (hraw : raw.drop st.consumed = log ++ tail) (hfuel : Enough raw fuel st)
    (hpending : st.pending = []) :
    ∃ fuel' st', readRecords raw fuel st = readRecords raw fuel' st' ∧ Enough raw fuel' st' ∧
      st'.live = applyBatches st.live txs.flatten ∧ st'.pending = [] ∧
      st'.consumed = st.consumed + log.length ∧
      st'.expectedSeq = st.expectedSeq + recordCount txs := by
  induction txs generalizing log fuel st with
  | nil =>
    cases hlog
    exact ⟨fuel, st, rfl, hfuel, rfl, hpending, rfl, (add_zero _).symm⟩
  | cons bs later ih =>
    obtain ⟨front, rest, hne, hparts, hlater, rfl⟩ := hlog
    rw [append_assoc] at hraw
    obtain ⟨fuel₁, st₁, h₁⟩ := read_parts hne hparts hraw hfuel
      fun hne => absurd hpending hne
    have hraw₁ : raw.drop st₁.consumed = rest ++ tail := by
      rw [h₁.consumed, ← drop_drop, hraw]
      exact drop_left' rfl
    rw [← h₁.expectedSeq] at hlater
    obtain ⟨fuel', st', hread, henough, hlive, hpend, hconsumed, hseq⟩ :=
      ih hlater hraw₁ h₁.enough h₁.pending
    refine ⟨fuel', st', h₁.reads.trans hread, henough, ?_, hpend, ?_, ?_⟩
    · rw [hlive, h₁.live, hpending, nil_append, flatten_cons, apply_batches_append]
    · rw [hconsumed, h₁.consumed, length_append, add_assoc]
    · rw [hseq, h₁.expectedSeq, record_count_cons, add_assoc]

/-! ## Recovery -/

theorem foreign_version_of_take (hpre : log <+: raw) (h : foreignVersion raw = none) :
    foreignVersion log = none := by
  obtain ⟨tail, rfl⟩ := hpre
  unfold foreignVersion at h ⊢
  split_ifs with hmagic
  · cases hbyte : log[3]? with
    | none => rfl
    | some v =>
      have hlen := (List.getElem?_eq_some_iff.mp hbyte).1
      rw [take_append_of_le_length (by omega), if_pos hmagic, getElem?_append_left hlen, hbyte] at h
      exact h
  · rfl

/-- A log starts with the magic, as far as it goes. -/
theorem magic_of_log (hlog : IsLog seq txs log) (htail : Unfinished (seq + recordCount txs) tail) :
    ∃ rest, log ++ tail <+: recordMagic ++ rest := by
  cases txs with
  | nil =>
    cases hlog
    obtain ⟨bs, records, k, hlen, hencode, hk, rfl⟩ := htail
    have hne : bs ≠ [] := by
      rintro rfl
      cases hencode
      simp at hk
    obtain ⟨rest, hrest⟩ := magic_of_encode_parts hne hencode
    exact ⟨rest, by rw [← hrest]; exact take_prefix _ _⟩
  | cons bs later =>
    obtain ⟨records, more, hne, -, hencode, -, rfl⟩ := hlog
    obtain ⟨rest, hrest⟩ := magic_of_encode_parts hne hencode
    refine ⟨rest ++ (more ++ tail), ?_⟩
    rw [hrest]
    simp

/-- Recovering a log of whole transactions with the first bytes of another behind them: the whole
transactions are applied and stay in the log, the rest is cut off. -/
theorem replay_transactions (live : Live) {evidence : CommitEvidence} (hlog : IsLog 0 txs log)
    (htail : Unfinished (recordCount txs) tail)
    (hevidence : evidence.withholds (recordCount txs) = false) :
    ∃ cut, replayLog live evidence (log ++ tail) =
        .ok ⟨applyBatches live txs.flatten, recordCount txs, cut⟩ ∧
      (cut = none → tail = []) ∧ ∀ offset, cut = some offset → offset = log.length := by
  have hversion : foreignVersion (log ++ tail) = none := by
    obtain ⟨rest, hrest⟩ := magic_of_log hlog (by rwa [zero_add])
    exact foreign_version_of_take hrest rfl
  -- the whole transactions
  have hstart : Enough (log ++ tail) (log ++ tail).length (.start live) := (zero_add _).symm.le
  obtain ⟨fuel, st, hread, henough, hlive, hpending, hconsumed, hseq⟩ :=
    read_transactions hlog.isTransactions (drop_zero) hstart rfl
  have hconsumed : st.consumed = log.length := hconsumed.trans (zero_add _)
  have hseq : st.expectedSeq = recordCount txs := hseq.trans (zero_add _)
  -- the bytes behind them
  obtain ⟨bs, records, k, hlen, hencode, hk, rfl⟩ := htail
  have hraw : (log ++ records.flatten.take k).drop st.consumed = records.flatten.take k := by
    rw [hconsumed]
    exact drop_left' rfl
  obtain ⟨st', hpiece⟩ := read_piece hlen (hseq ▸ hencode) hraw hk henough
    fun hne => absurd hpending hne
  have hcut : st'.cutPoint = (recordCount txs, log.length) := by
    rw [hpiece.cutPoint, cutPoint, if_pos hpending, hseq, hconsumed]
  have hlive' : st'.live = applyBatches live txs.flatten := hpiece.live.trans hlive
  unfold replayLog readLog
  rw [hversion, hread]
  rcases hpiece.reads with hstop | hstop
  · have hend := consumed_of_finished henough hstop
    rw [hstop]
    refine ⟨_, close_log_eq_ok.mpr ⟨hcut ▸ hevidence, by rw [hlive', hcut]⟩, ?_⟩
    by_cases hopen : st'.pending = []
    · rw [cutPoint, if_pos hopen, Prod.mk.injEq] at hcut
      rw [length_append] at hend
      rw [if_pos hopen]
      exact ⟨fun _ => length_eq_zero_iff.mp (by omega), nofun⟩
    · rw [if_neg hopen]
      exact ⟨nofun, fun _ h => (Option.some.inj h).symm⟩
  · rw [hstop]
    exact ⟨_, cut_damaged_eq_ok.mpr ⟨rfl, hcut ▸ hevidence, by rw [hlive', hcut]⟩, by simp, by simp⟩

end Zycord.Storage
