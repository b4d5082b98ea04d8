import Zycord.Storage.Record

/-!
# The bounded search for a later record

`findNextRecordWithin`: when a record of the log is damaged, recovery searches the bytes behind it
for an intact record, as evidence that the writer went on. The search is bounded by a budget of
checksummed bytes, and running out of it is an outcome of its own. `nothing_found` says that the
search comes back empty only if no piece of the input is such evidence.
-/

namespace Zycord.Storage

/-- What a search established. -/
inductive ScanResult where
  | nothingFound
  | found (offset : ℕ)
  | inconclusive
deriving DecidableEq

/-- Whether a record claims to be a part of the open group, other than its last: it sits below the
group's commit record and its countdown points at exactly that record. No group is open when the
group's final sequence is zero. -/
def partOfOpenGroup (groupFinalSeq seq : UInt64) (more : UInt32) : Bool :=
  groupFinalSeq != 0 && decide (seq < groupFinalSeq) && more.toUInt64 == groupFinalSeq - seq

/-- What looking at one position of the input comes to: a record that counts, a record or no
record with the bytes it cost to find out, or a budget too small to tell. -/
inductive Probe where
  | hit
  | pass (cost : ℕ)
  | exhausted
deriving DecidableEq

/-- Look at the record at the front. Only a verified header whose span fits costs anything: the
header up to the record checksum and the payload it declares. -/
def probe (minSeq groupFinalSeq : UInt64) (budget : ℕ) (raw : Bytes) : Probe :=
  if recordMagic.isPrefixOf raw then
    match verifyHeader raw with
    | none => .pass 0
    | some h =>
      if h.length.toNat ≤ maxRecordLen ∧ recordHeaderLen + h.length.toNat ≤ raw.length then
        let cost := 28 + h.length.toNat
        if budget < cost then .exhausted
        else
          match decodeRecord raw with
          | .ok _ seq more _ =>
            if minSeq ≤ seq ∧ partOfOpenGroup groupFinalSeq seq more = false then .hit
            else .pass cost
          | _ => .pass cost
      else .pass 0
  else .pass 0

/-- Search position by position, from offset `pos` on. The source jumps from one occurrence of the
magic to the next. -/
def findNextRecordWithin (minSeq groupFinalSeq : UInt64) : ℕ → ℕ → Bytes → ScanResult
  | _, _, [] => .nothingFound
  | pos, budget, b :: rest =>
    if (b :: rest).length < recordHeaderLen then .nothingFound
    else
      match probe minSeq groupFinalSeq budget (b :: rest) with
      | .hit => .found pos
      | .exhausted => .inconclusive
      | .pass cost => findNextRecordWithin minSeq groupFinalSeq (pos + 1) (budget - cost) rest

/-- The budget the boot path spends on a region of `n` bytes. -/
def bootScanBudget (n : ℕ) : ℕ := 2 ^ 30 + 4 * n

/-- Look for a later record, within the budget of a boot. -/
def findNextRecord (raw : Bytes) (minSeq groupFinalSeq : UInt64) : ScanResult :=
  findNextRecordWithin minSeq groupFinalSeq 0 (bootScanBudget raw.length) raw

/-! ## What an empty search proves -/

/-- A later record begins here. -/
def Evidence (minSeq groupFinalSeq : UInt64) (raw : Bytes) : Prop :=
  ∃ batch seq more n, decodeRecord raw = .ok batch seq more n ∧ minSeq ≤ seq ∧
    partOfOpenGroup groupFinalSeq seq more = false

/-- The bytes that a full decode of the record at the front puts through the checksum. -/
def checkedBytes (raw : Bytes) : ℕ :=
  match verifyHeader raw with
  | none => 0
  | some h =>
    if h.length.toNat ≤ maxRecordLen ∧ recordHeaderLen + h.length.toNat ≤ raw.length then
      28 + h.length.toNat
    else 0

/-- The checksummed bytes of the first `n` positions. -/
def checkedBefore : ℕ → Bytes → ℕ
  | 0, _ => 0
  | n + 1, raw => checkedBytes raw + checkedBefore n raw.tail

/-- A search from offset `pos` on is exact: what it finds is the first piece with the property,
what it does not find is nowhere, and it gives up only at a position up to which the pieces, none
of them with the property, take more checksummed bytes than the budget. -/
def ScanResult.Exact (P : Bytes → Prop) (pos budget : ℕ) (raw : Bytes) : ScanResult → Prop
  | found x => ∃ i, x = pos + i ∧ P (raw.drop i) ∧ ∀ j < i, ¬ P (raw.drop j)
  | nothingFound => ∀ i, ¬ P (raw.drop i)
  | inconclusive => ∃ i, budget < checkedBefore (i + 1) raw ∧ ∀ j < i, ¬ P (raw.drop j)

/-- The look at one position, for records whose sequence and countdown count. -/
def probeFor (counts : UInt64 → UInt32 → Bool) (budget : ℕ) (raw : Bytes) : Probe :=
  if recordMagic.isPrefixOf raw then
    match verifyHeader raw with
    | none => .pass 0
    | some h =>
      if h.length.toNat ≤ maxRecordLen ∧ recordHeaderLen + h.length.toNat ≤ raw.length then
        let cost := 28 + h.length.toNat
        if budget < cost then .exhausted
        else
          match decodeRecord raw with
          | .ok _ seq more _ => if counts seq more then .hit else .pass cost
          | _ => .pass cost
      else .pass 0
  else .pass 0

/-- The search for records that count. -/
def scanFor (counts : UInt64 → UInt32 → Bool) : ℕ → ℕ → Bytes → ScanResult
  | _, _, [] => .nothingFound
  | pos, budget, b :: rest =>
    if (b :: rest).length < recordHeaderLen then .nothingFound
    else
      match probeFor counts budget (b :: rest) with
      | .hit => .found pos
      | .exhausted => .inconclusive
      | .pass cost => scanFor counts (pos + 1) (budget - cost) rest

/-- Whether a record is later than what was read. -/
def countsAsLater (minSeq groupFinalSeq seq : UInt64) (more : UInt32) : Bool :=
  decide (minSeq ≤ seq ∧ partOfOpenGroup groupFinalSeq seq more = false)

theorem probe_eq (minSeq groupFinalSeq : UInt64) (budget : ℕ) (raw : Bytes) :
    probe minSeq groupFinalSeq budget raw =
      probeFor (countsAsLater minSeq groupFinalSeq) budget raw := by
  unfold probe probeFor
  simp only [countsAsLater, decide_eq_true_eq]

theorem find_next_record_within_eq (minSeq groupFinalSeq : UInt64) (pos budget : ℕ)
    (raw : Bytes) : findNextRecordWithin minSeq groupFinalSeq pos budget raw =
      scanFor (countsAsLater minSeq groupFinalSeq) pos budget raw := by
  induction raw generalizing pos budget with
  | nil => rfl
  | cons b rest ih => simp only [findNextRecordWithin, scanFor, probe_eq, ih]

section Scanning

variable {counts : UInt64 → UInt32 → Bool}

/-- A record that counts begins here. -/
def Counted (counts : UInt64 → UInt32 → Bool) (raw : Bytes) : Prop :=
  ∃ batch seq more n, decodeRecord raw = .ok batch seq more n ∧ counts seq more = true

variable {raw : Bytes}

/-- What one probe finds and costs. -/
theorem probe_for_spec (counts : UInt64 → UInt32 → Bool) (budget : ℕ) (raw : Bytes) :
    match probeFor counts budget raw with
    | .hit => Counted counts raw
    | .pass cost => ¬ Counted counts raw ∧ cost = checkedBytes raw
    | .exhausted => budget < checkedBytes raw := by
  unfold probeFor checkedBytes
  cases hverify : verifyHeader raw with
  | none =>
    have hnot : ¬ Counted counts raw := by
      rintro ⟨batch, seq, more, n, hdecode, -⟩
      obtain ⟨length, hsome, -⟩ := decode_eq_ok hdecode
      simp [hverify] at hsome
    split_ifs <;> exact ⟨hnot, rfl⟩
  | some h =>
    rw [if_pos (List.isPrefixOf_iff_prefix.mpr (magic_of_verify hverify).2)]
    dsimp only
    split_ifs with hfits hcost
    · exact hcost
    · cases hdecode : decodeRecord raw with
      | ok batch seq more n => cases hcounts : counts seq more <;> simp [Counted, hdecode, hcounts]
      | _ => simp [Counted, hdecode]
    · refine ⟨?_, rfl⟩
      rintro ⟨batch, seq, more, n, hdecode, -⟩
      obtain ⟨length, hsome, hmax, rfl, hspan⟩ := decode_eq_ok hdecode
      cases hverify.symm.trans hsome
      exact hfits ⟨hmax, hspan⟩

theorem not_counted_of_short (h : raw.length < recordHeaderLen) : ¬ Counted counts raw := by
  rintro ⟨batch, seq, more, n, hdecode, -⟩
  rw [decodeRecord, if_pos h] at hdecode
  cases hdecode

theorem ScanResult.Exact.cons {P : Bytes → Prop} {b : UInt8} {pos budget : ℕ} {r : ScanResult}
    (hnot : ¬ P (b :: raw)) (hr : r.Exact P (pos + 1) (budget - checkedBytes (b :: raw)) raw) :
    r.Exact P pos budget (b :: raw) := by
  have hshift : ∀ {i}, (∀ j < i, ¬ P (raw.drop j)) → ∀ j < i + 1, ¬ P ((b :: raw).drop j) := by
    rintro i hbefore (_ | j) hj
    · exact hnot
    · exact hbefore j (Nat.lt_of_succ_lt_succ hj)
  cases r with
  | found x =>
    obtain ⟨i, rfl, hfound, hbefore⟩ := hr
    exact ⟨i + 1, by omega, hfound, hshift hbefore⟩
  | nothingFound => exact fun i => hshift (fun j _ => hr j) i (Nat.lt_succ_self i)
  | inconclusive =>
    obtain ⟨i, hover, hbefore⟩ := hr
    exact ⟨i + 1, by rw [checkedBefore, List.tail_cons]; omega, hshift hbefore⟩

/-- The scan finds the first record that counts, within its budget. -/
theorem scan_exact (counts : UInt64 → UInt32 → Bool) (pos budget : ℕ) (raw : Bytes) :
    (scanFor counts pos budget raw).Exact (Counted counts) pos budget raw := by
  induction raw generalizing pos budget with
  | nil => exact fun i => not_counted_of_short (by simp [recordHeaderLen])
  | cons b rest ih =>
    rw [scanFor]
    split_ifs with hshort
    · exact fun i => not_counted_of_short (lt_of_le_of_lt (by simp) hshort)
    · have hprobe := probe_for_spec counts budget (b :: rest)
      generalize probeFor counts budget (b :: rest) = look at hprobe
      cases look with
      | hit => exact ⟨0, rfl, hprobe, by simp⟩
      | exhausted => exact ⟨0, hprobe, by simp⟩
      | pass cost =>
        obtain ⟨hnot, rfl⟩ := hprobe
        exact (ih _ _).cons hnot

theorem scan_nothing_found {pos budget : ℕ} (h : scanFor counts pos budget raw = .nothingFound)
    (i : ℕ) : ¬ Counted counts (raw.drop i) := by
  have hexact := scan_exact counts pos budget raw
  rw [h] at hexact
  exact hexact i

end Scanning

variable {seq minSeq groupFinalSeq : UInt64} {raw : Bytes} {more : UInt32}

theorem evidence_eq (minSeq groupFinalSeq : UInt64) :
    Evidence minSeq groupFinalSeq = Counted (countsAsLater minSeq groupFinalSeq) := by
  funext raw
  simp only [Evidence, Counted, countsAsLater, decide_eq_true_eq]

/-- A search for a later record that comes back empty has seen every position, and none of them is
evidence. -/
theorem nothing_found {pos budget : ℕ}
    (h : findNextRecordWithin minSeq groupFinalSeq pos budget raw = .nothingFound) (i : ℕ) :
    ¬ Evidence minSeq groupFinalSeq (raw.drop i) := by
  rw [find_next_record_within_eq] at h
  rw [evidence_eq]
  exact scan_nothing_found h i

/-- The bounded search is exact, for every input and every budget. -/
theorem find_next_record_exact (minSeq groupFinalSeq : UInt64) (budget : ℕ) (raw : Bytes) :
    (findNextRecordWithin minSeq groupFinalSeq 0 budget raw).Exact
      (Evidence minSeq groupFinalSeq) 0 budget raw := by
  rw [find_next_record_within_eq, evidence_eq]
  exact scan_exact _ 0 budget raw

theorem part_of_not_evidence {batch : Batch} {n : ℕ} (h : ¬ Evidence minSeq groupFinalSeq raw)
    (hdecode : decodeRecord raw = .ok batch seq more n) (hseq : minSeq ≤ seq) :
    groupFinalSeq ≠ 0 ∧ seq < groupFinalSeq ∧ more.toUInt64 = groupFinalSeq - seq := by
  have hpart : partOfOpenGroup groupFinalSeq seq more = true := by
    by_contra hne
    exact h ⟨batch, seq, more, n, hdecode, hseq, by simpa using hne⟩
  simpa [partOfOpenGroup, and_assoc] using hpart

theorem more_ne_zero_of_part (hlt : seq < groupFinalSeq)
    (hmore : more.toUInt64 = groupFinalSeq - seq) : more ≠ 0 := by
  intro hzero
  subst hzero
  have hlt' := UInt64.lt_iff_toNat_lt.mp hlt
  have hsub := congrArg UInt64.toNat hmore
  rw [UInt64.toNat_sub_of_le _ _ (UInt64.le_iff_toNat_le.mpr hlt'.le)] at hsub
  have hz : (0 : UInt32).toUInt64.toNat = 0 := rfl
  omega

end Zycord.Storage
