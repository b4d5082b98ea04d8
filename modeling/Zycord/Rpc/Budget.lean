import Mathlib.Algebra.Order.BigOperators.Group.List
import Mathlib.Algebra.Order.Ring.Nat

/-!
# The block-byte budget of a client

The read server (`node/rpc`) checks a client's budget before it reads a block and charges the block
after. Each call is one critical section of the server's lock, and the requests of one client may
take turns in any order. Of the client's entry only the charges are followed; the times of its
requests say whether a sweep finds it idle.
-/

namespace Zycord.Rpc

open List

/-- Bytes charged to a client, and when. -/
structure ByteCharge where
  time : ℤ
  n : ℕ

/-- One minute, in nanoseconds. -/
def window : ℤ := 60 * 10 ^ 9

/-- The charges later than a time. -/
def keepChargesAfter (charges : List ByteCharge) (cutoff : ℤ) : List ByteCharge :=
  charges.filter fun c => cutoff < c.time

/-- What charges add up to. -/
def spent (charges : List ByteCharge) : ℕ := (charges.map (·.n)).sum

/-- The charges of a client, if the server has an entry for it. -/
abbrev Entry : Type := Option (List ByteCharge)

/-- What the sweep leaves of an entry: the charges of the last minute, and no entry for a client
that is idle and has none. -/
def sweepLocked (now : ℤ) (idle : Bool) (entry : Entry) : Entry := do
  let bytes := keepChargesAfter (← entry) (now - window)
  if idle && bytes.isEmpty then none else some bytes

/-- What `allow` leaves of the charges: it makes the entry if there is none. -/
def allow (entry : Entry) : Entry := some (entry.getD [])

/-- Whether a client may still be sent block bytes, and its entry without the old charges. -/
def allowBlockBytes (budget : ℕ) (now : ℤ) : Entry → Bool × Entry
  | none => (true, none)
  | some bytes =>
    let bytes := keepChargesAfter bytes (now - window)
    (spent bytes < budget, some bytes)

/-- Charge a client that has an entry. -/
def chargeBlockBytes (now : ℤ) (n : ℕ) : Entry → Entry
  | none => none
  | some bytes => some (keepChargesAfter bytes (now - window) ++ [⟨now, n⟩])

/-- The bytes charged to a client since `start`. -/
def chargedSince (start : ℤ) (entry : Entry) : ℕ :=
  spent (keepChargesAfter (entry.getD []) start)

section

variable (budget size most : ℕ) (start : ℤ)

/-- The runs of one client's requests in the window that begins at `start`, with blocks of at most
`size` bytes: the client's entry, and the number of requests that passed the check and are not
charged yet, which is never above `most`. Some may have passed it before the window began. -/
inductive Run : Entry → ℕ → Prop
  | start {entry reading} : chargedSince start entry = 0 → reading ≤ most → Run entry reading
  | sweep {entry reading} (now : ℤ) (idle : Bool) : Run entry reading → now ≤ start + window →
      Run (sweepLocked now idle entry) reading
  | allow {entry reading} : Run entry reading → Run (allow entry) reading
  | check {entry reading} (now : ℤ) : Run entry reading → now ≤ start + window → reading < most →
      Run (allowBlockBytes budget now entry).2
        (reading + (allowBlockBytes budget now entry).1.toNat)
  | charge {entry reading} (now : ℤ) (n : ℕ) : Run entry (reading + 1) → now ≤ start + window →
      n ≤ size → Run (chargeBlockBytes now n entry) reading
  | unread {entry reading} : Run entry (reading + 1) → Run entry reading

end

section

variable {budget size most reading : ℕ} {start now : ℤ} {entry : Entry}

section

variable (hnow : now ≤ start + window)

include hnow

/-- Nothing that was charged in the window is forgotten in it. -/
theorem keep_charges_keep {bytes : List ByteCharge} : keepChargesAfter
    (keepChargesAfter bytes (now - window)) start = keepChargesAfter bytes start := by
  unfold keepChargesAfter
  rw [filter_filter]
  refine filter_congr fun c _ => ?_
  simp only [Bool.and_eq_left_iff_imp, decide_eq_true_eq]
  omega

/-- The sweep forgets no charge of the window. -/
theorem charged_sweep (idle : Bool) :
    chargedSince start (sweepLocked now idle entry) = chargedSince start entry := by
  cases entry with
  | none => rfl
  | some bytes =>
    refine congrArg spent (Eq.trans ?_ (keep_charges_keep hnow))
    by_cases hempty : idle = true ∧ keepChargesAfter bytes (now - window) = [] <;>
      simp [sweepLocked, hempty]

/-- The check forgets no charge of the window, and admits only within the budget. -/
theorem charged_check :
    chargedSince start (allowBlockBytes budget now entry).2 = chargedSince start entry ∧
      ((allowBlockBytes budget now entry).1 = true → chargedSince start entry ≤ budget) := by
  cases entry with
  | none => exact ⟨rfl, fun _ => Nat.zero_le _⟩
  | some bytes =>
    have hkeep := congrArg spent (@keep_charges_keep _ _ hnow bytes)
    refine ⟨hkeep, fun hallow => hkeep.ge.trans (le_trans ?_ (of_decide_eq_true hallow).le)⟩
    exact (filter_sublist.map _).sum_le_sum fun _ _ => Nat.zero_le _

/-- A charge adds its bytes, or nothing if the client has no entry. -/
theorem charged_charge (n : ℕ) :
    chargedSince start (chargeBlockBytes now n entry) ≤ chargedSince start entry + n := by
  cases entry with
  | none => exact Nat.zero_le _
  | some bytes =>
    have hone : spent (keepChargesAfter [⟨now, n⟩] start) ≤ n := by
      by_cases hlate : start < now <;> simp [keepChargesAfter, hlate, spent]
    refine le_trans (le_of_eq ?_) (Nat.add_le_add_left hone _)
    refine Eq.trans ?_ (congrArg (spent · + _) (keep_charges_keep hnow))
    simp [chargeBlockBytes, chargedSince, keepChargesAfter, spent]

end

/-- With a block set aside for each request that is reading, the charges are within the bound. -/
theorem Run.reserve (h : Run budget size most start entry reading) : reading ≤ most ∧
    chargedSince start entry + reading * size ≤ budget + most * size := by
  induction h with
  | start hnone hreading =>
    rw [hnone, Nat.zero_add]
    exact ⟨hreading, (Nat.mul_le_mul_right size hreading).trans (Nat.le_add_left _ _)⟩
  | sweep now idle _ hnow ih => rwa [charged_sweep hnow idle]
  | allow _ ih => exact ih
  | @check entry reading now _ hnow hmost ih =>
    obtain ⟨hsame, hwithin⟩ := @charged_check budget _ _ entry hnow
    rw [hsame]
    cases hallow : (allowBlockBytes budget now entry).1 with
    | false => exact ih
    | true => exact ⟨hmost, Nat.add_le_add (hwithin hallow) (Nat.mul_le_mul_right size hmost)⟩
  | @charge entry reading now n _ hnow hn ih =>
    have hle := @charged_charge _ _ entry hnow n
    rw [Nat.succ_mul] at ih
    omega
  | unread _ ih =>
    rw [Nat.succ_mul] at ih
    omega

/-- The bytes charged in one window exceed the budget by at most one block for each request that may
be between its check and its charge. -/
theorem charged_le (h : Run budget size most start entry reading) :
    chargedSince start entry ≤ budget + most * size :=
  (Nat.le_add_right _ _).trans h.reserve.2

end

/-- One request after the other, of a block of 1000 bytes each: two are charged within a budget of
1500 bytes, the second one past it. -/
theorem charged_le_twice : ∃ entry, Run 1500 1000 1 0 entry 0 ∧ chargedSince 0 entry = 2000 ∧
    chargedSince 0 entry ≤ 1500 + 1 * 1000 := by
  have hadmitted : Run 1500 1000 1 0 (some []) 0 :=
    (Run.start rfl (Nat.zero_le 1) : Run 1500 1000 1 0 none 0).allow
  have hfirst : Run 1500 1000 1 0 (some []) 1 := hadmitted.check 1 (by decide) (by decide)
  have hcharged := hfirst.charge 1 1000 (by decide) (by decide)
  have hsecond : Run 1500 1000 1 0 (some [⟨1, 1000⟩]) 1 :=
    hcharged.check 2 (by decide) (by decide)
  have hrun := hsecond.charge 2 1000 (by decide) (by decide)
  exact ⟨_, hrun, by decide, charged_le hrun⟩

/-- Three requests pass the check before the first one is charged. -/
theorem three_at_once : ∃ entry, Run 100 1000 3 0 entry 0 ∧ 100 + 1000 < chargedSince 0 entry := by
  have hadmitted : Run 100 1000 3 0 (some []) 0 :=
    (Run.start rfl (Nat.zero_le 3) : Run 100 1000 3 0 none 0).allow
  have hread : Run 100 1000 3 0 (some []) 3 :=
    ((hadmitted.check 1 (by decide) (by decide)).check 1 (by decide) (by decide)).check 1
      (by decide) (by decide)
  refine ⟨_, ((hread.charge 1 1000 ?_ ?_).charge 1 1000 ?_ ?_).charge 1 1000 ?_ ?_, ?_⟩ <;> decide

end Zycord.Rpc
