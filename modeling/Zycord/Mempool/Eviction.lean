import Zycord.Mempool.FloorHint

/-!
# Eviction

What the two room-making passes do to the residents, over every history. `eviction_fair` says that
whoever leaves is outbid and strands nobody, and that the pool stays within its marks.
A refused arrival need not leave the residents as they were: the count pass may evict for an arrival
that the byte pass then refuses, and the byte pass may evict for an arrival that is too large still.
`refused_displaces_nobody_iff` tells when from what the passes compute, `refused_displaces_nobody`
from the pool before the call.
-/

namespace Zycord.Mempool

open Book Int64 Mut Sample Validity

/-! ## The marks -/

namespace Policy

variable (policy : Policy) (limit : Int64)

theorem high_mark_le : (policy.highMark limit).toInt ≤ limit.toInt := by
  unfold highMark
  dsimp only
  generalize (if limit * policy.evictionHighWater.toInt64 / 100 < 1 then (1 : Int64)
    else limit * policy.evictionHighWater.toInt64 / 100) = n
  split_ifs with hle
  · exact Int.le_refl _
  · exact Int64.le_iff_toInt_le.mp (Int64.not_lt.mp hle)

theorem high_mark_nonneg (h : 0 ≤ limit.toInt) : 0 ≤ (policy.highMark limit).toInt := by
  have hone : (1 : ℤ) ≤ (if limit * policy.evictionHighWater.toInt64 / 100 < 1 then (1 : Int64)
      else limit * policy.evictionHighWater.toInt64 / 100).toInt := by
    split_ifs with hge
    · decide
    · have hle := Int64.le_iff_toInt_le.mp (Int64.not_lt.mp hge)
      rwa [toInt_one] at hle
  unfold highMark
  dsimp only
  generalize (if limit * policy.evictionHighWater.toInt64 / 100 < 1 then (1 : Int64)
    else limit * policy.evictionHighWater.toInt64 / 100) = n at hone ⊢
  split
  · exact h
  · omega

theorem low_mark_lt (h : 0 ≤ (policy.highMark limit).toInt) :
    (policy.lowMark limit).toInt < (policy.highMark limit).toInt := by
  unfold lowMark
  dsimp only
  generalize (if limit * policy.evictionLowWater.toInt64 / 100 < 0 then (0 : Int64)
    else limit * policy.evictionLowWater.toInt64 / 100) = n
  split_ifs with hge
  · have hlt := (policy.highMark limit).toInt_lt
    rw [toInt_sub, toInt_one, Int.bmod_eq_of_le (by omega) (by omega)]
    omega
  · exact Int64.lt_iff_toInt_lt.mp (Int64.not_le.mp hge)

end Policy

/-! ## Staying within the marks -/

/-- The pool is within its marks; a negative mark leaves it empty. -/
structure Within (policy : Policy) (b : Book) : Prop where
  count : (b.residents.length : ℤ) ≤ max 0 policy.highWater.toInt
  bytes : (b.totalBytes : ℤ) ≤ max 0 policy.maxBytes.toInt

section

variable {policy : Policy} {b : Book} {pool : Pool} {c : Certificate} {visit : Visit}

variable {e : Entry} {bound : Bound} {s : StateReader} {tip : UInt64}

/-- A removal keeps the bounds. -/
theorem Within.take (h : Within policy b) (he : e ∈ b.residents) : Within policy (b.take e) := by
  have hlen := length_take he
  have hbytes : (b.take e).totalBytes = b.totalBytes - e.bytes := rfl
  have hcount := h.count
  have htotal := h.bytes
  exact ⟨by omega, by omega⟩

section

variable (hwithin : Within pool.policy pool.book)
  (hfull : pool.policy.highWater.toInt ≤ pool.book.residents.length)
  (hout : Outbids pool.policy pool.book c)

include hwithin hfull hout

theorem count_reached_eq_false : countReached pool.policy pool.book = false := by
  obtain ⟨e, he, -⟩ := hout
  have hpos := List.length_pos_of_mem he.mem
  have hcount := hwithin.count
  have hlow := pool.policy.low_mark_lt pool.policy.maxCertificates (by
    show 0 ≤ pool.policy.highWater.toInt
    omega)
  refine decide_eq_false fun hle => ?_
  have : pool.policy.lowWater.toInt < pool.policy.highWater.toInt := hlow
  omega

theorem count_cleared_lt (hquiet : bound.Quiet) (visit : Visit) :
    ((cleared bound visit (countReached pool.policy) c pool).book.residents.length : ℤ) <
      pool.policy.highWater.toInt := by
  have hshrinks := length_cleared hquiet visit hout (count_reached_eq_false hwithin hfull hout)
  have hcount := hwithin.count
  omega

theorem count_full_cleared (hquiet : bound.Quiet) (visit : Visit) :
    countFull pool.policy (cleared bound visit (countReached pool.policy) c pool).book = false := by
  have hlt := count_cleared_lt hwithin hfull hout hquiet visit
  have hhigh := pool.policy.high_mark_le pool.policy.maxCertificates
  refine decide_eq_false fun hle => ?_
  have : pool.policy.highWater.toInt ≤ pool.policy.maxCertificates.toInt := hhigh
  omega

end

variable [Crypto] {p : Params}

/-- Admission keeps the pool within its bounds. -/
theorem admit_within (h : Within pool.policy pool.book) :
    Within pool.policy (admitCert floorLowerBoundFor p visit c s tip pool).2.book := by
  have htake : ∀ b e, e ∈ b.residents → Within pool.policy b → Within pool.policy (b.take e) :=
    fun b e he hb => hb.take he
  have hout := admit_outcome floorLowerBoundFor p visit c s tip pool
  have hcount := count_pass_outcome floor_lower_bound_quiet visit c pool
  rcases admit_cases floor_lower_bound_quiet p visit c s tip pool with
    ⟨e, pool', heq, -, htakes⟩ | ⟨passed, mid, heq, -⟩
  · rw [heq]
    exact htakes.keeps htake h
  · have hok : (admitCert floorLowerBoundFor p visit c s tip pool).1 = .ok () := by rw [heq]
    revert hout hok
    generalize admitCert floorLowerBoundFor p visit c s tip pool = r
    intro hout hok
    cases hout with
    | screened e pool' _ _ => simp at hok
    | count passed e pool' _ _ => simp at hok
    | bytes passed mid e pool' _ _ _ => simp at hok
    | admitted passed mid mid' hpass heq hbytes =>
      have htakes := hcount.takes floor_lower_bound_quiet
      rw [heq] at hcount htakes
      obtain ⟨hpolicy, htakes⟩ := htakes
      dsimp only at hpolicy htakes
      have hbyte := byte_pass_outcome floor_lower_bound_quiet visit c mid
      have htakes' := (hbyte.takes floor_lower_bound_quiet).2
      rw [hbytes] at hbyte htakes'
      dsimp only at htakes'
      have hfresh : mid'.book.has c.id = false :=
        has_eq_false.mpr fun e he =>
          has_eq_false.mp hpass.fresh e (htakes.sub (htakes'.sub he))
      -- the count pass leaves room for one more
      have hlen : (mid.book.residents.length : ℤ) + 1 ≤ max 0 pool.policy.highWater.toInt := by
        cases hcount with
        | idle hidle => omega
        | clear hfull houtbids _ =>
          have hlt := count_cleared_lt h hfull houtbids floor_lower_bound_quiet visit
          omega
      -- the byte pass leaves room for the arrival
      have hsize : ((mid'.book.totalBytes + c.sizeBytes : ℕ) : ℤ) ≤
          max 0 pool.policy.maxBytes.toInt := by
        rw [← hpolicy]
        cases hbyte with
        | idle hidle =>
          have hhigh := mid.policy.high_mark_le mid.policy.maxBytes
          have : mid.policy.byteHighWater.toInt ≤ mid.policy.maxBytes.toInt := hhigh
          omega
        | clear _ _ hfits =>
          have := of_decide_eq_false hfits
          omega
      have hle := htakes'.length_le
      rw [book_enter]
      constructor
      · rw [length_insert hfresh]
        omega
      · exact hsize

/-- Every run of sections stays within the bounds. -/
theorem run_within (p : Params) (sections : List Section) (policy : Policy) :
    Within policy (runSections p sections (.new policy)).book := by
  have hnew : Within (Pool.new policy).policy (Pool.new policy).book :=
    ⟨le_max_left _ _, le_max_left _ _⟩
  have hpolicy : (Pool.new policy).policy = policy := rfl
  generalize Pool.new policy = pool at hnew hpolicy ⊢
  induction sections generalizing pool with
  | nil => exact hpolicy ▸ hnew
  | cons sec rest ih =>
    refine ih _ ?_ ((section_policy p sec pool).trans hpolicy)
    rw [section_policy]
    by_cases hadmit : ∃ visit c s tip, sec = .admitCert visit c s tip
    · obtain ⟨visit, c, s, tip, rfl⟩ := hadmit
      exact admit_within hnew
    · refine section_book (fun b e he hb => hb.take he) ?_ hnew
      intro visit c s tip passed mid heq
      exact absurd ⟨visit, c, s, tip, heq⟩ hadmit

/-! ## Fairness -/

theorem add_turn (p : Params) (visit : Visit) (c : Certificate) (s : StateReader) (tip : UInt64)
    (pool : Pool) :
    (∃ e pool', add p visit c s tip pool = (.error e, pool') ∧
      Takes pool.policy.evictionBumpPercent c pool.book pool'.book) ∨
    ∃ reserve mid pool', add p visit c s tip pool = (.ok (), pool') ∧
      pool.book.has c.id = false ∧ Takes pool.policy.evictionBumpPercent c pool.book mid ∧
      pool'.book = mid.insert (entryOf c reserve) := by
  rcases add_with_cases floorLowerBoundFor p visit c s tip pool with
    ⟨e, pool', heq, rfl | rfl⟩ | ⟨-, -, -, heq⟩
  · exact .inl ⟨e, _, heq, .none⟩
  · exact .inl ⟨e, _, heq, .none⟩
  · rcases admit_cases floor_lower_bound_quiet p visit c s tip pool with
      ⟨e, pool', heq', -, htakes⟩ | ⟨passed, mid, heq', hpass, -, htakes⟩
    · exact .inl ⟨e, pool', heq.trans heq', htakes⟩
    · exact .inr ⟨passed.reserve, mid.book, _, heq.trans heq', hpass.fresh, htakes, book_enter _⟩

/-- Only a cheaper entry at the end of its chain makes way. -/
theorem add_removes (he : e ∈ pool.book.residents)
    (hgone : e ∉ (add p visit c s tip pool).2.book.residents) :
    required e.priority.toNat pool.policy.evictionBumpPercent ≤ c.feeBid.seqPriority.toNat ∧
      Tail (add p visit c s tip pool).2.book e := by
  rcases add_turn p visit c s tip pool with
    ⟨_, pool', heq, htakes⟩ | ⟨reserve, mid, pool', heq, hfresh, htakes, hbook⟩ <;>
    rw [heq] at hgone ⊢
  · obtain ⟨hbeats, htail, -⟩ := htakes.removed he hgone
    exact ⟨beats_by_bump_iff.mp hbeats, htail⟩
  · have hmem : ∀ {f}, f ∈ pool'.book.residents ↔ f = entryOf c reserve ∨ f ∈ mid.residents := by
      rw [hbook]
      exact mem_insert (has_eq_false.mpr fun e he => has_eq_false.mp hfresh e (htakes.sub he))
    obtain ⟨hbeats, htail, hother⟩ := htakes.removed he fun hmid => hgone (hmem.mpr (.inr hmid))
    refine ⟨beats_by_bump_iff.mp hbeats, fun f hf hu => ?_⟩
    rcases hmem.mp hf with rfl | hf
    · have hnot : ¬ (e.seq < c.seq ∧ e.underwriter = c.underwriterID) := of_decide_eq_false hother
      exact UInt64.not_lt.mp fun hlt => hnot ⟨hlt, hu.symm⟩
    · exact htail f hf hu

/-- Eviction is fair and safe for chains, after every history, for a policy whose budgets are not
negative: the pool is within its high-water mark and its byte budget, and whoever an `Add` removes,
successful or not, declares a price that the arrival beats by the bump and leaves nobody of its
chain pooled above it. -/
theorem eviction_fair (p : Params) (policy : Policy) (sections : List Section)
    (hcount : 0 ≤ policy.maxCertificates.toInt) (hbytes : 0 ≤ policy.maxBytes.toInt) :
    ((runSections p sections (.new policy)).book.residents.length : ℤ) ≤ policy.highWater.toInt ∧
    ((runSections p sections (.new policy)).book.totalBytes : ℤ) ≤ policy.maxBytes.toInt ∧
    ∀ (visit : Visit) (c : Certificate) (s : StateReader) (tip : UInt64),
      ∀ e ∈ (runSections p sections (.new policy)).book.residents,
        e ∉ (add p visit c s tip (runSections p sections (.new policy))).2.book.residents →
        required e.cert.feeBid.seqPriority.toNat policy.evictionBumpPercent ≤
            c.feeBid.seqPriority.toNat ∧
          ∀ f ∈ (add p visit c s tip (runSections p sections (.new policy))).2.book.residents,
            f.cert.underwriterID = e.cert.underwriterID → f.cert.seq ≤ e.cert.seq := by
  have hwithin := run_within p sections policy
  have hpolicy := run_sections_policy p sections (.new policy)
  have hhigh : 0 ≤ policy.highWater.toInt := policy.high_mark_nonneg _ hcount
  refine ⟨?_, ?_, ?_⟩
  · have h := hwithin.count
    rwa [max_eq_right hhigh] at h
  · have h := hwithin.bytes
    rwa [max_eq_right hbytes] at h
  · intro visit c s tip e he hgone
    have h := add_removes he hgone
    rw [hpolicy] at h
    exact h

end

/-! ## Pools with a negative and with a small budget -/

section

open Fold.Sample

attribute [local instance] Reference.crypto

namespace Sample

/-- A certificate budget of minus one; the product with the percentage is minus ninety. -/
def negativePolicy : Policy := { defaultPolicy with maxCertificates := -1 }

/-- Room for one payment by size. -/
def narrowPolicy : Policy := { defaultPolicy with maxBytes := 950 }

/-- A cheap payment in it. -/
def narrowPool : Pool :=
  runSections params (admitAll (flush 30000) [priced 1 0 3]) (.new narrowPolicy)

end Sample

/-- With a negative budget the empty pool is above its high-water mark. -/
theorem negative_budget_exceeded :
    negativePolicy.maxCertificates.toInt * negativePolicy.evictionHighWater.toNat = -90 ∧
      ¬ ((Pool.new negativePolicy).book.residents.length : ℤ) ≤ negativePolicy.highWater.toInt := by
  decide

/-- A cheap payment makes room for a dearer one of another underwriter, which offers the bump. -/
theorem sample_eviction_fair :
    (∃ e ∈ narrowPool.book.residents,
      e ∉ (add params .byID (priced 2 0 9) (flush 30000) 1 narrowPool).2.book.residents ∧
      required e.cert.feeBid.seqPriority.toNat narrowPolicy.evictionBumpPercent ≤
        (priced 2 0 9).feeBid.seqPriority.toNat) ∧
    (narrowPool.book.totalBytes : ℤ) ≤ narrowPolicy.maxBytes.toInt := by
  have hfair := eviction_fair params narrowPolicy
    (admitAll (flush 30000) [priced 1 0 3]) (by decide) (by decide)
  have hmem : entryOf (priced 1 0 3) (.ofNat 10000) ∈ narrowPool.book.residents := by
    decide +kernel
  have hgone : entryOf (priced 1 0 3) (.ofNat 10000) ∉
      (add params .byID (priced 2 0 9) (flush 30000) 1 narrowPool).2.book.residents := by
    decide +kernel
  unfold narrowPool at hmem hgone ⊢
  exact ⟨⟨_, hmem, hgone, (hfair.2.2 .byID _ _ 1 _ hmem hgone).1⟩, hfair.2.1⟩

end

/-! ## When a refusal displaces somebody -/

section

variable [Crypto] {p : Params} {pool : Pool} {c : Certificate} {visit : Visit}

/-- The pool is at its count high-water mark. -/
def FullByCount (pool : Pool) : Prop :=
  pool.policy.highWater.toInt ≤ pool.book.residents.length

/-- With the arrival the pool is over its byte high-water mark. -/
def Bulky (c : Certificate) (pool : Pool) : Prop :=
  pool.policy.byteHighWater.toInt < (pool.book.totalBytes + c.sizeBytes : ℕ)

/-- The pool after the count pass. -/
def countCleared (c : Certificate) (pool : Pool) : Pool :=
  cleared unbounded .byID (countReached pool.policy) c pool

/-- The pool after the byte pass. -/
def bytesCleared (c : Certificate) (pool : Pool) : Pool :=
  cleared unbounded .byID (bytesReached pool.policy) c pool

/-- The arrival is over the byte budget even after the byte pass. -/
def TooLarge (c : Certificate) (pool : Pool) : Prop :=
  pool.policy.maxBytes.toInt < ((bytesCleared c pool).book.totalBytes + c.sizeBytes : ℕ)

/-- The passes evict for an arrival and refuse it still: the count pass evicts and the byte pass
then finds nobody the arrival outbids, or evicts and finds it too large; or the byte pass alone
evicts and finds it too large. -/
def Displaces (c : Certificate) (pool : Pool) : Prop :=
  Outbids pool.policy pool.book c ∧ (FullByCount pool ∧ Bulky c (countCleared c pool) ∧
        (¬ Outbids pool.policy (countCleared c pool).book c ∨ TooLarge c (countCleared c pool)) ∨
      ¬ FullByCount pool ∧ Bulky c pool ∧ TooLarge c pool ∧
        pool.policy.byteLowWater.toInt < pool.book.totalBytes)

/-- Everything pooled is still pooled, and nothing else is. -/
def SameResidents (a b : Book) : Prop := ∀ e, e ∈ b.residents ↔ e ∈ a.residents

section

omit [Crypto]

theorem SameResidents.of_eq {a b : Book} (h : b = a) : SameResidents a b := by
  rw [h]
  exact fun _ => Iff.rfl

/-- The outcome of the pass over bytes. -/
theorem byte_pass_spec (hkept : HintKept pool) (hbulky : Bulky c pool) :
    (Outbids pool.policy pool.book c →
      (TooLarge c pool → (bytePass floorLowerBoundFor visit c pool).1 = .error .full ∧
        (bytePass floorLowerBoundFor visit c pool).2.book = (bytesCleared c pool).book) ∧
      (¬ TooLarge c pool → (bytePass floorLowerBoundFor visit c pool).1 = .ok ())) ∧
    (¬ Outbids pool.policy pool.book c →
      (∃ e, (bytePass floorLowerBoundFor visit c pool).1 = .error e) ∧
        (bytePass floorLowerBoundFor visit c pool).2.book = pool.book) := by
  obtain ⟨hout, hno⟩ := @make_room_spec c (bytesReached pool.policy)
    (bytesFull pool.policy c.sizeBytes) _ visit pool floor_lower_bound_quiet
    (floor_lower_bound_le visit c hkept).2
  have halike := @cleared_alike pool pool c (bytesReached pool.policy) _ _
    floor_lower_bound_quiet unbounded_quiet visit .byID (Alike.refl pool)
  have hfull : bytesFull pool.policy c.sizeBytes
      (cleared floorLowerBoundFor visit (bytesReached pool.policy) c pool).book = true ↔
      TooLarge c pool := by
    rw [halike.book]
    exact decide_eq_true_iff
  have hrun : bytePass floorLowerBoundFor visit c pool = counted (makeRoom floorLowerBoundFor
      visit (bytesReached pool.policy) (bytesFull pool.policy c.sizeBytes) c) pool := by
    rw [byte_pass_eq]
    exact if_pos hbulky
  rw [hrun]
  unfold counted orElse
  constructor
  · intro houtbids
    rw [hout houtbids]
    constructor
    · intro hlarge
      rw [if_pos (hfull.mpr hlarge)]
      exact ⟨rfl, halike.book⟩
    · intro hfits
      rw [if_neg fun h => hfits (hfull.mp h)]
  · intro hnobody
    obtain ⟨e, heq⟩ := hno hnobody
    obtain ⟨hint, hhint⟩ := floor_lower_bound_quiet visit c pool
    rw [heq, hhint]
    exact ⟨⟨e, rfl⟩, rfl⟩

/-- The outcome of the pass over the count. -/
theorem count_pass_spec (hkept : HintKept pool) (hwithin : Within pool.policy pool.book)
    (hfull : FullByCount pool) :
    (Outbids pool.policy pool.book c →
      ∃ mid, countPass floorLowerBoundFor visit c pool = (.ok (), mid) ∧
        Alike mid (countCleared c pool) ∧ HintKept mid) ∧
    (¬ Outbids pool.policy pool.book c →
      ∃ e pool', countPass floorLowerBoundFor visit c pool = (.error e, pool') ∧
        pool'.book = pool.book) := by
  obtain ⟨hout, hno⟩ := @make_room_spec c (countReached pool.policy) (countFull pool.policy) _
    visit pool floor_lower_bound_quiet (floor_lower_bound_le visit c hkept).2
  have halike := @cleared_alike pool pool c (countReached pool.policy) _ _
    floor_lower_bound_quiet unbounded_quiet visit .byID (Alike.refl pool)
  have hpass := (count_pass_outcome floor_lower_bound_quiet visit c pool).hint_kept hkept
  have hrun : countPass floorLowerBoundFor visit c pool = counted (makeRoom floorLowerBoundFor
      visit (countReached pool.policy) (countFull pool.policy) c) pool := by
    rw [count_pass_eq]
    exact if_pos hfull
  rw [hrun] at hpass ⊢
  unfold counted orElse at hpass ⊢
  constructor
  · intro houtbids
    have hroom := count_full_cleared hwithin hfull houtbids floor_lower_bound_quiet visit
    rw [hout houtbids, if_neg (by simp [hroom])] at hpass ⊢
    exact ⟨_, rfl, halike, hpass⟩
  · intro hnobody
    obtain ⟨e, heq⟩ := hno hnobody
    obtain ⟨hint, hhint⟩ := floor_lower_bound_quiet visit c pool
    rw [heq, hhint]
    exact ⟨e, _, rfl, rfl⟩

theorem bytes_cleared_of_low (h : (pool.book.totalBytes : ℤ) ≤ pool.policy.byteLowWater.toInt) :
    (bytesCleared c pool).book = pool.book := by
  unfold bytesCleared cleared
  cases evictionOrder (collected .byID pool.book c) c pool.policy.evictionBumpPercent with
  | nil => rfl
  | cons v rest =>
    unfold evict
    rw [if_pos (show bytesReached pool.policy (unbounded .byID c pool).2.book = true from
      decide_eq_true h)]
    rfl

theorem Alike.bulky {a b : Pool} (h : Alike a b) : Bulky c a ↔ Bulky c b := by
  unfold Bulky
  rw [h.policy, h.book]

theorem Alike.too_large {a b : Pool} (h : Alike a b) : TooLarge c a ↔ TooLarge c b := by
  have hcleared := @cleared_alike a b c (bytesReached b.policy) _ _ unbounded_quiet
    unbounded_quiet .byID .byID h
  unfold TooLarge bytesCleared
  rw [h.policy, hcleared.book]

end

/-- The rest of an admission after the count pass let the arrival through. -/
structure AfterCount (c : Certificate) (mid : Pool) (r : Except PoolError Unit × Pool) : Prop where
  slim : ¬ Bulky c mid → r.1 = .ok ()
  nobody : Bulky c mid → ¬ Outbids mid.policy mid.book c →
    (∃ e, r.1 = .error e) ∧ r.2.book = mid.book
  large : Bulky c mid → Outbids mid.policy mid.book c → TooLarge c mid →
    r.1 = .error .full ∧ r.2.book = (bytesCleared c mid).book
  fits : Bulky c mid → Outbids mid.policy mid.book c → ¬ TooLarge c mid → r.1 = .ok ()

variable {s : StateReader} {tip : UInt64} {passed : Screened}

/-- What admission does once the count pass is through. -/
theorem admit_after_count {mid : Pool} (hpass : Passes p pool c c.id s tip passed)
    (hcount : countPass floorLowerBoundFor visit c pool = (.ok (), mid)) (hkept : HintKept mid) :
    AfterCount c mid (admitCert floorLowerBoundFor p visit c s tip pool) := by
  have hscreen : screen p c c.id s tip pool = (.ok passed, pool) := by
    unfold screen
    rw [gates_eq_ok.mpr hpass]
  have hrun : admitCert floorLowerBoundFor p visit c s tip pool =
      (bytePass floorLowerBoundFor visit c >>= fun _ =>
        modify (enter visit c passed.reserve)) mid := by
    unfold admitCert
    simp only [Bind.bind, hscreen, hcount]
  rw [hrun]
  simp only [Bind.bind]
  have hspec := @byte_pass_spec mid c visit hkept
  have hidle : ¬ Bulky c mid → bytePass floorLowerBoundFor visit c mid = (.ok (), mid) := by
    intro hslim
    rw [byte_pass_eq]
    exact if_neg hslim
  -- the verdict is that of the byte pass, which is the last to refuse
  generalize bytePass floorLowerBoundFor visit c mid = r at hspec hidle ⊢
  rcases r with ⟨e | u, pool'⟩
  · exact ⟨fun hslim => by simpa using hidle hslim,
      fun hbulky hnobody => ⟨⟨e, rfl⟩, ((hspec hbulky).2 hnobody).2⟩,
      fun hbulky hout hlarge => ((hspec hbulky).1 hout).1 hlarge,
      fun hbulky hout hfits => by simpa using ((hspec hbulky).1 hout).2 hfits⟩
  · exact ⟨fun _ => rfl, fun hbulky hnobody => absurd ((hspec hbulky).2 hnobody).1 (by simp),
      fun hbulky hout hlarge => absurd (((hspec hbulky).1 hout).1 hlarge).1 (by simp),
      fun _ _ _ => rfl⟩

/-- A refused admission that passed the screen leaves the residents as they were exactly unless
the passes evict and refuse still. -/
theorem admit_displaces_iff (hkept : HintKept pool) (hwithin : Within pool.policy pool.book)
    (hpass : Passes p pool c c.id s tip passed) :
    ((∃ e, (admitCert floorLowerBoundFor p visit c s tip pool).1 = .error e) →
      SameResidents pool.book (admitCert floorLowerBoundFor p visit c s tip pool).2.book) ↔
    ¬ Displaces c pool := by
  have hok : ∀ {r : Except PoolError Unit × Pool}, r.1 = .ok () →
      (∃ e, r.1 = .error e) → SameResidents pool.book r.2.book := by
    rintro r hr ⟨e, he⟩
    rw [hr] at he
    simp at he
  have hlost : ∀ {r : Except PoolError Unit × Pool} {gone : Entry}, gone ∈ pool.book.residents →
      gone ∉ r.2.book.residents → (∃ e, r.1 = .error e) →
      ¬ ((∃ e, r.1 = .error e) → SameResidents pool.book r.2.book) :=
    fun hgone hnot he hsame => hnot ((hsame he _).mpr hgone)
  by_cases hfull : FullByCount pool
  · by_cases hout : Outbids pool.policy pool.book c
    · -- the count pass evicts somebody
      obtain ⟨mid, hcount, halike, hkept'⟩ :=
        (@count_pass_spec pool c visit hkept hwithin hfull).1 hout
      have hafter := admit_after_count hpass hcount hkept'
      have hreached := count_reached_eq_false hwithin hfull hout
      obtain ⟨gone, hgone, hgone'⟩ := @cleared_shrinks _ (countReached pool.policy) c pool
        unbounded_quiet .byID hout hreached
      have hpolicy : mid.policy = pool.policy :=
        halike.policy.trans (policy_cleared unbounded_quiet)
      have hmid : gone ∉ mid.book.residents := by
        rw [halike.book]
        exact hgone'
      have hdis : Displaces c pool ↔
          Bulky c mid ∧ (¬ Outbids mid.policy mid.book c ∨ TooLarge c mid) := by
        rw [halike.bulky, halike.too_large, hpolicy, halike.book]
        simp [Displaces, hfull, hout]
      rw [hdis]
      by_cases hbulky : Bulky c mid
      · by_cases hout' : Outbids mid.policy mid.book c
        · by_cases hlarge : TooLarge c mid
          · -- it evicts again and the arrival is too large
            obtain ⟨he, hbook⟩ := hafter.large hbulky hout' hlarge
            refine iff_of_false (hlost hgone ?_ ⟨_, he⟩) (not_not.mpr ⟨hbulky, .inr hlarge⟩)
            rw [hbook]
            exact fun hmem => hmid ((cleared_takes unbounded_quiet .byID _ c mid).sub hmem)
          · exact iff_of_true (hok (hafter.fits hbulky hout' hlarge)) fun h =>
              h.2.elim (· hout') hlarge
        · -- the byte pass finds nobody the arrival outbids
          obtain ⟨he, hbook⟩ := hafter.nobody hbulky hout'
          exact iff_of_false (hlost hgone (hbook ▸ hmid) he) (not_not.mpr ⟨hbulky, .inl hout'⟩)
      · exact iff_of_true (hok (hafter.slim hbulky)) fun h => hbulky h.1
    · -- the count pass refuses before it evicts
      obtain ⟨e, pool', hcount, hbook⟩ := (@count_pass_spec pool c visit hkept hwithin hfull).2 hout
      have hrun : admitCert floorLowerBoundFor p visit c s tip pool = (.error e, pool') := by
        unfold admitCert screen
        simp only [Bind.bind, gates_eq_ok.mpr hpass, hcount]
      refine iff_of_true (fun _ => ?_) fun hdis => hout hdis.1
      rw [hrun]
      exact .of_eq hbook
  · have hcount : countPass floorLowerBoundFor visit c pool = (.ok (), pool) := by
      rw [count_pass_eq]
      exact if_neg hfull
    have hafter := admit_after_count hpass hcount hkept
    have hdis : Displaces c pool ↔ Outbids pool.policy pool.book c ∧ Bulky c pool ∧
        TooLarge c pool ∧ pool.policy.byteLowWater.toInt < pool.book.totalBytes := by
      simp [Displaces, hfull]
    rw [hdis]
    by_cases hbulky : Bulky c pool
    · by_cases hout : Outbids pool.policy pool.book c
      · by_cases hlarge : TooLarge c pool
        · obtain ⟨he, hbook⟩ := hafter.large hbulky hout hlarge
          by_cases hlow : (pool.book.totalBytes : ℤ) ≤ pool.policy.byteLowWater.toInt
          · -- the pass has nothing to clear
            exact iff_of_true (fun _ => .of_eq (hbook.trans (bytes_cleared_of_low hlow)))
              fun h => not_lt.mpr hlow h.2.2.2
          · obtain ⟨gone, hgone, hgone'⟩ := @cleared_shrinks _ (bytesReached pool.policy) c pool
              unbounded_quiet .byID hout (decide_eq_false hlow)
            refine iff_of_false (hlost hgone ?_ ⟨_, he⟩)
              (not_not.mpr ⟨hout, hbulky, hlarge, by omega⟩)
            rw [hbook]
            exact hgone'
        · exact iff_of_true (hok (hafter.fits hbulky hout hlarge)) fun h => hlarge h.2.2.1
      · obtain ⟨-, hbook⟩ := hafter.nobody hbulky hout
        exact iff_of_true (fun _ => .of_eq hbook) fun hdis => hout hdis.1
    · exact iff_of_true (hok (hafter.slim hbulky)) fun h => hbulky h.2.1

/-- A certificate that is valid and passes the screen. -/
def Admissible (p : Params) (s : StateReader) (tip : UInt64) (pool : Pool) (c : Certificate) :
    Prop :=
  checkStructural c p = .ok () ∧ checkSignatures c p = .ok () ∧
    ∃ passed, Passes p pool c c.id s tip passed

theorem add_eq_admit_cert (hstruct : checkStructural c p = .ok ())
    (hsig : checkSignatures c p = .ok ()) (hpass : Passes p pool c c.id s tip passed) :
    add p visit c s tip pool = admitCert floorLowerBoundFor p visit c s tip pool := by
  unfold add addWith screen
  simp only [Bind.bind, hstruct, hsig, gates_eq_ok.mpr hpass, checked, Pure.pure]

/-- A refused arrival displaces nobody, after every history, exactly when it is not a valid
certificate that passes the screen and for which the passes evict and refuse still. -/
theorem refused_displaces_nobody_iff (p : Params) (policy : Policy) (sections : List Section)
    (visit : Visit) (c : Certificate) (s : StateReader) (tip : UInt64) :
    ((∃ e, (add p visit c s tip (runSections p sections (.new policy))).1 = .error e) →
      SameResidents (runSections p sections (.new policy)).book
        (add p visit c s tip (runSections p sections (.new policy))).2.book) ↔
    ¬ (Admissible p s tip (runSections p sections (.new policy)) c ∧
      Displaces c (runSections p sections (.new policy))) := by
  have hkept := run_hint_kept p sections policy
  have hwithin := run_within p sections policy
  have hpolicy : (runSections p sections (.new policy)).policy = policy :=
    run_sections_policy p sections (.new policy)
  nth_rewrite 1 [← hpolicy] at hwithin
  generalize runSections p sections (.new policy) = pool at hkept hwithin ⊢
  by_cases hvalid : Admissible p s tip pool c
  · obtain ⟨hstruct, hsig, passed, hpass⟩ := hvalid
    rw [add_eq_admit_cert hstruct hsig hpass, admit_displaces_iff hkept hwithin hpass]
    exact not_congr ⟨fun hdis => ⟨⟨hstruct, hsig, passed, hpass⟩, hdis⟩, fun h => h.2⟩
  · refine iff_of_true (fun _ => ?_) fun h => hvalid h.1
    rcases add_with_cases floorLowerBoundFor p visit c s tip pool with
      ⟨e, pool', heq, rfl | rfl⟩ | ⟨hstruct, hsig, hpass, -⟩
    · exact .of_eq (by rw [add, heq])
    · exact .of_eq (by rw [add, heq]; rfl)
    · exact absurd ⟨hstruct, hsig, hpass⟩ hvalid

end

/-! ## What the passes leave, told from the pool before them -/

section

variable {c : Certificate} {pool : Pool}

/-- The residents the arrival may take and outbids, in the order in which they would leave. -/
def victims (c : Certificate) (pool : Pool) : List Entry :=
  evictionOrder (collected .byID pool.book c) c pool.policy.evictionBumpPercent

/-- The residents that the arrival may not take or does not outbid. -/
def unbeaten (c : Certificate) (pool : Pool) : List Entry :=
  pool.book.residents.filter (· ∉ victims c pool)

/-- Their size. -/
def leftBytes (c : Certificate) (pool : Pool) : ℕ := ((unbeaten c pool).map Entry.bytes).sum

/-- The book's size is that of its entries. -/
def Sized (b : Book) : Prop := b.totalBytes = b.total Entry.bytes

theorem Sized.take {b : Book} {e : Entry} (h : Sized b) (he : e ∈ b.residents) :
    Sized (b.take e) := by
  have htotal := total_take he Entry.bytes
  have hbytes : (b.take e).totalBytes = b.totalBytes - e.bytes := rfl
  unfold Sized at h ⊢
  omega

theorem run_sized [Crypto] (p : Params) (sections : List Section) (policy : Policy) :
    Sized (runSections p sections (.new policy)).book := by
  have hnew : Sized (Pool.new policy).book := rfl
  generalize Pool.new policy = pool at hnew ⊢
  induction sections generalizing pool with
  | nil => exact hnew
  | cons sec rest ih =>
    refine ih _ (section_book (fun b e he hb => hb.take he) ?_ hnew)
    intro visit c s tip passed mid _ hpass htakes hmid
    have hfresh : mid.has (entryOf c passed.reserve).id = false :=
      has_eq_false.mpr fun e he => has_eq_false.mp hpass.fresh e (htakes.sub he)
    unfold Sized at hmid ⊢
    rw [total_insert hfresh, ← hmid]
    rfl

theorem mem_victims {e : Entry} : e ∈ victims c pool ↔ MayTake pool.book c e ∧
    beatsByBump c.feeBid.seqPriority e.priority pool.policy.evictionBumpPercent = true :=
  mem_eviction_order .byID

theorem nodup_victims : (victims c pool).Nodup := by
  have hcollected : ((collected .byID pool.book c).map Candidate.entry).Nodup := by
    unfold collected
    rw [List.map_map]
    have hid : (Candidate.entry ∘ fun e => (⟨e, (priceOf (chainPrices .byID pool.book)
        e.underwriter).price⟩ : Candidate)) = id := rfl
    rw [hid, List.map_id]
    exact (((Visit.byID.perm _ _).nodup_iff).mpr (nodup_residents _)).filter _
  have hkept : (((collected .byID pool.book c).filter fun v => beatsByBump c.feeBid.seqPriority
      v.entry.priority pool.policy.evictionBumpPercent).map Candidate.entry).Nodup :=
    hcollected.sublist (List.filter_sublist.map Candidate.entry)
  exact (((List.perm_insertionSort _ _).map _).nodup_iff).mpr hkept

theorem sum_bytes_le {l l' : List Entry} (hnodup : l.Nodup) (hsub : l ⊆ l') :
    (l.map Entry.bytes).sum ≤ (l'.map Entry.bytes).sum := by
  obtain ⟨m, hperm, hm⟩ := List.subperm_of_subset hnodup hsub
  rw [← (hperm.map Entry.bytes).sum_eq]
  exact (hm.map Entry.bytes).sum_le_sum (fun _ _ => Nat.zero_le _)

theorem mem_unbeaten {e : Entry} :
    e ∈ unbeaten c pool ↔ e ∈ pool.book.residents ∧ e ∉ victims c pool := by
  simp [unbeaten]

section

variable {b : Book} (hsub : ∀ e ∈ b.residents, e ∈ pool.book.residents)
  (hgone : ∀ v ∈ victims c pool, v ∉ b.residents)

include hsub hgone

/-- Once every victim has gone, no more is left than what the arrival does not outbid. -/
theorem bytes_of_gone (hsized : Sized b) : b.totalBytes ≤ leftBytes c pool := by
  rw [hsized]
  exact sum_bytes_le (nodup_residents b) fun e he =>
    mem_unbeaten.mpr ⟨hsub e he, fun hv => hgone e hv he⟩

theorem length_of_gone :
    b.residents.length + (victims c pool).length ≤ pool.book.residents.length := by
  have hnodup : (b.residents ++ victims c pool).Nodup :=
    (nodup_residents b).append nodup_victims fun e he hv => hgone e hv he
  have hsubset : b.residents ++ victims c pool ⊆ pool.book.residents := by
    intro e he
    rcases List.mem_append.mp he with he | he
    · exact hsub e he
    · exact (mem_victims.mp he).1.mem
  have hlen := (List.subperm_of_subset hnodup hsubset).length_le
  rwa [List.length_append] at hlen

end

theorem cleared_ends (reached : Book → Bool) :
    reached (cleared unbounded .byID reached c pool).book = true ∨
      ∀ v ∈ victims c pool, v ∉ (cleared unbounded .byID reached c pool).book.residents :=
  evict_ends (fun _ hv => (mem_victims.mp hv).1.other) fun _ hv => (mem_victims.mp hv).2

theorem cleared_sized (hsized : Sized pool.book) (reached : Book → Bool) :
    Sized (cleared unbounded .byID reached c pool).book :=
  (cleared_takes unbounded_quiet .byID reached c pool).keeps (fun _ _ he h => h.take he) hsized

/-- A pass takes no more than the victims. -/
theorem left_bytes_le (hsized : Sized pool.book) (reached : Book → Bool) :
    leftBytes c pool ≤ (cleared unbounded .byID reached c pool).book.totalBytes := by
  rw [cleared_sized (c := c) hsized reached]
  refine sum_bytes_le ((nodup_residents _).filter _) fun e he => ?_
  obtain ⟨hmem, hnot⟩ := mem_unbeaten.mp he
  refine evict_spares hmem fun v hv hid => hnot ?_
  rwa [← eq_of_id (mem_victims.mp hv).1.mem hmem hid]

/-- A resident that the arrival may take and outbids, and that is left by a pass, is one that it
may take and outbids still. -/
theorem victims_of_takes {mid : Pool} {v : Entry} (hpolicy : mid.policy = pool.policy)
    (hsub : ∀ e ∈ mid.book.residents, e ∈ pool.book.residents) (hv : v ∈ victims c pool)
    (hmem : v ∈ mid.book.residents) : v ∈ victims c mid := by
  obtain ⟨hmay, hbeats⟩ := mem_victims.mp hv
  refine mem_victims.mpr ⟨⟨hmem, fun f hf hu => hmay.tail f (hsub f hf) hu, hmay.other⟩, ?_⟩
  rwa [hpolicy]

/-- What the arrival does not outbid after a pass, it did not outbid before. -/
theorem left_bytes_of_takes {mid : Pool} (hpolicy : mid.policy = pool.policy)
    (hsub : ∀ e ∈ mid.book.residents, e ∈ pool.book.residents) :
    leftBytes c mid ≤ leftBytes c pool := by
  refine sum_bytes_le ((nodup_residents _).filter _) fun e he => ?_
  obtain ⟨hmem, hnot⟩ := mem_unbeaten.mp he
  exact mem_unbeaten.mpr ⟨hsub e hmem, fun hv => hnot (victims_of_takes hpolicy hsub hv hmem)⟩

/-- An arrival that fits beside a pool at its low-water mark is too large for the byte budget
exactly when it does not fit beside what it does not outbid. -/
theorem too_large_iff (hsized : Sized pool.book)
    (hlow : c.sizeBytes + pool.policy.byteLowWater.toInt ≤ pool.policy.maxBytes.toInt) :
    TooLarge c pool ↔ pool.policy.maxBytes.toInt < leftBytes c pool + c.sizeBytes := by
  have hge := left_bytes_le (c := c) hsized (bytesReached pool.policy)
  have hsized' := cleared_sized (c := c) hsized (bytesReached pool.policy)
  have htakes := cleared_takes unbounded_quiet .byID (bytesReached pool.policy) c pool
  unfold TooLarge bytesCleared
  constructor
  · intro hlarge
    rcases @cleared_ends c pool (bytesReached pool.policy) with hreached | hgone
    · have := of_decide_eq_true hreached
      omega
    · have := bytes_of_gone (fun _ => htakes.sub) hgone hsized'
      omega
  · intro hlarge
    omega

/-- What on the pool before the call keeps a refusal from displacing anybody: the arrival outbids
nobody it may take; or it does not bring the pool over its byte high-water mark; or neither budget
asks for room; or it fits beside a pool at its byte low-water mark and beside the residents it does
not outbid, where a full pool must have more residents to give than the count pass takes, or the
arrival fits under the byte high-water mark without them. -/
def Spared (c : Certificate) (pool : Pool) : Prop :=
  ¬ Outbids pool.policy pool.book c ∨ ¬ Bulky c pool ∨
    ¬ FullByCount pool ∧ pool.book.totalBytes ≤ pool.policy.byteLowWater.toInt ∨
    c.sizeBytes + pool.policy.byteLowWater.toInt ≤ pool.policy.maxBytes.toInt ∧
      (leftBytes c pool + c.sizeBytes ≤ pool.policy.byteHighWater.toInt ∨
        leftBytes c pool + c.sizeBytes ≤ pool.policy.maxBytes.toInt ∧ (FullByCount pool →
          pool.book.residents.length < pool.policy.lowWater.toInt + (victims c pool).length))

/-- The sizes alone decide: the pool is not full by count and the arrival fits beside a pool at its
byte low-water mark, or the arrival is larger than the whole budget. -/
def Decided (c : Certificate) (pool : Pool) : Prop :=
  ¬ FullByCount pool ∧
      c.sizeBytes + pool.policy.byteLowWater.toInt ≤ pool.policy.maxBytes.toInt ∨
    pool.policy.maxBytes.toInt < c.sizeBytes

theorem byte_high_water_le (policy : Policy) :
    policy.byteHighWater.toInt ≤ policy.maxBytes.toInt := policy.high_mark_le _

theorem count_cleared_sub {e : Entry} (he : e ∈ (countCleared c pool).book.residents) :
    e ∈ pool.book.residents :=
  (cleared_takes unbounded_quiet .byID (countReached pool.policy) c pool).sub he

/-- The count pass leaves somebody to outbid if the arrival does not fit under the byte high-water
mark, and would without all it outbids or there are more of those than the pass takes. -/
theorem count_cleared_leaves (hsized : Sized pool.book) (hwithin : Within pool.policy pool.book)
    (hfull : FullByCount pool) (hout : Outbids pool.policy pool.book c)
    (hbulky : pool.policy.byteHighWater.toInt <
      ((countCleared c pool).book.totalBytes + c.sizeBytes : ℕ))
    (hfits : leftBytes c pool + c.sizeBytes ≤ pool.policy.byteHighWater.toInt ∨
      pool.book.residents.length < pool.policy.lowWater.toInt + (victims c pool).length) :
    ∃ v ∈ victims c pool, v ∈ (countCleared c pool).book.residents := by
  by_contra hnone
  have hgone : ∀ v ∈ victims c pool, v ∉ (countCleared c pool).book.residents :=
    fun v hv hmem => hnone ⟨v, hv, hmem⟩
  have hbytes := bytes_of_gone (fun _ => count_cleared_sub) hgone (cleared_sized hsized _)
  have hlen := length_of_gone (fun _ => count_cleared_sub) hgone
  have hnot := of_decide_eq_false (count_reached_eq_false hwithin hfull hout)
  have hge : pool.policy.lowWater.toInt ≤ (countCleared c pool).book.residents.length :=
    evict_count_ge (show pool.policy.lowWater.toInt ≤ pool.book.residents.length by omega)
  omega

/-- The count pass leaves an arrival that is spared either under the byte high-water mark or with
somebody left to outbid, and not too large then. -/
theorem count_cleared_spares (hsized : Sized pool.book) (hwithin : Within pool.policy pool.book)
    (hfull : FullByCount pool) (hout : Outbids pool.policy pool.book c) (hspared : Spared c pool) :
    Bulky c (countCleared c pool) → Outbids pool.policy (countCleared c pool).book c ∧
      ¬ TooLarge c (countCleared c pool) := by
  have hsized' : Sized (countCleared c pool).book := cleared_sized hsized _
  have hpolicy : (countCleared c pool).policy = pool.policy := policy_cleared unbounded_quiet
  have hhigh := byte_high_water_le pool.policy
  intro hbulky
  unfold Bulky at hbulky
  rw [hpolicy] at hbulky
  rcases hspared with hnobody | hslim | ⟨hcount, -⟩ | ⟨hlow, hfits⟩
  · exact absurd hout hnobody
  · have hle := sum_bytes_le (nodup_residents (countCleared c pool).book) fun _ =>
      count_cleared_sub
    unfold Bulky at hslim
    unfold Sized total at hsized hsized'
    omega
  · exact absurd hfull hcount
  · obtain ⟨v, hv, hmem⟩ := count_cleared_leaves hsized hwithin hfull hout hbulky
      (hfits.imp_right fun h => h.2 hfull)
    have hout' := mem_victims.mp (victims_of_takes hpolicy (fun _ => count_cleared_sub) hv hmem)
    rw [hpolicy] at hout'
    refine ⟨⟨v, hout'⟩, fun hlarge => ?_⟩
    have hless := left_bytes_of_takes (c := c) hpolicy fun _ => count_cleared_sub
    rw [too_large_iff hsized' (by rwa [hpolicy]), hpolicy] at hlarge
    omega

theorem Spared.not_displaces (hsized : Sized pool.book) (hwithin : Within pool.policy pool.book)
    (hspared : Spared c pool) : ¬ Displaces c pool := by
  rintro ⟨hout, ⟨hfull, hbulky, hrefuses⟩ | ⟨hfull, hbulky, hlarge, hover⟩⟩
  · obtain ⟨hout', hfits⟩ := count_cleared_spares hsized hwithin hfull hout hspared hbulky
    exact hrefuses.elim (· hout') hfits
  · have hhigh := byte_high_water_le pool.policy
    rcases hspared with hnobody | hslim | ⟨-, hlow⟩ | ⟨hlow, hfits⟩
    · exact hnobody hout
    · exact hslim hbulky
    · omega
    · rw [too_large_iff hsized hlow] at hlarge
      omega

/-- A decided arrival that displaces nobody spares everybody. -/
theorem Decided.spared (hsized : Sized pool.book) (hdecided : Decided c pool)
    (hnot : ¬ Displaces c pool) : Spared c pool := by
  by_contra hspared
  simp only [Spared, not_or, not_and, Classical.not_not] at hspared
  obtain ⟨hout, hbulky, hlow, hsizes⟩ := hspared
  have hhigh := byte_high_water_le pool.policy
  refine hnot ⟨hout, ?_⟩
  rcases hdecided with ⟨hfull, hfits⟩ | hlarge
  · refine .inr ⟨hfull, hbulky, (too_large_iff hsized hfits).mpr ?_, not_le.mp (hlow hfull)⟩
    by_contra hle
    exact (hsizes hfits).2 (not_lt.mp hle) fun h => absurd h hfull
  · -- nothing makes room for an arrival that is larger than the budget
    have htoo : ∀ pool' : Pool, pool'.policy = pool.policy → Bulky c pool' ∧ TooLarge c pool' := by
      intro pool' hpolicy
      unfold Bulky TooLarge
      rw [hpolicy]
      constructor <;> omega
    by_cases hfull : FullByCount pool
    · obtain ⟨hbulky', hlarge'⟩ := htoo (countCleared c pool) (policy_cleared unbounded_quiet)
      exact .inl ⟨hfull, hbulky', .inr hlarge'⟩
    · exact .inr ⟨hfull, hbulky, (htoo pool rfl).2, not_le.mp (hlow hfull)⟩

variable [Crypto]

/-- A refused arrival displaces nobody, after every history, if it is invalid, fails the screen or
is spared by what the pool holds before the call; where the sizes alone decide, in no other
case. -/
theorem refused_displaces_nobody (p : Params) (policy : Policy) (sections : List Section)
    (visit : Visit) (c : Certificate) (s : StateReader) (tip : UInt64) :
    ((Admissible p s tip (runSections p sections (.new policy)) c →
        Spared c (runSections p sections (.new policy))) →
      (∃ e, (add p visit c s tip (runSections p sections (.new policy))).1 = .error e) →
      SameResidents (runSections p sections (.new policy)).book
        (add p visit c s tip (runSections p sections (.new policy))).2.book) ∧
    (Decided c (runSections p sections (.new policy)) →
      ((∃ e, (add p visit c s tip (runSections p sections (.new policy))).1 = .error e) →
        SameResidents (runSections p sections (.new policy)).book
          (add p visit c s tip (runSections p sections (.new policy))).2.book) →
      Admissible p s tip (runSections p sections (.new policy)) c →
        Spared c (runSections p sections (.new policy))) := by
  have hiff := refused_displaces_nobody_iff p policy sections visit c s tip
  have hsized := run_sized p sections policy
  have hwithin := run_within p sections policy
  have hpolicy : (runSections p sections (.new policy)).policy = policy :=
    run_sections_policy p sections (.new policy)
  nth_rewrite 1 [← hpolicy] at hwithin
  generalize runSections p sections (.new policy) = pool at hiff hsized hwithin ⊢
  constructor
  · intro hspared
    refine hiff.mpr fun ⟨hadmissible, hdis⟩ => ?_
    exact (hspared hadmissible).not_displaces hsized hwithin hdis
  · intro hdecided hsame hadmissible
    exact hdecided.spared hsized fun hdis => hiff.mp hsame ⟨hadmissible, hdis⟩

end

/-! ## A payment that is too large -/

section

open Fold.Sample

attribute [local instance] Reference.crypto

namespace Sample

/-- A payment to two accounts. -/
def twoMoves : Certificate :=
  { certificate (.transfer [⟨nativeAsset, user 2, user 9, .ofNat 5⟩,
      ⟨nativeAsset, user 2, user 8, .ofNat 5⟩]) 0 (user 2) 10000 [key 2] with
    feeBid := ⟨.ofNat 9, .ofNat 9, .ofNat 2, 1⟩ }

end Sample

/-- A certificate larger than the byte budget evicts the cheap payment and is refused. -/
theorem oversize_displaces :
    (add params .byID twoMoves (flush 30000) 1 narrowPool).1 = .error .full ∧
    narrowPool.book.residents.length = 1 ∧
    (add params .byID twoMoves (flush 30000) 1 narrowPool).2.book.residents.length = 0 := by
  decide +kernel

/-- A payment at the resident's own price is refused and displaces nobody. -/
theorem sample_refused_displaces_nobody :
    (∃ e, (add params .byID (priced 2 0 3) (flush 30000) 1 narrowPool).1 = .error e) ∧
    SameResidents narrowPool.book
      (add params .byID (priced 2 0 3) (flush 30000) 1 narrowPool).2.book := by
  have hmatched : ∀ e ∈ narrowPool.book.residents,
      beatsByBump (priced 2 0 3).feeBid.seqPriority e.priority
        narrowPool.policy.evictionBumpPercent = false := by
    decide +kernel
  have hout : ¬ Outbids narrowPool.policy narrowPool.book (priced 2 0 3) := by
    intro ⟨e, he, hbeats⟩
    exact Bool.false_ne_true ((hmatched e he.mem).symm.trans hbeats)
  have hrefused : (add params .byID (priced 2 0 3) (flush 30000) 1 narrowPool).1 =
      .error .belowEvictionFloor := by
    decide +kernel
  unfold narrowPool at hout hrefused ⊢
  exact ⟨⟨_, hrefused⟩, (refused_displaces_nobody params narrowPolicy _ .byID
    (priced 2 0 3) (flush 30000) 1).1 (fun _ => .inl hout) ⟨_, hrefused⟩⟩

end

end Zycord.Mempool
