import Zycord.Fold.Run
import Zycord.Mempool.Admission

/-!
# The pool's accounts

A pool is used by several threads, each call being a sequence of critical sections of the pool's
lock (`Section`); what another thread does can come between any two. `add_by_sections` and
`readmit_by_sections` say that the calls are such sequences. The main theorem, `pool_accounts`, is
about every sequence: the counters are exactly what they count, every pooled certificate passed
the validity rules, and an admission leaves its underwriter within the balance it was screened
against.
-/

namespace Zycord.Mempool

open Book FinFun List Mempool U256 Validity

section

variable [Crypto] {p : Params} {pool : Pool}

/-! ## Critical sections -/

/-- One stretch of work under the pool's lock. -/
inductive Section where
  | countRejected
  | screen (c : Certificate) (s : StateReader) (tip : UInt64)
  | admitCert (visit : Visit) (c : Certificate) (s : StateReader) (tip : UInt64)
  | remove (ids : List Hash)
  | rescreen (s : StateReader) (tip : UInt64)
  | onBlock (b : Block) (s : StateReader) (tip : UInt64)

namespace Section

/-- What a section makes of the pool. -/
def run (p : Params) : Section → Pool → Pool
  | countRejected, pool => pool.countRejected
  | screen c s tip, pool => (Mempool.screen p c c.id s tip pool).2
  | admitCert visit c s tip, pool => (Mempool.admitCert floorLowerBoundFor p visit c s tip pool).2
  | remove ids, pool => pool.remove ids
  | rescreen s tip, pool => Mempool.rescreen p s tip pool
  | onBlock b s tip, pool => Mempool.onBlock p b s tip pool

/-- The admission proper runs only for a certificate that passed the validity rules. -/
def Allowed (p : Params) : Section → Prop
  | admitCert _ c _ _ => checkStructural c p = .ok () ∧ checkSignatures c p = .ok ()
  | _ => True

/-- An admission is screened against a state with a property. -/
def Against (P : StateReader → Prop) : Section → Prop
  | admitCert _ _ s _ => P s
  | _ => True

end Section

/-- A sequence of critical sections. -/
def runSections (p : Params) (sections : List Section) (pool : Pool) : Pool :=
  sections.foldl (fun pool sec => sec.run p pool) pool

theorem run_sections_invariant {P : StateReader → Prop} {I : Pool → Prop}
    (hstep : ∀ (sec : Section) pool, sec.Allowed p → sec.Against P → I pool → I (sec.run p pool))
    {sections : List Section} (hallowed : ∀ sec ∈ sections, sec.Allowed p ∧ sec.Against P)
    (h : I pool) : I (runSections p sections pool) := by
  refine sections.foldlRecOn _ h fun pool h sec hsec => ?_
  obtain ⟨hok, hagainst⟩ := hallowed sec hsec
  exact hstep sec pool hok hagainst h

/-- What removals and one insertion keep, every section keeps. -/
theorem section_book {P : Book → Prop} {sec : Section}
    (htake : ∀ b e, e ∈ b.residents → P b → P (b.take e))
    (hinsert : ∀ visit c s tip passed mid, sec = .admitCert visit c s tip →
      Passes p pool c c.id s tip passed →
      Takes pool.policy.evictionBumpPercent c pool.book mid → P mid →
      P (mid.insert (entryOf c passed.reserve)))
    (h : P pool.book) : P (sec.run p pool).book := by
  cases sec with
  | countRejected => exact h
  | screen c s tip =>
    show P (screen p c c.id s tip pool).2.book
    rcases screen_cases p c c.id s tip pool with ⟨passed, heq, -⟩ | ⟨e, heq | heq, -⟩ <;>
      rw [heq] <;> exact h
  | admitCert visit c s tip =>
    show P (admitCert floorLowerBoundFor p visit c s tip pool).2.book
    rcases admit_cases floor_lower_bound_quiet p visit c s tip pool with
      ⟨e, pool', heq, -, htakes⟩ | ⟨passed, mid, heq, hpass, -, htakes⟩ <;> rw [heq]
    · exact htakes.keeps htake h
    · rw [book_enter]
      exact hinsert visit c s tip passed mid.book rfl hpass htakes (htakes.keeps htake h)
  | remove ids => exact book_remove htake h
  | rescreen s tip => exact book_evict_all htake (book_evict_all htake h)
  | onBlock b s tip => exact book_evict_all htake (book_evict_all htake (book_remove htake h))

/-- No section changes the policy. -/
theorem section_policy (p : Params) (sec : Section) (pool : Pool) :
    (sec.run p pool).policy = pool.policy := by
  cases sec with
  | countRejected => rfl
  | screen c s tip =>
    show (screen p c c.id s tip pool).2.policy = _
    rcases screen_cases p c c.id s tip pool with ⟨passed, heq, -⟩ | ⟨e, heq | heq, -⟩ <;> simp [heq]
  | admitCert visit c s tip =>
    show (admitCert floorLowerBoundFor p visit c s tip pool).2.policy = _
    rcases admit_cases floor_lower_bound_quiet p visit c s tip pool with
      ⟨e, pool', heq, hpolicy, -⟩ | ⟨passed, mid, heq, -, hpolicy, -⟩ <;> rw [heq]
    · exact hpolicy
    · rw [policy_enter, hpolicy]
  | remove ids => exact policy_remove
  | rescreen s tip => exact policy_evict_all.trans policy_evict_all
  | onBlock b s tip => exact (policy_evict_all.trans policy_evict_all).trans policy_remove

theorem run_sections_policy (p : Params) (sections : List Section) (pool : Pool) :
    (runSections p sections pool).policy = pool.policy := by
  induction sections generalizing pool with
  | nil => rfl
  | cons sec rest ih => exact (ih _).trans (section_policy p sec pool)

/-! ## Calls as sequences of sections -/

/-- A call is a sequence of sections against one state. -/
def BySections (p : Params) (s : StateReader) (pool pool' : Pool) : Prop :=
  ∃ sections : List Section,
    (∀ P : StateReader → Prop, P s → ∀ sec ∈ sections, sec.Allowed p ∧ sec.Against P) ∧
    pool' = runSections p sections pool

section

variable {s : StateReader} {tip : UInt64} {pool' pool'' : Pool}

theorem BySections.nothing : BySections p s pool pool := ⟨[], by simp, rfl⟩

theorem BySections.one (sec : Section)
    (h : ∀ P : StateReader → Prop, P s → sec.Allowed p ∧ sec.Against P) :
    BySections p s pool (runSections p [sec] pool) := ⟨[sec], by simpa using h, rfl⟩

theorem BySections.trans (h : BySections p s pool pool') (h' : BySections p s pool' pool'') :
    BySections p s pool pool'' := by
  obtain ⟨first, hfirst, rfl⟩ := h
  obtain ⟨second, hsecond, rfl⟩ := h'
  refine ⟨first ++ second, fun P hP sec hsec => ?_, foldl_append.symm⟩
  exact (mem_append.mp hsec).elim (hfirst P hP sec) (hsecond P hP sec)

theorem add_by_sections (visit : Visit) (c : Certificate) :
    BySections p s pool (add p visit c s tip pool).2 := by
  rcases add_with_cases floorLowerBoundFor p visit c s tip pool with
    ⟨e, pool', heq, rfl | rfl⟩ | ⟨hstruct, hsig, -, heq⟩ <;> rw [add, heq]
  · exact .nothing
  · exact .one .countRejected fun P _ => ⟨trivial, trivial⟩
  · exact .one (.admitCert visit c s tip) fun P hP => ⟨⟨hstruct, hsig⟩, hP⟩

variable (visits : Certificate → Visit) (certs : List Certificate)

theorem readmit_group_by_sections (prev : Option Hash) :
    BySections p s pool (readmitGroup p visits s tip certs prev pool) := by
  induction certs generalizing prev pool with
  | nil => exact .nothing
  | cons c rest ih =>
    unfold readmitGroup
    split
    · exact .nothing
    · have hadd : BySections p s pool (add p (visits c) c s tip pool).2 := add_by_sections _ _
      rcases hres : add p (visits c) c s tip pool with ⟨e | u, pool'⟩ <;> rw [hres] at hadd
      · exact hadd
      · dsimp only
        split
        · exact hadd.trans (.one (.remove [c.id]) fun P _ => ⟨trivial, trivial⟩)
        · exact hadd.trans (ih _)

/-- `readmitCerts` is a sequence of sections. -/
theorem readmit_by_sections : BySections p s pool (readmitCerts p visits certs s tip pool) := by
  unfold readmitCerts
  induction underwriters certs generalizing pool with
  | nil => exact .nothing
  | cons u rest ih => exact (readmit_group_by_sections visits (group certs u) none).trans ih

end

/-! ## What is counted -/

namespace Book

/-- A sum over an underwriter's entries. -/
def held (b : Book) (w : Entry → ℕ) (u : Address) : ℕ :=
  b.total fun e => if e.underwriter = u then w e else 0

omit [Crypto] in
theorem held_eq_sum (b : Book) (w : Entry → ℕ) (u : Address) :
    b.held w u = ((b.residents.filter fun e => e.underwriter = u).map w).sum := by
  unfold held total
  induction b.residents with
  | nil => rfl
  | cons e rest ih =>
    by_cases hu : e.underwriter = u
    · simp [hu, ih]
    · simp [hu, ih]

variable {b : Book} {e : Entry}

omit [Crypto] in
theorem held_insert (hfresh : b.has e.id = false) (w : Entry → ℕ) (u : Address) :
    (b.insert e).held w u = b.held w u + if e.underwriter = u then w e else 0 :=
  total_insert hfresh _

omit [Crypto] in
theorem held_take (he : e ∈ b.residents) (w : Entry → ℕ) (u : Address) :
    (b.take e).held w u + (if e.underwriter = u then w e else 0) = b.held w u := total_take he _

omit [Crypto] in
theorem held_eq_zero {u : Address} (h : b.held (fun _ => 1) u = 0) (w : Entry → ℕ) :
    b.held w u = 0 := by
  refine total_eq_zero.mpr fun e he => ?_
  have hone := total_eq_zero.mp h e he
  by_cases hu : e.underwriter = u
  · simp [hu] at hone
  · simp [hu]

end Book

/-- What is cached about an entry is what its certificate says, and the certificate passed the
validity rules. -/
structure Entry.Sound (p : Params) (e : Entry) : Prop where
  structural : checkStructural e.cert p = .ok ()
  signatures : checkSignatures e.cert p = .ok ()
  id : e.id = e.cert.id
  bytes : e.bytes = e.cert.sizeBytes
  reserve : ∃ ceiling, e.cert.feeCeiling p = some ceiling ∧
    e.reserve = U256.maxOf e.cert.deposit.amount ceiling

/-- The book's figures are what they stand for. -/
structure Accounted (p : Params) (b : Book) : Prop where
  sound : ∀ e ∈ b.residents, e.Sound p
  count : ∀ u, b.byUnderwriter.get u = b.held (fun _ => 1) u
  reserve : ∀ u, (b.byUnderwriterReserve.get u).toNat = b.held (fun e => e.reserve.toNat) u
  bytes : b.totalBytes = b.total Entry.bytes

theorem accounted_empty (p : Params) : Accounted p .empty :=
  ⟨fun e he => by simp [Book.residents, Book.empty, FinMap.empty] at he, fun _ => rfl,
    fun _ => rfl, rfl⟩

variable {b : Book} {e : Entry}

/-- Taking an entry out keeps the accounts. -/
theorem Accounted.take (h : Accounted p b) (he : e ∈ b.residents) :
    Accounted p (b.take e) := by
  have hcount := held_take he (fun _ => 1)
  have hreserve := held_take he (fun e => e.reserve.toNat)
  have hown := hcount e.underwriter
  have hown' := hreserve e.underwriter
  simp only [if_true] at hown hown'
  have hc := h.count e.underwriter
  have hr := h.reserve e.underwriter
  constructor
  · intro f hf
    exact h.sound f (mem_take.mp hf).1
  · intro u
    have hu := hcount u
    show (if b.byUnderwriter.get e.underwriter ≤ 1 then _ else _ : FinFun Address ℕ).get u = _
    by_cases heq : e.underwriter = u
    · subst heq
      split
      · rw [get_set_self]
        omega
      · rw [get_set_self]
        omega
    · have hother := h.count u
      simp only [heq, if_false] at hu
      split
      · rw [get_set_of_ne _ _ heq]
        omega
      · rw [get_set_of_ne _ _ heq]
        omega
  · intro u
    have hu := hreserve u
    show ((if b.byUnderwriter.get e.underwriter ≤ 1 then _ else _ :
      FinFun Address U256).get u).toNat = _
    by_cases heq : e.underwriter = u
    · subst heq
      split
      · rw [get_set_self]
        exact (held_eq_zero (by omega) _).symm
      · rw [get_set_self, to_nat_sat_sub]
        omega
    · have hother := h.reserve u
      simp only [heq, if_false] at hu
      split
      · rw [get_set_of_ne _ _ heq]
        omega
      · rw [get_set_of_ne _ _ heq]
        omega
  · have hbytes := total_take he Entry.bytes
    have := h.bytes
    show b.totalBytes - e.bytes = _
    omega

/-- Insertion of a fresh entry keeps the accounts. -/
theorem Accounted.insert (h : Accounted p b) (hfresh : b.has e.id = false)
    (hsound : e.Sound p)
    (hfits : b.held (fun e => e.reserve.toNat) e.underwriter + e.reserve.toNat ≤ 2 ^ 256 - 1) :
    Accounted p (b.insert e) := by
  constructor
  · intro f hf
    rcases (mem_insert hfresh).mp hf with rfl | hf
    · exact hsound
    · exact h.sound f hf
  · intro u
    rw [held_insert hfresh]
    show (b.byUnderwriter.set e.underwriter _).get u = _
    by_cases heq : e.underwriter = u
    · subst heq
      rw [h.count]
      simp
    · rw [get_set_of_ne _ _ heq, h.count]
      simp [heq]
  · intro u
    rw [held_insert hfresh]
    show ((b.byUnderwriterReserve.set e.underwriter _).get u).toNat = _
    by_cases heq : e.underwriter = u
    · subst heq
      rw [get_set_self, to_nat_sat_add, h.reserve, Nat.min_eq_left hfits]
      simp
    · rw [get_set_of_ne _ _ heq, h.reserve]
      simp [heq]
  · rw [total_insert hfresh]
    show b.totalBytes + e.bytes = _
    rw [h.bytes]

/-! ## Every section keeps the accounts -/

/-- No native balance is the largest word. -/
def Modest (s : StateReader) : Prop :=
  ∀ slot, isNativeBalanceSlot slot = true → (s.get slot).toNat < 2 ^ 256 - 1

section

variable {c : Certificate} {s : StateReader} {tip : UInt64}
  {passed : Screened} {mid : Book}

theorem native_of_structural (h : checkStructural c p = .ok ()) :
    isNativeBalanceSlot c.deposit.cell = true := by
  simp only [checkStructural, checkDeposit, Except.seq_eq_ok, fail_if_eq_ok] at h
  simpa using h.2.2.2.2.2.1.1

theorem cell_eq_of_structural (h : checkStructural c p = .ok ()) :
    c.deposit.cell = nativeBalanceSlot c.underwriterID := by
  have hword : c.deposit.cell.word = balanceWord nativeAsset := by
    simpa [isNativeBalanceSlot] using native_of_structural h
  show c.deposit.cell = ⟨c.deposit.cell.addr, balanceWord nativeAsset⟩
  rw [← hword]

variable {bump : UInt64} {b : Book}

omit [Crypto] in
theorem Takes.held_le {b' : Book} (h : Takes bump c b b') (w : Entry → ℕ) (u : Address) :
    b'.held w u ≤ b.held w u := by
  induction h with
  | none => exact le_rfl
  | one _ hv _ ih =>
    have := held_take hv.mem w u
    omega

theorem Passes.after_takes (hpass : Passes p pool c c.id s tip passed)
    (hacc : Accounted p pool.book) (hcell : (s.get c.deposit.cell).toNat < 2 ^ 256 - 1)
    (htakes : Takes bump c pool.book mid) :
    mid.has c.id = false ∧
    mid.held (fun e => e.reserve.toNat) c.underwriterID + passed.reserve.toNat ≤
      (s.get c.deposit.cell).toNat ∧
    mid.held (fun _ => 1) c.underwriterID < pool.policy.maxPerUnderwriter.toInt := by
  have hfunded : min (pool.book.held (fun e => e.reserve.toNat) c.underwriterID +
      passed.reserve.toNat) (2 ^ 256 - 1) ≤ (s.get c.deposit.cell).toNat := by
    have h := hpass.funded
    rw [le_def, to_nat_sat_add, hacc.reserve] at h
    exact h
  have hquota := hpass.quota
  rw [hacc.count] at hquota
  have hreserve := htakes.held_le (fun e => e.reserve.toNat) c.underwriterID
  have hcount := htakes.held_le (fun _ => 1) c.underwriterID
  refine ⟨?_, ?_, by omega⟩
  · refine has_eq_false.mpr fun e he => ?_
    exact has_eq_false.mp hpass.fresh e (htakes.sub he)
  omega

theorem sound_entry (hvalid : checkStructural c p = .ok () ∧ checkSignatures c p = .ok ())
    (hpass : Passes p pool c c.id s tip passed) : (entryOf c passed.reserve).Sound p :=
  ⟨hvalid.1, hvalid.2, rfl, rfl, hpass.reserve⟩

theorem section_accounted (sec : Section) (pool : Pool) (hallowed : sec.Allowed p)
    (hmodest : sec.Against Modest) (h : Accounted p pool.book) :
    Accounted p (sec.run p pool).book := by
  refine section_book (fun b e he hb => hb.take he) ?_ h
  rintro visit c s tip passed mid rfl hpass htakes hmid
  have hcell := hmodest c.deposit.cell (native_of_structural hallowed.1)
  obtain ⟨hfresh, hfunded, -⟩ := hpass.after_takes h hcell htakes
  exact hmid.insert hfresh (sound_entry hallowed hpass) (by
    show mid.held _ c.underwriterID + passed.reserve.toNat ≤ _
    omega)

theorem run_accounted {sections : List Section} (policy : Policy)
    (hallowed : ∀ sec ∈ sections, sec.Allowed p ∧ sec.Against Modest) :
    Accounted p (runSections p sections (.new policy)).book :=
  run_sections_invariant (I := fun pool => Accounted p pool.book)
    (fun sec pool hok hmodest h => section_accounted sec pool hok hmodest h) hallowed
    (accounted_empty p)

theorem Accounted.filter_cell (h : Accounted p b) (u : Address) :
    (b.residents.filter fun e => e.cert.deposit.cell = nativeBalanceSlot u) =
      b.residents.filter fun e => e.underwriter = u := by
  refine filter_congr fun e he => ?_
  have hcell := cell_eq_of_structural (h.sound e he).structural
  have hiff : e.cert.deposit.cell = nativeBalanceSlot u ↔ e.underwriter = u := by
    constructor
    · intro heq
      exact congrArg Slot.addr heq
    · rintro rfl
      exact hcell
  simp [hiff]

end

/-! ## The accounts over every interleaving -/

/-- The accounts of the pool, over every sequence of critical sections against states whose native
balances are below the largest value: the counters per underwriter and in total are exactly what
they count, every pooled certificate passed the validity rules, and after an admission the
reserves on the arrival's cell are within its balance and its underwriter is within the quota. -/
theorem pool_accounts (p : Params) (policy : Policy) (sections : List Section)
    (hallowed : ∀ sec ∈ sections, sec.Allowed p ∧ sec.Against Modest) :
    (∀ a, (runSections p sections (.new policy)).book.byUnderwriter.get a =
      ((runSections p sections (.new policy)).book.residents.filter fun e =>
        e.cert.underwriterID = a).length) ∧
    (∀ a, ((runSections p sections (.new policy)).book.byUnderwriterReserve.get a).toNat =
      (((runSections p sections (.new policy)).book.residents.filter fun e =>
        e.cert.deposit.cell = nativeBalanceSlot a).map fun e => e.reserve.toNat).sum) ∧
    (runSections p sections (.new policy)).book.totalBytes =
      ((runSections p sections (.new policy)).book.residents.map fun e =>
        e.cert.sizeBytes).sum ∧
    (∀ e ∈ (runSections p sections (.new policy)).book.residents, e.Sound p) ∧
    ∀ (visit : Visit) (c : Certificate) (s : StateReader) (tip : UInt64) (pool' : Pool),
      (Section.admitCert visit c s tip).Allowed p → Modest s →
      admitCert floorLowerBoundFor p visit c s tip (runSections p sections (.new policy)) =
        (.ok (), pool') →
      ((pool'.book.residents.filter fun e => e.cert.deposit.cell = c.deposit.cell).map
          fun e => e.reserve.toNat).sum ≤ (s.get c.deposit.cell).toNat ∧
        ((pool'.book.residents.filter fun e => e.cert.underwriterID = c.underwriterID).length :
          ℤ) ≤ policy.maxPerUnderwriter.toInt := by
  have hacc := run_accounted policy hallowed
  have hpolicy := run_sections_policy p sections (.new policy)
  generalize runSections p sections (.new policy) = pool at hacc hpolicy ⊢
  have hlength : ∀ (b : Book) (u : Address),
      (b.residents.filter fun e => e.cert.underwriterID = u).length = b.held (fun _ => 1) u := by
    intro b u
    rw [held_eq_sum, map_const', sum_replicate_nat, Nat.mul_one]
    rfl
  refine ⟨fun a => ?_, fun a => ?_, ?_, hacc.sound, ?_⟩
  · rw [hlength, hacc.count]
  · rw [hacc.filter_cell, ← held_eq_sum, hacc.reserve]
  · rw [hacc.bytes]
    exact congrArg sum (map_congr_left fun e he => (hacc.sound e he).bytes)
  · intro visit c s tip pool' hvalid hmodest hadmit
    have hcell := hmodest c.deposit.cell (native_of_structural hvalid.1)
    have hacc' := section_accounted (.admitCert visit c s tip) pool hvalid hmodest hacc
    simp only [Section.run, hadmit] at hacc'
    rcases admit_cases floor_lower_bound_quiet p visit c s tip pool with
      ⟨e, mid, heq, -⟩ | ⟨passed, mid, heq, hpass, -, htakes⟩
    · rw [heq] at hadmit
      simp at hadmit
    · obtain rfl : enter visit c passed.reserve mid = pool' := by
        rw [heq] at hadmit
        exact congrArg Prod.snd hadmit
      obtain ⟨hfresh, hfunded, hquota⟩ := hpass.after_takes hacc hcell htakes
      have hreserves := held_insert (e := entryOf c passed.reserve) hfresh
        (fun e => e.reserve.toNat) c.underwriterID
      have hcounts := held_insert (e := entryOf c passed.reserve) hfresh
        (fun _ => 1) c.underwriterID
      rw [if_pos (show (entryOf c passed.reserve).underwriter = c.underwriterID from rfl)]
        at hreserves hcounts
      rw [book_enter] at hacc' ⊢
      constructor
      · rw [cell_eq_of_structural hvalid.1, hacc'.filter_cell, ← held_eq_sum, hreserves,
          ← cell_eq_of_structural hvalid.1]
        exact hfunded
      · rw [hlength]
        rw [hpolicy] at hquota
        have hpol : (Pool.new policy).policy = policy := rfl
        rw [hpol] at hquota
        omega

end

/-! ## A pool that admits two payments -/

section

open Fold.Sample

attribute [local instance] Reference.crypto

namespace Sample

/-- Every account has the same balance. -/
def flush (balance : ℕ) : StateReader where
  get slot := if isNativeBalanceSlot slot then .ofNat balance else 0
  isSpent _ := false
  seen _ := none

/-- A payment of the second user. -/
def payment₂ : Certificate :=
  certificate (.transfer [⟨nativeAsset, user 2, user 1, .ofNat 5⟩]) 0 (user 2) 5000 [key 2]

end Sample

open Sample

/-- Two payments are admitted and the first is removed: the deposit of the second is the only
reserve, and the bytes are its own. -/
theorem sample_pool_accounts :
    let pool := runSections params [.admitCert .byID payment (flush 6000) 1,
      .admitCert .byID payment₂ (flush 6000) 1, .remove [payment.id]] (.new defaultPolicy)
    (pool.book.byUnderwriterReserve.get (user 1)).toNat = 0 ∧
    (pool.book.byUnderwriterReserve.get (user 2)).toNat = 5000 ∧
    (pool.book.residents.map fun e => e.cert.sizeBytes).sum = pool.book.totalBytes := by
  have hmodest : Modest (flush 6000) := by
    intro slot hslot
    show (if isNativeBalanceSlot slot then ofNat 6000 else 0).toNat < _
    rw [if_pos hslot]
    decide
  have hallowed : ∀ sec ∈ [Section.admitCert .byID payment (flush 6000) 1,
      .admitCert .byID payment₂ (flush 6000) 1, .remove [payment.id]],
      sec.Allowed params ∧ sec.Against Modest := by
    simp only [forall_mem_cons]
    exact ⟨⟨⟨by decide +kernel, by decide +kernel⟩, hmodest⟩,
      ⟨⟨by decide +kernel, by decide +kernel⟩, hmodest⟩, ⟨trivial, trivial⟩, by simp⟩
  exact ⟨by decide +kernel, by decide +kernel,
    (pool_accounts params defaultPolicy _ hallowed).2.2.1.symm⟩

end

end Zycord.Mempool
