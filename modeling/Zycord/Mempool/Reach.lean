import Mathlib.Data.List.TakeWhile
import Zycord.Mempool.Readmit

/-!
# Readmission with room

When a pool has room for a whole list, nobody is evicted, and a readmission is decided chain by
chain. `readmit_reaches_iff` says exactly when a certificate that passes the screen ends up pooled:
when the certificates of its chain that come before it in the list can all be admitted with it.
One that is committed or pooled already cannot, so it ends the walk before a successor that could
be admitted (`committed_predecessor_stops`).
-/

namespace Zycord.Mempool

open Book Certificate FinFun List Sample U256 Validity

section

variable [Crypto] {p : Params} {visit : Visit} {visits : Certificate → Visit} {s : StateReader}
  {tip : UInt64} {pool pool' : Pool} {c d : Certificate} {u : Address}
  {certs more rest members : List Certificate}

/-! ## Admission with room -/

/-- The pool takes a whole list without reaching a high-water mark. -/
structure HasRoom (certs : List Certificate) (pool : Pool) : Prop where
  count : (pool.book.residents.length + certs.length : ℕ) ≤ pool.policy.highWater.toInt
  bytes : (pool.book.totalBytes + (certs.map Certificate.sizeBytes).sum : ℕ) ≤
    pool.policy.byteHighWater.toInt

/-- `Entered c pool pool'`: the pool `pool'` is `pool` with `c` entered. -/
structure Entered (c : Certificate) (pool pool' : Pool) : Prop where
  book : pool'.book = pool.book.insert (entryOf c c.deposit.amount)
  policy : pool'.policy = pool.policy

variable {passed : Screened} {prev : Option Hash}

theorem reserve_of_structural (hstruct : checkStructural c p = .ok ())
    (hpass : Passes p pool c c.id s tip passed) : passed.reserve = c.deposit.amount := by
  obtain ⟨ceiling, hceiling, hreserve⟩ := hpass.reserve
  have hcovers : ¬ c.deposit.amount < ceiling := by
    simp only [checkStructural, checkDeposit, Except.seq_eq_ok, fail_if_eq_ok, hceiling] at hstruct
    exact hstruct.2.2.2.2.2.1.2.2.2.2.2.2.1
  rw [hreserve, maxOf]
  split_ifs with hle
  · rfl
  · exact (le_antisymm (not_lt.mp hle) (not_lt.mp hcovers)).symm

theorem passes_of_gates (h : (gates p pool c c.id s tip).toBool = true) :
    ∃ passed, Passes p pool c c.id s tip passed := by
  cases hgates : gates p pool c c.id s tip with
  | ok passed => exact ⟨passed, gates_eq_ok.mp hgates⟩
  | error e => simp [hgates, Except.toBool] at h

/-- With room to spare an addition evicts nobody. -/
theorem add_roomy (hroom : HasRoom (c :: rest) pool) :
    (∃ e pool', add p visit c s tip pool = (.error e, pool') ∧ pool'.book = pool.book ∧
      pool'.policy = pool.policy ∧ ¬ Admissible p s tip pool c) ∨
    ∃ pool', add p visit c s tip pool = (.ok (), pool') ∧ Admissible p s tip pool c ∧
      Entered c pool pool' := by
  have hcount : ¬ pool.policy.highWater.toInt ≤ pool.book.residents.length := by
    have := hroom.count
    simp only [length_cons] at this
    omega
  have hbytes : ¬ pool.policy.byteHighWater.toInt < (pool.book.totalBytes + c.sizeBytes : ℕ) := by
    have := hroom.bytes
    simp only [map_cons, sum_cons] at this
    omega
  by_cases hadm : Admissible p s tip pool c
  · obtain ⟨hstruct, hsig, passed, hpass⟩ := hadm
    right
    have hrun : add p visit c s tip pool = (.ok (), enter visit c passed.reserve pool) := by
      rw [add_eq_admit_cert hstruct hsig hpass]
      unfold admitCert screen
      simp only [Bind.bind, gates_eq_ok.mpr hpass, count_pass_eq, if_neg hcount, byte_pass_eq,
        if_neg hbytes]
      rfl
    rw [reserve_of_structural hstruct hpass] at hrun
    exact ⟨_, hrun, ⟨hstruct, hsig, passed, hpass⟩, book_enter _, policy_enter _⟩
  · left
    rcases add_with_cases floorLowerBoundFor p visit c s tip pool with
      ⟨e, pool', heq, rfl | rfl⟩ | ⟨hstruct, hsig, hpass, -⟩
    · exact ⟨e, _, heq, rfl, rfl, hadm⟩
    · exact ⟨e, _, heq, rfl, rfl, hadm⟩
    · exact absurd ⟨hstruct, hsig, hpass⟩ hadm

/-! ## What a list of admissions leaves -/

/-- `Grown certs pool pool'`: the pool `pool'` is `pool` with some certificates of a list entered
and nobody evicted. -/
structure Grown (certs : List Certificate) (pool pool' : Pool) : Prop where
  policy : pool'.policy = pool.policy
  sub : ∀ e ∈ pool.book.residents, e ∈ pool'.book.residents
  new : ∀ e ∈ pool'.book.residents, e ∈ pool.book.residents ∨
    ∃ d ∈ certs, e = entryOf d d.deposit.amount
  count : pool'.book.residents.length ≤ pool.book.residents.length + certs.length
  bytes : pool'.book.totalBytes ≤ pool.book.totalBytes + (certs.map Certificate.sizeBytes).sum
  others : ∀ u, (∀ d ∈ certs, d.underwriterID ≠ u) →
    pool'.book.byUnderwriter.get u = pool.book.byUnderwriter.get u ∧
    pool'.book.byUnderwriterReserve.get u = pool.book.byUnderwriterReserve.get u

theorem Grown.of_book (hbook : pool'.book = pool.book) (hpolicy : pool'.policy = pool.policy) :
    Grown certs pool pool' := by
  constructor
  case policy => exact hpolicy
  all_goals rw [hbook]
  case sub => exact fun e he => he
  case new => exact fun e he => .inl he
  case count => omega
  case bytes => omega
  case others => exact fun u _ => ⟨rfl, rfl⟩

/-- One entry grows the pool by one certificate. -/
theorem Entered.grown (h : Entered c pool pool') (hfresh : pool.book.has c.id = false) :
    Grown [c] pool pool' := by
  have hfresh' : pool.book.has (entryOf c c.deposit.amount).id = false := hfresh
  constructor
  case policy => exact h.policy
  all_goals rw [h.book]
  case sub => exact fun e he => (Book.mem_insert hfresh').mpr (.inr he)
  case new =>
    intro e he
    rcases (Book.mem_insert hfresh').mp he with rfl | he
    · exact .inr ⟨c, mem_cons_self, rfl⟩
    · exact .inl he
  case count => exact (Book.length_insert hfresh').le
  case bytes =>
    simp [Book.insert, entryOf]
  case others =>
    intro u hu
    have hne : c.underwriterID ≠ u := hu c mem_cons_self
    exact ⟨FinFun.get_set_of_ne _ _ hne, FinFun.get_set_of_ne _ _ hne⟩

/-- Growth composes. -/
theorem Grown.trans {pool'' : Pool} (h : Grown certs pool pool') (h' : Grown more pool' pool'') :
    Grown (certs ++ more) pool pool'' := by
  constructor
  case policy => exact h'.policy.trans h.policy
  case sub => exact fun e he => h'.sub e (h.sub e he)
  case new =>
    intro e he
    rcases h'.new e he with he | ⟨d, hd, heq⟩
    · rcases h.new e he with he | ⟨d, hd, heq⟩
      · exact .inl he
      · exact .inr ⟨d, mem_append_left _ hd, heq⟩
    · exact .inr ⟨d, mem_append_right _ hd, heq⟩
  case count =>
    have hfirst := h.count
    have hsecond := h'.count
    rw [length_append]
    omega
  case bytes =>
    have hfirst := h.bytes
    have hsecond := h'.bytes
    rw [map_append, sum_append]
    omega
  case others =>
    intro u hu
    obtain ⟨hcount, hreserve⟩ := h.others u fun d hd => hu d (mem_append_left _ hd)
    obtain ⟨hcount', hreserve'⟩ := h'.others u fun d hd => hu d (mem_append_right _ hd)
    exact ⟨hcount'.trans hcount, hreserve'.trans hreserve⟩

/-- Room for more remains after the first have entered. -/
theorem HasRoom.grown (hroom : HasRoom (certs ++ more) pool) (h : Grown certs pool pool') :
    HasRoom more pool' := by
  have hcount := hroom.count
  have hbytes := hroom.bytes
  have hcount' := h.count
  have hbytes' := h.bytes
  rw [length_append] at hcount
  rw [map_append, sum_append] at hbytes
  constructor
  · rw [h.policy]
    omega
  · rw [h.policy]
    omega

omit [Crypto] in
theorem HasRoom.left (hroom : HasRoom (certs ++ more) pool) : HasRoom certs pool := by
  have hcount := hroom.count
  have hbytes := hroom.bytes
  rw [length_append] at hcount
  rw [map_append, sum_append] at hbytes
  exact ⟨by omega, by omega⟩

theorem Grown.gone (h : Grown certs pool pool') (hprev : gone prev pool = false) :
    gone prev pool' = false := by
  rw [gone_eq_false] at hprev ⊢
  intro id hid
  obtain ⟨e, he, heq⟩ := has_iff.mp (hprev id hid)
  exact has_iff.mpr ⟨e, h.sub e he, heq⟩

theorem Admissible.fresh (h : Admissible p s tip pool c) : pool.book.has c.id = false := by
  obtain ⟨-, -, passed, hpass⟩ := h
  exact hpass.fresh

theorem Entered.gone (h : Entered c pool pool') (hfresh : pool.book.has c.id = false) :
    gone (some c.id) pool' = false := by
  rw [gone_eq_false]
  intro id hid
  obtain rfl := Option.some.inj hid
  refine has_iff.mpr ⟨entryOf c c.deposit.amount, ?_, rfl⟩
  rw [h.book]
  exact (mem_insert (show pool.book.has (entryOf c _).id = false from hfresh)).mpr (.inl rfl)

theorem walk_cons (hroom : HasRoom (c :: rest) pool) (hprev : gone prev pool = false) :
    (¬ Admissible p s tip pool c ∧
      (readmitGroup p visits s tip (c :: rest) prev pool).book = pool.book ∧
      (readmitGroup p visits s tip (c :: rest) prev pool).policy = pool.policy) ∨
    Admissible p s tip pool c ∧ ∃ pool', Entered c pool pool' ∧
      readmitGroup p visits s tip (c :: rest) prev pool =
        readmitGroup p visits s tip rest (some c.id) pool' := by
  rw [readmitGroup, if_neg (by simp [hprev])]
  rcases @add_roomy _ p (visits c) s tip pool c rest hroom with
    ⟨e, pool', heq, hbook, hpolicy, hnot⟩ | ⟨pool', heq, hadm, hentered⟩
  · rw [heq]
    exact .inl ⟨hnot, hbook, hpolicy⟩
  · have hgrown := hentered.grown hadm.fresh
    rw [heq]
    refine .inr ⟨hadm, pool', hentered, ?_⟩
    dsimp only
    rw [if_neg (by simp [hgrown.gone hprev])]

theorem walk_grown (rest : List Certificate) :
    ∀ (prev : Option Hash) (pool : Pool), HasRoom rest pool → gone prev pool = false →
      Grown rest pool (readmitGroup p visits s tip rest prev pool) := by
  induction rest with
  | nil =>
    intro prev pool _ _
    exact .of_book rfl rfl
  | cons c rest ih =>
    intro prev pool hroom hprev
    rcases @walk_cons _ p visits s tip pool c rest prev hroom hprev with
      ⟨-, hbook, hpolicy⟩ | ⟨hadm, pool', hentered, heq⟩
    · exact .of_book hbook hpolicy
    · have hgrown := hentered.grown hadm.fresh
      have hroom' : HasRoom ([c] ++ rest) pool := hroom
      rw [heq]
      exact hgrown.trans (ih _ _ (hroom'.grown hgrown) (hentered.gone hadm.fresh))

/-! ## Members of one chain, one after another -/

/-- The certificates of one underwriter can be admitted one after another: each is valid and
passes the screen, no two have one id, and together they are within the quota and the balance. -/
structure Fit (p : Params) (s : StateReader) (tip : UInt64) (pool : Pool) (u : Address)
    (members : List Certificate) : Prop where
  valid : ∀ d ∈ members, checkStructural d p = .ok () ∧ checkSignatures d p = .ok ()
  passes : ∀ d ∈ members, ∃ passed, Passes p pool d d.id s tip passed
  ids : (members.map Certificate.id).Nodup
  quota : (pool.book.byUnderwriter.get u + members.length : ℕ) ≤ pool.policy.maxPerUnderwriter.toInt
  funds : min ((pool.book.byUnderwriterReserve.get u).toNat +
    (members.map fun d => d.deposit.amount.toNat).sum) (2 ^ 256 - 1) ≤
      (s.get (nativeBalanceSlot u)).toNat

theorem Fit.head (h : Fit p s tip pool u (d :: members)) : Admissible p s tip pool d := by
  obtain ⟨hstruct, hsig⟩ := h.valid d mem_cons_self
  exact ⟨hstruct, hsig, h.passes d mem_cons_self⟩

/-- A chain of one fits when its certificate is admissible. -/
theorem fit_singleton (hu : c.underwriterID = u) :
    Fit p s tip pool u [c] ↔ Admissible p s tip pool c := by
  constructor
  · exact Fit.head
  · intro ⟨hstruct, hsig, passed, hpass⟩
    have hquota := hpass.quota
    have hfunded := hpass.funded
    rw [le_def, to_nat_sat_add, reserve_of_structural hstruct hpass,
      cell_eq_of_structural hstruct, hu] at hfunded
    rw [hu] at hquota
    constructor
    case valid => simpa using ⟨hstruct, hsig⟩
    case passes => simpa using ⟨passed, hpass⟩
    case ids => simp
    case quota =>
      rw [length_singleton]
      omega
    case funds => simpa using hfunded

theorem Entered.figures (h : Entered d pool pool') (hu : d.underwriterID = u) :
    pool'.book.byUnderwriter.get u = pool.book.byUnderwriter.get u + 1 ∧
    pool'.book.byUnderwriterReserve.get u =
      (pool.book.byUnderwriterReserve.get u).satAdd d.deposit.amount := by
  rw [h.book, ← hu]
  exact ⟨get_set_self _ _ _, get_set_self _ _ _⟩

/-- The screen looks at a pool's policy, and in its book at the id and at the underwriter's sums. -/
theorem Passes.moved {id : Hash} (h : Passes p pool c id s tip passed)
    (hpolicy : pool'.policy = pool.policy) (fresh : pool'.has id = false)
    (funded : (pool'.book.byUnderwriterReserve.get c.underwriterID).satAdd passed.reserve ≤
      s.get c.deposit.cell)
    (hquota : pool'.book.byUnderwriter.get c.underwriterID < pool.policy.maxPerUnderwriter.toInt) :
    Passes p pool' c id s tip passed :=
  { h with fresh, funded, lead := hpolicy ▸ h.lead, quota := hpolicy ▸ hquota }

/-- What an entered predecessor changes in the gates. -/
theorem passes_entered (h : Entered d pool pool') (hfresh : pool.book.has d.id = false)
    (hu : d.underwriterID = c.underwriterID) :
    Passes p pool' c c.id s tip passed ↔ Passes p pool c c.id s tip passed ∧ c.id ≠ d.id ∧
      ((pool.book.byUnderwriterReserve.get c.underwriterID).satAdd d.deposit.amount).satAdd
        passed.reserve ≤ s.get c.deposit.cell ∧
      (pool.book.byUnderwriter.get c.underwriterID + 1 : ℕ) <
        pool.policy.maxPerUnderwriter.toInt := by
  have hhas : pool'.book.has c.id = false ↔ pool.book.has c.id = false ∧ c.id ≠ d.id := by
    rw [h.book, has_eq_false, has_eq_false]
    constructor
    · intro hno
      refine ⟨fun e he => hno e ((mem_insert hfresh).mpr (.inr he)), fun heq => ?_⟩
      exact hno (entryOf d d.deposit.amount) ((mem_insert hfresh).mpr (.inl rfl)) heq.symm
    · intro ⟨hno, hne⟩ e he
      rcases (mem_insert hfresh).mp he with rfl | he
      · exact fun heq => hne heq.symm
      · exact hno e he
  obtain ⟨hcount, hreserve⟩ := h.figures hu
  constructor
  · intro hpass
    obtain ⟨hnew, hne⟩ := hhas.mp hpass.fresh
    have hfunded := hpass.funded
    have hquota := hpass.quota
    rw [hreserve] at hfunded
    rw [hcount, h.policy] at hquota
    refine ⟨hpass.moved h.policy.symm hnew ?_ (by rw [h.policy]; omega), hne, hfunded, hquota⟩
    rw [le_def, to_nat_sat_add] at hfunded ⊢
    rw [to_nat_sat_add] at hfunded
    omega
  · intro ⟨hpass, hne, hfunded, hquota⟩
    exact hpass.moved h.policy (hhas.mpr ⟨hpass.fresh, hne⟩) (by rwa [hreserve]) (by rwa [hcount])

/-- A chain fits when its head enters and the rest fits after it. -/
theorem fit_cons (hmembers : members ≠ []) (hu : ∀ m ∈ d :: members, m.underwriterID = u)
    (h : Entered d pool pool') :
    Fit p s tip pool u (d :: members) ↔
      Admissible p s tip pool d ∧ Fit p s tip pool' u members := by
  obtain ⟨hcount, hreserve⟩ := h.figures (hu d mem_cons_self)
  have hchain : ∀ m ∈ members, d.underwriterID = m.underwriterID := fun m hm =>
    (hu d mem_cons_self).trans (hu m (mem_cons_of_mem _ hm)).symm
  have hlength := length_pos_iff.mpr hmembers
  constructor
  · intro hfit
    have hadm := hfit.head
    have hquota := hfit.quota
    have hfunds := hfit.funds
    obtain ⟨hnew, hids⟩ := nodup_cons.mp hfit.ids
    rw [length_cons] at hquota
    rw [map_cons, sum_cons] at hfunds
    refine ⟨hadm, ?_⟩
    constructor
    case valid => exact fun m hm => hfit.valid m (mem_cons_of_mem _ hm)
    case ids => exact hids
    case passes =>
      intro m hm
      obtain ⟨passed, hpass⟩ := hfit.passes m (mem_cons_of_mem _ hm)
      have hstruct := (hfit.valid m (mem_cons_of_mem _ hm)).1
      have hmu := hu m (mem_cons_of_mem _ hm)
      have hle : m.deposit.amount.toNat ≤ (members.map fun d => d.deposit.amount.toNat).sum :=
        single_le_sum (fun _ _ => Nat.zero_le _) _ (mem_map_of_mem hm)
      refine ⟨passed, (passes_entered h hadm.fresh (hchain m hm)).mpr ⟨hpass, ?_, ?_, ?_⟩⟩
      · exact fun heq => hnew (heq ▸ mem_map_of_mem hm)
      · rw [le_def, to_nat_sat_add, to_nat_sat_add,
          reserve_of_structural hstruct hpass, cell_eq_of_structural hstruct, hmu]
        omega
      · rw [hmu]
        omega
    case quota =>
      rw [h.policy]
      omega
    case funds =>
      rw [hreserve, to_nat_sat_add]
      omega
  · intro ⟨hadm, hfit⟩
    have hquota := hfit.quota
    have hfunds := hfit.funds
    rw [h.policy] at hquota
    rw [hreserve, to_nat_sat_add] at hfunds
    have hrest : ∀ m ∈ members, ∀ passed, Passes p pool' m m.id s tip passed →
        Passes p pool m m.id s tip passed ∧ m.id ≠ d.id := by
      intro m hm passed hpass
      obtain ⟨hbefore, hne, -⟩ := (passes_entered h hadm.fresh (hchain m hm)).mp hpass
      exact ⟨hbefore, hne⟩
    obtain ⟨hstruct, hsig, hpass⟩ := hadm
    constructor
    case valid => exact forall_mem_cons.mpr ⟨⟨hstruct, hsig⟩, hfit.valid⟩
    case passes =>
      exact forall_mem_cons.mpr ⟨hpass, fun m hm =>
        (hfit.passes m hm).imp fun passed hpass => (hrest m hm passed hpass).1⟩
    case ids =>
      refine nodup_cons.mpr ⟨fun hmem => ?_, hfit.ids⟩
      obtain ⟨m, hm, hid⟩ := mem_map.mp hmem
      obtain ⟨passed, hpass⟩ := hfit.passes m hm
      exact (hrest m hm passed hpass).2 hid
    case quota =>
      rw [length_cons]
      omega
    case funds =>
      rw [map_cons, sum_cons]
      omega

/-- The walk over a group reaches a certificate when its chain fits. -/
theorem walk_reaches (before : List Certificate) :
    ∀ (prev : Option Hash) (pool : Pool), HasRoom (before ++ c :: rest) pool →
      gone prev pool = false → (∀ m ∈ before ++ [c], m.underwriterID = u) → c ∉ before →
      (∀ e ∈ pool.book.residents, e.cert ≠ c) →
      ((∃ e ∈ (readmitGroup p visits s tip (before ++ c :: rest) prev pool).book.residents,
        e.cert = c) ↔ Fit p s tip pool u (before ++ [c])) := by
  induction before with
  | nil =>
    intro prev pool hroom hprev hu _ habsent
    rw [nil_append] at hroom hu ⊢
    rw [nil_append, fit_singleton (hu c mem_cons_self)]
    rcases @walk_cons _ p visits s tip pool c rest prev hroom hprev with
      ⟨hnot, hbook, -⟩ | ⟨hadm, pool', hentered, heq⟩
    · rw [hbook]
      exact iff_of_false (fun ⟨e, he, hcert⟩ => habsent e he hcert) hnot
    · have hroom' : HasRoom ([c] ++ rest) pool := hroom
      have hgrown := @walk_grown _ p visits s tip rest (some c.id) pool'
        (hroom'.grown (hentered.grown hadm.fresh)) (hentered.gone hadm.fresh)
      rw [heq]
      refine iff_of_true ⟨entryOf c c.deposit.amount, hgrown.sub _ ?_, rfl⟩ hadm
      rw [hentered.book]
      exact (mem_insert
        (show pool.book.has (entryOf c _).id = false from hadm.fresh)).mpr (.inl rfl)
  | cons d before ih =>
    intro prev pool hroom hprev hu hnew habsent
    rw [cons_append] at hroom hu ⊢
    rw [cons_append]
    have hne : c ≠ d := ne_of_not_mem_cons hnew
    have hnew := not_mem_of_not_mem_cons hnew
    rcases @walk_cons _ p visits s tip pool d _ prev hroom hprev with
      ⟨hnot, hbook, -⟩ | ⟨hadm, pool', hentered, heq⟩
    · rw [hbook]
      exact iff_of_false (fun ⟨e, he, hcert⟩ => habsent e he hcert) fun hfit => hnot hfit.head
    · have hroom' : HasRoom ([d] ++ (before ++ c :: rest)) pool := hroom
      have hgrown := hentered.grown hadm.fresh
      rw [heq, ih _ _ (hroom'.grown hgrown) (hentered.gone hadm.fresh)
        (fun m hm => hu m (mem_cons_of_mem _ hm)) hnew, fit_cons (by simp) hu hentered]
      · exact (and_iff_right hadm).symm
      · intro e he
        rcases hgrown.new e he with he | ⟨d', hd', rfl⟩
        · exact habsent e he
        · rw [mem_singleton.mp hd']
          exact fun heq => hne heq.symm

/-! ## Chain after chain -/

/-- Entering certificates of other chains changes nothing for a chain but which ids are taken. -/
theorem Grown.fit (h : Grown certs pool pool') (hother : ∀ d ∈ certs, d.underwriterID ≠ u)
    (hu : ∀ m ∈ members, m.underwriterID = u) :
    Fit p s tip pool' u members ↔
      Fit p s tip pool u members ∧ ∀ m ∈ members, pool'.book.has m.id = false := by
  obtain ⟨hcount, hreserve⟩ := h.others u hother
  have hpasses : ∀ m ∈ members, ∀ passed, Passes p pool' m m.id s tip passed ↔
      Passes p pool m m.id s tip passed ∧ pool'.book.has m.id = false := by
    intro m hm passed
    obtain ⟨hcount, hreserve⟩ := h.others m.underwriterID ((hu m hm).symm ▸ hother)
    constructor
    · intro hpass
      have hfresh : pool.book.has m.id = false := has_eq_false.mpr fun e he =>
        has_eq_false.mp hpass.fresh e (h.sub e he)
      exact ⟨hpass.moved h.policy.symm hfresh (hreserve ▸ hpass.funded) (hcount ▸ hpass.quota),
        hpass.fresh⟩
    · intro ⟨hpass, hfresh⟩
      exact hpass.moved h.policy hfresh (by rw [hreserve]; exact hpass.funded)
        (by rw [hcount]; exact hpass.quota)
  constructor
  · intro hfit
    have hquota := hfit.quota
    have hfunds := hfit.funds
    rw [hcount, h.policy] at hquota
    rw [hreserve] at hfunds
    refine ⟨⟨hfit.valid, fun m hm => ?_, hfit.ids, hquota, hfunds⟩, fun m hm => ?_⟩
    · exact (hfit.passes m hm).imp fun passed hpass => ((hpasses m hm passed).mp hpass).1
    · exact (hfit.passes m hm).elim fun _ hpass => hpass.fresh
  · intro ⟨hfit, hfresh⟩
    refine ⟨hfit.valid, fun m hm => ?_, hfit.ids, ?_, ?_⟩
    · exact (hfit.passes m hm).imp fun passed hpass => (hpasses m hm passed).mpr
        ⟨hpass, hfresh m hm⟩
    · rw [hcount, h.policy]
      exact hfit.quota
    · rw [hreserve]
      exact hfit.funds

/-- Entering certificates of other chains neither pools a certificate nor removes it. -/
theorem Grown.pooled_iff (h : Grown certs pool pool')
    (hother : ∀ d ∈ certs, d.underwriterID ≠ c.underwriterID) :
    (∃ e ∈ pool'.book.residents, e.cert = c) ↔ ∃ e ∈ pool.book.residents, e.cert = c := by
  constructor
  · rintro ⟨e, he, hcert⟩
    rcases h.new e he with he | ⟨d, hd, rfl⟩
    · exact ⟨e, he, hcert⟩
    · exact absurd (congrArg underwriterID hcert) (hother d hd)
  · rintro ⟨e, he, hcert⟩
    exact ⟨e, h.sub e he, hcert⟩

/-- Readmit the groups of some underwriters in turn. -/
def walks (p : Params) (visits : Certificate → Visit) (certs : List Certificate) (s : StateReader)
    (tip : UInt64) (order : List Address) (pool : Pool) : Pool :=
  order.foldl (fun pool u => readmitGroup p visits s tip (group certs u) none pool) pool

theorem walks_grown (order : List Address) :
    ∀ pool, HasRoom (order.flatMap (group certs)) pool →
      Grown (order.flatMap (group certs)) pool (walks p visits certs s tip order pool) := by
  induction order with
  | nil =>
    intro pool _
    exact .of_book rfl rfl
  | cons u order ih =>
    intro pool hroom
    have hgrown := @walk_grown _ p visits s tip (group certs u) none pool hroom.left rfl
    exact hgrown.trans (ih _ (hroom.grown hgrown))

/-- The groups together are the certificates of their underwriters. -/
theorem groups_perm {order : List Address} (hnodup : order.Nodup) :
    (order.flatMap (group certs)).Perm (certs.filter fun d => d.underwriterID ∈ order) := by
  induction order with
  | nil => simp
  | cons u order ih =>
    obtain ⟨hnew, hnodup⟩ := nodup_cons.mp hnodup
    have hown : (certs.filter fun d => d.underwriterID ∈ u :: order).filter
        (fun d => d.underwriterID = u) = certs.filter fun d => d.underwriterID = u := by
      rw [filter_filter]
      refine filter_congr fun d _ => ?_
      by_cases hu : d.underwriterID = u <;> simp [hu]
    have hothers : (certs.filter fun d => d.underwriterID ∈ u :: order).filter
        (fun d => !decide (d.underwriterID = u)) =
          certs.filter fun d => d.underwriterID ∈ order := by
      rw [filter_filter]
      refine filter_congr fun d _ => ?_
      by_cases hu : d.underwriterID = u
      · simp [hu, hnew]
      · simp [hu]
    have hsplit := filter_append_perm (fun d : Certificate => decide (d.underwriterID = u))
      (certs.filter fun d => d.underwriterID ∈ u :: order)
    rw [hown, hothers] at hsplit
    exact ((perm_insertionSort _ _).append (ih hnodup)).trans hsplit

omit [Crypto] in
theorem underwriters_nodup (certs : List Certificate) : (underwriters certs).Nodup :=
  (perm_insertionSort _ _).nodup_iff.mpr (nodup_dedup _)

omit [Crypto] in
theorem mem_underwriters : u ∈ underwriters certs ↔ ∃ d ∈ certs, d.underwriterID = u := by
  simp [underwriters]

theorem all_groups_perm (certs : List Certificate) :
    ((underwriters certs).flatMap (group certs)).Perm certs := by
  have hall : (certs.filter fun d => d.underwriterID ∈ underwriters certs) = certs :=
    filter_eq_self.mpr fun d hd => decide_eq_true (mem_underwriters.mpr ⟨d, hd, rfl⟩)
  have hperm := @groups_perm _ certs _ (underwriters_nodup certs)
  rwa [hall] at hperm

omit [Crypto] in
theorem HasRoom.perm (h : HasRoom certs pool) (hperm : more.Perm certs) : HasRoom more pool := by
  constructor
  · rw [hperm.length_eq]
    exact h.count
  · rw [(hperm.map _).sum_eq]
    exact h.bytes

/-- The certificates of a chain up to one of them, in chain order. -/
def upTo (certs : List Certificate) (c : Certificate) : List Certificate :=
  (group certs c.underwriterID).takeWhile (· ≠ c) ++ [c]

/-- The underwriters whose groups come before one of them. -/
def earlier (certs : List Certificate) (u : Address) : List Address :=
  (underwriters certs).takeWhile (· ≠ u)

theorem mem_of_mem_groups {order : List Address} (hd : d ∈ order.flatMap (group certs)) :
    d.underwriterID ∈ order := by
  obtain ⟨u, hu, hd⟩ := mem_flatMap.mp hd
  rwa [(mem_group.mp hd).2]

theorem ne_of_mem_earlier (hd : d ∈ (earlier certs u).flatMap (group certs)) :
    d.underwriterID ≠ u := by
  intro heq
  have hne := mem_takeWhile_imp (mem_of_mem_groups hd)
  simp [heq] at hne

omit [Crypto] in
theorem split_at_first {α : Type*} [DecidableEq α] {x : α} {xs : List α} (hx : x ∈ xs) :
    ∃ rest, xs = xs.takeWhile (· ≠ x) ++ x :: rest := by
  obtain ⟨before, rest, rfl, hnot⟩ := eq_append_cons_of_mem hx
  refine ⟨rest, ?_⟩
  have hne : ∀ y ∈ before, decide (y ≠ x) = true :=
    fun y hy => decide_eq_true fun h => hnot (h ▸ hy)
  rw [takeWhile_append_of_pos hne, takeWhile_cons_of_neg (by simp), append_nil]

/-- A certificate is pooled when its chain fits and its group comes to it fresh. -/
theorem pooled_iff_walks (hnamed : ∀ e ∈ pool.book.residents, e.id = e.cert.id) (hc : c ∈ certs)
    (hpass : ∃ passed, Passes p pool c c.id s tip passed) (hroom : HasRoom certs pool) :
    (∃ e ∈ (readmitCerts p visits certs s tip pool).book.residents, e.cert = c) ↔
    Fit p s tip pool c.underwriterID (upTo certs c) ∧ ∀ d ∈ upTo certs c,
      (walks p visits certs s tip (earlier certs c.underwriterID) pool).book.has d.id = false := by
  obtain ⟨passed, hpass⟩ := hpass
  -- the chains before, the certificate's own, and those after it
  obtain ⟨later, horder⟩ := split_at_first (mem_underwriters.mpr ⟨c, hc, rfl⟩)
  obtain ⟨after, hgroup⟩ := split_at_first (mem_group.mpr ⟨hc, rfl⟩)
  have hnodup := underwriters_nodup certs
  have hall := hroom.perm (all_groups_perm certs)
  rw [horder, flatMap_append] at hall
  rw [horder] at hnodup
  have hstart := @walks_grown _ p visits s tip certs (earlier certs c.underwriterID) pool hall.left
  have hroom' := hall.grown hstart
  have hown := @walk_grown _ p visits s tip _ none _ hroom'.left rfl
  have hlater := @walks_grown _ p visits s tip certs later _ (hroom'.grown hown)
  have hotherlater : ∀ d ∈ later.flatMap (group certs),
      d.underwriterID ≠ c.underwriterID := fun d hd heq =>
    (nodup_cons.mp (nodup_append.mp hnodup).2.1).1 (heq ▸ mem_of_mem_groups hd)
  have hrun : readmitCerts p visits certs s tip pool = walks p visits certs s tip later
      (readmitGroup p visits s tip (group certs c.underwriterID) none
        (walks p visits certs s tip (earlier certs c.underwriterID) pool)) := by
    unfold readmitCerts walks
    rw [horder, foldl_append]
    rfl
  rw [hrun, hlater.pooled_iff hotherlater]
  have hu : ∀ m ∈ upTo certs c, m.underwriterID = c.underwriterID :=
    forall_mem_append.mpr ⟨fun m hm => (mem_group.mp (takeWhile_subset _ hm)).2, by simp⟩
  have habsent : ¬ ∃ e ∈ pool.book.residents, e.cert = c := fun ⟨e, he, hcert⟩ =>
    has_eq_false.mp hpass.fresh e he (by rw [hnamed e he, hcert])
  rw [← hstart.pooled_iff fun _ => ne_of_mem_earlier] at habsent
  have hroom'' := hroom'.left
  rw [hgroup] at hroom'' ⊢
  rw [walk_reaches _ none _ hroom'' rfl hu (fun hmem => ?_) fun e he hcert =>
    habsent ⟨e, he, hcert⟩]
  · exact hstart.fit (fun _ => ne_of_mem_earlier) hu
  · simpa using mem_takeWhile_imp hmem

/-- The walks over other chains take none of a chain's ids, unless a certificate of the list and
of another chain has one of them. -/
theorem walks_fresh (hroom : HasRoom certs pool) (hfresh : pool.book.has d.id = false)
    (hids : ∀ d' ∈ certs, d'.id = d.id → d'.underwriterID = u) :
    (walks p visits certs s tip (earlier certs u) pool).book.has d.id = false := by
  have hall := hroom.perm (all_groups_perm certs)
  have hsplit : earlier certs u ++ (underwriters certs).dropWhile (· ≠ u) = underwriters certs :=
    takeWhile_append_dropWhile
  rw [← hsplit, flatMap_append] at hall
  have hgrown := @walks_grown _ p visits s tip certs (earlier certs u) pool hall.left
  refine has_eq_false.mpr fun e he hid => ?_
  rcases hgrown.new e he with he | ⟨d', hd', rfl⟩
  · exact has_eq_false.mp hfresh e he hid
  · obtain ⟨v, -, hmem⟩ := mem_flatMap.mp hd'
    exact ne_of_mem_earlier hd' (hids d' (mem_group.mp hmem).1 hid)

/-- When the pool has room for the whole list, a certificate of the list that passes the screen is
pooled when the readmission returns exactly if the certificates of its chain that come before it,
and it, can be admitted one after another, and no certificate of another chain has taken one of
their ids before their turn. No certificate has if none of the list has such an id. -/
theorem readmit_reaches_iff (p : Params) (policy : Policy) (sections : List Section)
    (visits : Certificate → Visit) (certs : List Certificate) (s : StateReader) (tip : UInt64)
    (c : Certificate) (hc : c ∈ certs)
    (hpass : ∃ passed, Passes p (runSections p sections (.new policy)) c c.id s tip passed)
    (hroom : HasRoom certs (runSections p sections (.new policy))) :
    ((∃ e ∈ (readmitCerts p visits certs s tip
        (runSections p sections (.new policy))).book.residents, e.cert = c) ↔
      Fit p s tip (runSections p sections (.new policy)) c.underwriterID (upTo certs c) ∧
        ∀ d ∈ upTo certs c, (walks p visits certs s tip (earlier certs c.underwriterID)
          (runSections p sections (.new policy))).book.has d.id = false) ∧
    ((∀ d ∈ upTo certs c, ∀ d' ∈ certs, d'.id = d.id → d'.underwriterID = c.underwriterID) →
      ((∃ e ∈ (readmitCerts p visits certs s tip
          (runSections p sections (.new policy))).book.residents, e.cert = c) ↔
        Fit p s tip (runSections p sections (.new policy)) c.underwriterID (upTo certs c))) := by
  have hiff := @pooled_iff_walks _ p visits s tip _ c certs (run_named p sections policy) hc hpass
    hroom
  refine ⟨hiff, fun hids => ?_⟩
  rw [hiff, and_iff_left_iff_imp]
  intro hfit d hd
  obtain ⟨passed, hpass⟩ := hfit.passes d hd
  exact walks_fresh hroom hpass.fresh (hids d hd)

end

/-! ## A chain whose first certificate is committed -/

section

open Fold.Sample

attribute [local instance] Reference.crypto

namespace Sample

/-- Two payments of one account. -/
def chain : List Certificate := [priced 1 0 3, priced 1 1 7]

/-- The first of them is committed. -/
def committed : StateReader :=
  { flush 30000 with seen := fun id => if id = (priced 1 0 3).id then some 1 else none }

/-- A pool without entries. -/
def emptyPool : Pool := runSections params [] (.new defaultPolicy)

end Sample

theorem Sample.has_room : HasRoom chain emptyPool := ⟨by decide +kernel, by decide +kernel⟩

/-- The first certificate of a chain was committed on the winning branch, the second is valid and
passes the screen, and the pool is empty: the walk stops at the first and the second is lost. -/
theorem committed_predecessor_stops :
    (∀ d ∈ chain, d.underwriterID = (priced 1 1 7).underwriterID →
      d.seq < (priced 1 1 7).seq → (committed.seen d.id).isSome = true) ∧
    Admissible params committed 1 emptyPool (priced 1 1 7) ∧ HasRoom chain emptyPool ∧
    ¬ ∃ e ∈ (readmitCerts params (fun _ => .byID) chain committed 1 emptyPool).book.residents,
      e.cert = priced 1 1 7 := by
  refine ⟨by decide +kernel, ⟨by decide +kernel, by decide +kernel, ?_⟩, has_room, ?_⟩
  · exact passes_of_gates (by decide +kernel)
  · decide +kernel

/-- With neither committed, both come back: they can be admitted one after the other, and the list
has no certificate of another chain. -/
theorem sample_readmit_reaches :
    (∃ e ∈ (readmitCerts params (fun _ => .byID) chain (flush 30000) 1
      emptyPool).book.residents, e.cert = priced 1 1 7) ∧
    Fit params (flush 30000) 1 emptyPool (priced 1 1 7).underwriterID
      (upTo chain (priced 1 1 7)) := by
  have hpooled : ∃ e ∈ (readmitCerts params (fun _ => .byID) chain (flush 30000) 1
      emptyPool).book.residents, e.cert = priced 1 1 7 := by
    decide +kernel
  have hone : ∀ d ∈ chain, d.underwriterID = (priced 1 1 7).underwriterID := by
    decide +kernel
  exact ⟨hpooled, ((readmit_reaches_iff params defaultPolicy [] (fun _ => .byID) chain
    (flush 30000) 1 (priced 1 1 7) (mem_cons_of_mem _ mem_cons_self)
    (passes_of_gates (by decide +kernel)) has_room).2 fun _ _ d hd _ => hone d hd).mp hpooled⟩

end

end Zycord.Mempool
