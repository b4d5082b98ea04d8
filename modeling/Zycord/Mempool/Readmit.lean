import Zycord.Mempool.Rescreen

/-!
# Readmission after a reorganisation

`readmitCerts` walks each underwriter's certificates in chain order and stops at the first that does
not end up pooled. `readmit_leaves_no_hole` says that what it admits and leaves pooled has, at every
lower place the list names, somebody of its chain below it, whatever its own admissions evict.
-/

namespace Zycord.Mempool

open Book Sample Validity List

section

variable [Crypto]

/-! ## The order of a chain -/

/-- Any two certificates compare. -/
instance : Std.Total ChainOrder where
  total a b := by
    by_cases hlt : a.seq < b.seq
    · exact .inl (.inl hlt)
    · by_cases hgt : b.seq < a.seq
      · exact .inr (.inl hgt)
      · have heq := UInt64.le_antisymm (UInt64.not_lt.mp hgt) (UInt64.not_lt.mp hlt)
        rcases le_total a.id b.id with hle | hle
        · exact .inl (.inr ⟨heq, hle⟩)
        · exact .inr (.inr ⟨heq.symm, hle⟩)

/-- The order is transitive. -/
instance : IsTrans Certificate ChainOrder where
  trans a b c hab hbc := by
    rcases hab with hab | ⟨hab, hid⟩
    · rcases hbc with hbc | ⟨hbc, -⟩
      · exact .inl (UInt64.lt_trans hab hbc)
      · exact .inl (hbc ▸ hab)
    · rcases hbc with hbc | ⟨hbc, hid'⟩
      · exact .inl (hab ▸ hbc)
      · exact .inr ⟨hab.trans hbc, le_trans hid hid'⟩

theorem ChainOrder.seq_le {a b : Certificate} (h : ChainOrder a b) : a.seq ≤ b.seq := by
  rcases h with h | ⟨h, -⟩
  · exact UInt64.le_of_lt h
  · exact UInt64.le_of_eq h

variable {certs done rest : List Certificate} {c d : Certificate} {u : Address}

theorem mem_group : d ∈ group certs u ↔ d ∈ certs ∧ d.underwriterID = u := by
  simp [group]

theorem group_sorted (certs : List Certificate) (u : Address) :
    (group certs u).Pairwise ChainOrder := pairwise_insertionSort ChainOrder _

theorem done_le (hgroup : group certs u = done ++ c :: rest) (hd : d ∈ done) : d.seq ≤ c.seq := by
  have hsorted := group_sorted certs u
  rw [hgroup] at hsorted
  exact ((pairwise_append.mp hsorted).2.2 d hd c mem_cons_self).seq_le

theorem mem_done (hgroup : group certs u = done ++ c :: rest) (hd : d ∈ certs)
    (hu : d.underwriterID = u) (hlt : d.seq < c.seq) : d ∈ done := by
  have hsorted := group_sorted certs u
  have hmem := mem_group.mpr ⟨hd, hu⟩
  rw [hgroup] at hsorted hmem
  rcases mem_append.mp hmem with hmem | hmem
  · exact hmem
  · exfalso
    have hle : c.seq ≤ d.seq := by
      rcases mem_cons.mp hmem with rfl | hmem
      · exact UInt64.le_refl _
      · exact (rel_of_pairwise_cons (pairwise_append.mp hsorted).2.1 hmem).seq_le
    exact UInt64.not_lt.mpr hle hlt

/-! ## What a call admits -/

/-- The certificates of a group that the walk admits. -/
def admittedGroup (p : Params) (visits : Certificate → Visit) (s : StateReader)
    (tipHeight : UInt64) : List Certificate → Option Hash → Pool → List Certificate
  | [], _, _ => []
  | c :: rest, prev, pool =>
    if gone prev pool then []
    else
      match add p (visits c) c s tipHeight pool with
      | (.error _, _) => []
      | (.ok _, pool) =>
        c :: if gone prev pool then []
          else admittedGroup p visits s tipHeight rest (some c.id) pool

/-- The certificates a readmission admits, underwriter by underwriter. -/
def admittedOf (p : Params) (visits : Certificate → Visit) (certs : List Certificate)
    (s : StateReader) (tipHeight : UInt64) : List Address → Pool → List Certificate
  | [], _ => []
  | u :: rest, pool =>
    admittedGroup p visits s tipHeight (group certs u) none pool ++
      admittedOf p visits certs s tipHeight rest
        (readmitGroup p visits s tipHeight (group certs u) none pool)

/-- What a readmission admits. -/
def admitted (p : Params) (visits : Certificate → Visit) (certs : List Certificate)
    (s : StateReader) (tipHeight : UInt64) (pool : Pool) : List Certificate :=
  admittedOf p visits certs s tipHeight (underwriters certs) pool

variable {p : Params} {visit : Visit} {visits : Certificate → Visit} {s : StateReader}
  {tip : UInt64} {pool : Pool} {b b' : Book} {bump : UInt64}

/-! ## Places below an admitted certificate -/

/-- Entries are filed under the ids of their certificates. -/
def Named (b : Book) : Prop := ∀ e ∈ b.residents, e.id = e.cert.id

/-- Whatever is admitted has its predecessors of the list pooled. -/
def Chained (certs admitted : List Certificate) (b : Book) : Prop :=
  ∀ e ∈ b.residents, e.cert ∈ admitted → ∀ d ∈ certs, d.underwriterID = e.cert.underwriterID →
    d.seq < e.cert.seq → occupied b e.cert.underwriterID d.seq = true

omit [Crypto] in
theorem Takes.occupied {e : Entry} {seq : UInt64} (htakes : Takes bump c b b')
    (he : e ∈ b'.residents) (hlt : seq < e.cert.seq)
    (hocc : occupied b e.cert.underwriterID seq = true) :
    occupied b' e.cert.underwriterID seq = true := by
  obtain ⟨g, hg, hu, hseq⟩ := occupied_iff.mp hocc
  refine occupied_iff.mpr ⟨g, ?_, hu, hseq⟩
  by_contra hgone
  have hle : e.cert.seq ≤ g.seq := (htakes.removed hg hgone).2.1 e he hu.symm
  rw [hseq] at hle
  exact UInt64.not_lt.mpr hle hlt

theorem Named.takes (h : Named b) (htakes : Takes bump c b b') : Named b' :=
  fun e he => h e (htakes.sub he)

theorem Named.insert {reserve : U256} (h : Named b) (hfresh : b.has c.id = false) :
    Named (b.insert (entryOf c reserve)) := by
  intro e he
  rcases (mem_insert hfresh).mp he with rfl | he
  · rfl
  · exact h e he

omit [Crypto] in
theorem Chained.takes {admitted : List Certificate} (h : Chained certs admitted b)
    (htakes : Takes bump c b b') : Chained certs admitted b' :=
  fun e he hadm d hd hu hlt => htakes.occupied he hlt (h e (htakes.sub he) hadm d hd hu hlt)

theorem Chained.absent {admitted : List Certificate} (h : Chained certs admitted b)
    (hnamed : Named b) (hfresh : b.has c.id = false) : Chained certs (admitted ++ [c]) b := by
  intro e he hadm
  rcases mem_append.mp hadm with hadm | hadm
  · exact h e he hadm
  · have hid : e.id = c.id := by rw [hnamed e he, mem_singleton.mp hadm]
    exact absurd hid (has_eq_false.mp hfresh e he)

/-- An admission over an occupied chain leaves no gap. -/
theorem Chained.insert {admitted : List Certificate} {reserve : U256}
    (h : Chained certs admitted b) (hnamed : Named b) (hfresh : b.has c.id = false)
    (hbelow : ∀ d ∈ certs, d.underwriterID = c.underwriterID → d.seq < c.seq →
      occupied b c.underwriterID d.seq = true) :
    Chained certs (admitted ++ [c]) (b.insert (entryOf c reserve)) := by
  have hgrows : ∀ v seq, occupied b v seq = true →
      occupied (b.insert (entryOf c reserve)) v seq = true := by
    intro v seq hocc
    obtain ⟨g, hg, hplace⟩ := occupied_iff.mp hocc
    exact occupied_iff.mpr ⟨g, (mem_insert hfresh).mpr (.inr hg), hplace⟩
  intro e he hadm d hd hu hlt
  rcases (mem_insert hfresh).mp he with rfl | he
  · exact hgrows _ _ (hbelow d hd hu hlt)
  · exact hgrows _ _ (h.absent hnamed hfresh e he hadm d hd hu hlt)

/-! ## The walk over a group -/

/-- Where a walk stands: nobody has had a turn yet, or the last one admitted is pooled above all
that had one. -/
def Led (u : Address) (done : List Certificate) (prev : Option Hash) (admitted : List Certificate)
    (b : Book) : Prop :=
  done = [] ∧ prev = none ∨
    ∃ e ∈ b.residents, prev = some e.id ∧ e.cert ∈ admitted ∧ e.cert.underwriterID = u ∧
      ∀ d ∈ done, d.seq ≤ e.cert.seq

/-- Every lower member of the group is in the pool when the next is tried. -/
theorem Led.below {prev : Option Hash} {admitted : List Certificate}
    (hled : Led u done prev admitted b) (hchained : Chained certs admitted b)
    (htakes : Takes bump c b b') (hprev : ∀ id, prev = some id → b'.has id = true)
    (hgroup : group certs u = done ++ c :: rest) :
    ∀ d ∈ certs, d.underwriterID = u → d.seq < c.seq → occupied b' u d.seq = true := by
  intro d hd hu hlt
  have hdone := mem_done hgroup hd hu hlt
  rcases hled with ⟨rfl, -⟩ | ⟨e, he, hid, hadm, heu, habove⟩
  · exact absurd hdone not_mem_nil
  · have he' : e ∈ b'.residents := by
      obtain ⟨f, hf, hfid⟩ := has_iff.mp (hprev _ hid)
      rwa [← eq_of_id (htakes.sub hf) he hfid]
    by_cases hbelow : d.seq < e.cert.seq
    · have hocc := hchained e he hadm d hd (hu.trans heu.symm) hbelow
      rw [← heu]
      exact htakes.occupied he' hbelow hocc
    · have heq := UInt64.le_antisymm (UInt64.not_lt.mp hbelow) (habove d hdone)
      exact occupied_iff.mpr ⟨e, he', heu, heq⟩

omit [Crypto] in
theorem gone_eq_false {prev : Option Hash} :
    gone prev pool = false ↔ ∀ id, prev = some id → pool.book.has id = true := by
  cases prev with
  | none => simp [gone]
  | some id => simp [gone, Pool.has]

/-- The walk over a group leaves no gap in what it admits. -/
theorem walk_chained (rest : List Certificate) :
    ∀ (done : List Certificate) (prev : Option Hash) (pool : Pool) (admitted : List Certificate),
      group certs u = done ++ rest → Named pool.book → Chained certs admitted pool.book →
      Led u done prev admitted pool.book →
      Named (readmitGroup p visits s tip rest prev pool).book ∧
        Chained certs (admitted ++ admittedGroup p visits s tip rest prev pool)
          (readmitGroup p visits s tip rest prev pool).book := by
  induction rest with
  | nil =>
    intro done prev pool admitted _ hnamed hchained _
    exact ⟨hnamed, by simpa [admittedGroup, readmitGroup] using hchained⟩
  | cons c rest ih =>
    intro done prev pool admitted hgroup hnamed hchained hled
    unfold readmitGroup admittedGroup
    by_cases hgone : gone prev pool = true
    · rw [if_pos hgone, if_pos hgone, append_nil]
      exact ⟨hnamed, hchained⟩
    rw [if_neg hgone, if_neg hgone]
    have hprev := gone_eq_false.mp (Bool.eq_false_iff.mpr hgone)
    rcases add_turn p (visits c) c s tip pool with
      ⟨e, pool', heq, htakes⟩ | ⟨reserve, mid, pool', heq, hfresh, htakes, hbook⟩
    · -- refused, after its passes took residents or not
      rw [heq]
      rw [append_nil]
      exact ⟨hnamed.takes htakes, hchained.takes htakes⟩
    · rw [heq]
      dsimp only
      have hfresh' : mid.has c.id = false := has_eq_false.mpr fun e he =>
        has_eq_false.mp hfresh e (htakes.sub he)
      by_cases hgone' : gone prev pool' = true
      · -- its own admission took the member before it, and it leaves again
        rw [if_pos hgone', if_pos hgone']
        have hmem : ∀ {e}, e ∈ (pool'.remove [c.id]).book.residents ↔ e ∈ mid.residents := by
          intro e
          rw [mem_remove, hbook, mem_insert hfresh', mem_singleton]
          constructor
          · intro ⟨he, hid⟩
            exact he.resolve_left fun heq => hid (by rw [heq]; rfl)
          · intro he
            exact ⟨.inr he, has_eq_false.mp hfresh' e he⟩
        have hsame := (hchained.takes htakes).absent (hnamed.takes htakes) hfresh'
        refine ⟨fun e he => hnamed.takes htakes e (hmem.mp he), ?_⟩
        intro e he hadm d hd hu hlt
        obtain ⟨g, hg, hplace⟩ := occupied_iff.mp (hsame e (hmem.mp he) hadm d hd hu hlt)
        exact occupied_iff.mpr ⟨g, hmem.mpr hg, hplace⟩
      · rw [if_neg hgone', if_neg hgone', append_cons]
        have hcu : c.underwriterID = u :=
          (mem_group.mp (hgroup ▸ mem_append_right _ mem_cons_self)).2
        -- the member before it was pooled when it came, so it is not the arrival
        have hstill : ∀ id, prev = some id → mid.has id = true := by
          intro id hid
          obtain ⟨f, hf, hfid⟩ := has_iff.mp
            (gone_eq_false.mp (Bool.eq_false_iff.mpr hgone') id hid)
          rw [hbook] at hf
          rcases (mem_insert hfresh').mp hf with rfl | hf
          · have hhad := hprev id hid
            rw [← hfid] at hhad
            exact absurd (hhad.symm.trans hfresh) (by simp)
          · exact has_iff.mpr ⟨f, hf, hfid⟩
        have hbelow := hled.below hchained htakes hstill hgroup
        rw [← hcu] at hbelow
        refine ih (done ++ [c]) (some c.id) pool' (admitted ++ [c]) ?_ ?_ ?_ ?_
        · rw [hgroup, append_assoc, singleton_append]
        · rw [hbook]
          exact (hnamed.takes htakes).insert hfresh'
        · rw [hbook]
          exact (hchained.takes htakes).insert (hnamed.takes htakes) hfresh' hbelow
        · refine .inr ⟨entryOf c reserve, ?_, rfl, mem_append_right _ mem_cons_self, hcu, ?_⟩
          · rw [hbook]
            exact (mem_insert hfresh').mpr (.inl rfl)
          · exact forall_mem_append.mpr ⟨fun d hd => done_le hgroup hd, by simp [entryOf]⟩

theorem walks_chained (order : List Address) :
    ∀ (pool : Pool) (admitted : List Certificate), Named pool.book →
      Chained certs admitted pool.book →
      Chained certs (admitted ++ admittedOf p visits certs s tip order pool)
        (order.foldl (fun pool u => readmitGroup p visits s tip (group certs u) none pool)
          pool).book := by
  induction order with
  | nil =>
    intro pool admitted _ hchained
    simpa [admittedOf] using hchained
  | cons u order ih =>
    intro pool admitted hnamed hchained
    obtain ⟨hnamed', hchained'⟩ := @walk_chained _ certs u p visits s tip (group certs u) []
      none pool admitted rfl hnamed hchained (.inl ⟨rfl, rfl⟩)
    rw [admittedOf, ← append_assoc]
    exact ih _ _ hnamed' hchained'

theorem run_named (p : Params) (sections : List Section) (policy : Policy) :
    Named (runSections p sections (.new policy)).book := by
  have hnew : Named (Pool.new policy).book :=
    fun e he => by simp [Pool.new, empty, residents, FinMap.empty] at he
  refine sections.foldlRecOn (motive := fun pool : Pool => Named pool.book) _ hnew
    fun pool h sec _ => ?_
  refine section_book (fun b e he hb f hf => hb f (mem_take.mp hf).1) ?_ h
  intro visit c s tip passed mid _ hpass htakes hmid
  refine hmid.insert (has_eq_false.mpr fun e he => ?_)
  exact has_eq_false.mp hpass.fresh e (htakes.sub he)

/-- A readmission leaves no hole in a chain, after every history: what it admitted and is pooled
when it returns has, at every strictly lower place that the list names for its underwriter, a
pooled certificate of that underwriter, whatever the admissions of the call evicted. -/
theorem readmit_leaves_no_hole (p : Params) (policy : Policy) (sections : List Section)
    (visits : Certificate → Visit) (certs : List Certificate) (s : StateReader) (tip : UInt64) :
    ∀ e ∈ (readmitCerts p visits certs s tip (runSections p sections (.new policy))).book.residents,
      e.cert ∈ admitted p visits certs s tip (runSections p sections (.new policy)) →
      ∀ d ∈ certs, d.underwriterID = e.cert.underwriterID → d.seq < e.cert.seq →
      ∃ g ∈ (readmitCerts p visits certs s tip
        (runSections p sections (.new policy))).book.residents,
        g.cert.underwriterID = d.underwriterID ∧ g.cert.seq = d.seq := by
  intro e he hadm d hd hu hlt
  have hchained := @walks_chained _ certs p visits s tip (underwriters certs) _ []
    (run_named p sections policy) (fun e he hadm => absurd hadm not_mem_nil)
  obtain ⟨g, hg, hgu, hseq⟩ := occupied_iff.mp (hchained e he hadm d hd hu hlt)
  exact ⟨g, hg, hgu.trans hu.symm, hseq⟩

end

section

open Fold.Sample

attribute [local instance] Reference.crypto

/-- Two certificates of a chain come back to an empty pool; the upper one has the lower below it. -/
theorem sample_readmit_leaves_no_hole :
    let certs := [priced 1 1 7, priced 1 0 3]
    entryOf (priced 1 1 7) (.ofNat 10000) ∈
      (readmitCerts params (fun _ => .byID) certs (flush 30000) 1
        (runSections params [] (.new defaultPolicy))).book.residents ∧
    ∃ g ∈ (readmitCerts params (fun _ => .byID) certs (flush 30000) 1
        (runSections params [] (.new defaultPolicy))).book.residents,
      g.cert.underwriterID = (priced 1 0 3).underwriterID ∧ g.cert.seq = 0 := by
  intro certs
  have hmem : entryOf (priced 1 1 7) (.ofNat 10000) ∈
      (readmitCerts params (fun _ => .byID) certs (flush 30000) 1
        (runSections params [] (.new defaultPolicy))).book.residents := by
    decide +kernel
  have hadmitted : priced 1 1 7 ∈ admitted params (fun _ => .byID) certs
      (flush 30000) 1 (runSections params [] (.new defaultPolicy)) := by
    decide +kernel
  exact ⟨hmem, readmit_leaves_no_hole params defaultPolicy [] (fun _ => .byID) certs
    (flush 30000) 1 _ hmem hadmitted (priced 1 0 3)
    (mem_cons_of_mem _ mem_cons_self) rfl (by decide)⟩

end

end Zycord.Mempool
