import Zycord.Mempool.Eviction

/-!
# Screening the pool again

What a sweep against a new state and tip leaves behind. `rescreen_settles` is the post-condition
over every history against states whose native balances are below the largest value: every
survivor can be included in the next block as far as the pool can tell, every cell covers the
survivors it backs, no survivor sits above a place its chain has lost, and a second sweep finds
nothing to do. With a balance of the largest value the reserves saturate, and the shed stops too
early (`saturated_survivor`).
-/

namespace Zycord.Mempool

open Book Nat Sample U256 Validity List

/-! ## The places a chain has lost -/

section

variable {b : Book} {vacated : List Entry} {e : Entry} {pool : Pool}

variable {x seq : UInt64} {g : Entry}

theorem lower_any_iff {found : Option UInt64} :
    ((if found.all fun low => seq < low then some seq else found).any fun low => low < x) = true ↔
      found.any (fun low => low < x) = true ∨ seq < x := by
  cases found with
  | none => simp
  | some low =>
    simp only [Option.all_some, Option.any_some, decide_eq_true_eq]
    by_cases hlt : seq < low
    · rw [if_pos hlt]
      simp only [Option.any_some, decide_eq_true_eq]
      exact ⟨.inr, fun h => h.elim (fun h => UInt64.lt_trans hlt h) id⟩
    · rw [if_neg hlt]
      simp only [Option.any_some, decide_eq_true_eq]
      exact ⟨.inl, fun h => h.elim id fun h => UInt64.lt_of_le_of_lt (UInt64.not_lt.mp hlt) h⟩

theorem lowest_any_iff {seqs : List UInt64} :
    ((lowest seqs).any fun low => low < x) = true ↔ ∃ seq ∈ seqs, seq < x := by
  suffices h : ∀ found : Option UInt64, ((seqs.foldl (fun found seq =>
        if found.all fun low => seq < low then some seq else found) found).any
          fun low => low < x) = true ↔
      found.any (fun low => low < x) = true ∨ ∃ seq ∈ seqs, seq < x by
    simpa [lowest] using h none
  induction seqs with
  | nil => simp
  | cons seq rest ih =>
    intro found
    rw [foldl_cons, ih, lower_any_iff]
    simp [or_assoc]

theorem occupied_iff {u : Address} :
    occupied b u seq = true ↔ ∃ g ∈ b.residents, g.underwriter = u ∧ g.seq = seq := by
  simp [occupied]

theorem stranded_iff :
    stranded b vacated e = true ↔ ∃ g ∈ vacated, g.underwriter = e.underwriter ∧
      occupied b e.underwriter g.seq = false ∧ g.seq < e.seq := by
  unfold stranded cut
  rw [lowest_any_iff]
  simp only [mem_filter, mem_map, decide_eq_true_eq, Bool.not_eq_true']
  constructor
  · intro ⟨seq, ⟨⟨g, ⟨hg, hu⟩, hseq⟩, hfree⟩, hlt⟩
    subst hseq
    exact ⟨g, hg, hu, hfree, hlt⟩
  · intro ⟨g, hg, hu, hfree, hlt⟩
    exact ⟨g.seq, ⟨⟨g, ⟨hg, hu⟩, rfl⟩, hfree⟩, hlt⟩

theorem mem_evict_entries {gone : List Entry} (hsub : ∀ g ∈ gone, g ∈ pool.book.residents) :
    e ∈ (pool.evictAll ((gone.map Entry.id).insertionSort (· ≤ ·))).book.residents ↔
      e ∈ pool.book.residents ∧ e ∉ gone := by
  rw [mem_evict_all, mem_insertionSort, mem_map]
  refine and_congr_right fun he => not_congr ⟨?_, fun hgone => ⟨e, hgone, rfl⟩⟩
  intro ⟨g, hg, hid⟩
  rwa [← Book.eq_of_id (hsub g hg) he hid]

theorem mem_truncate :
    e ∈ (truncateStrandedLocked vacated pool).book.residents ↔
      e ∈ pool.book.residents ∧ stranded pool.book vacated e = false := by
  unfold truncateStrandedLocked
  rw [mem_evict_entries fun g hg => (mem_filter.mp hg).1]
  refine and_congr_right fun he => ?_
  simp [he]

section
variable (he : e ∈ (truncateStrandedLocked vacated pool).book.residents)
  (hu : e.underwriter = g.underwriter)
include he hu

theorem truncate_takes_above (hg : g ∈ pool.book.residents)
    (hgone : g ∉ (truncateStrandedLocked vacated pool).book.residents) : e.seq ≤ g.seq := by
  have hstranded : stranded pool.book vacated g = true := by
    by_contra hfree
    exact hgone (mem_truncate.mpr ⟨hg, by simpa using hfree⟩)
  obtain ⟨lost, hlost, hu', hfree, hlt⟩ := stranded_iff.mp hstranded
  rw [← hu] at hu' hfree
  refine UInt64.not_lt.mp fun habove => ?_
  have hsafe := (mem_truncate.mp he).2
  rw [stranded_iff.mpr ⟨lost, hlost, hu', hfree, UInt64.lt_trans hlt habove⟩] at hsafe
  exact Bool.false_ne_true hsafe.symm

theorem truncate_reachable (hg : g ∈ vacated) (hlt : g.seq < e.seq) :
    occupied (truncateStrandedLocked vacated pool).book g.underwriter g.seq = true := by
  have hstood : occupied pool.book e.underwriter g.seq = true := by
    by_contra hfree
    have hsafe := (mem_truncate.mp he).2
    rw [stranded_iff.mpr ⟨g, hg, hu.symm, by simpa using hfree, hlt⟩] at hsafe
    exact Bool.false_ne_true hsafe.symm
  obtain ⟨f, hf, hfu, hseq⟩ := occupied_iff.mp hstood
  refine occupied_iff.mpr ⟨f, ?_, hfu.trans hu, hseq⟩
  -- whoever stands there is below `e`, so it stays with it
  by_contra hgone
  have hle := truncate_takes_above he hfu.symm hf hgone
  rw [hseq] at hle
  exact UInt64.not_lt.mpr hle hlt

end

/-! ## What the cells cover -/

/-- What entries reserve together. -/
def reserved (entries : List Entry) : ℕ := (entries.map fun e => e.reserve.toNat).sum

@[simp] theorem reserved_cons (rest : List Entry) :
    reserved (e :: rest) = e.reserve.toNat + reserved rest := by
  simp [reserved]

theorem reserved_perm {xs ys : List Entry} (h : xs.Perm ys) : reserved xs = reserved ys :=
  (h.map fun e : Entry => e.reserve.toNat).sum_eq

theorem reserved_le {few many : List Entry} (hnodup : few.Nodup) (hsub : few ⊆ many) :
    reserved few ≤ reserved many := by
  obtain ⟨part, hperm, hpart⟩ := subperm_of_subset hnodup hsub
  rw [← reserved_perm hperm]
  exact (hpart.map _).sum_le_sum fun _ _ => zero_le _

theorem foldl_sat_add (entries : List Entry) (acc : U256)
    (hfits : acc.toNat + reserved entries ≤ 2 ^ 256 - 1) :
    (entries.foldl (fun sum e => sum.satAdd e.reserve) acc).toNat =
      acc.toNat + reserved entries := by
  induction entries generalizing acc with
  | nil => simp [reserved]
  | cons e rest ih =>
    rw [reserved_cons] at hfits ⊢
    have hstep : (acc.satAdd e.reserve).toNat = acc.toNat + e.reserve.toNat := by
      rw [to_nat_sat_add]
      exact min_eq_left (by omega)
    rw [foldl_cons, ih _ (by omega), hstep, add_assoc]

/-- Shedding drops a prefix, until the rest is covered. -/
theorem shed_loop_spec (balance : U256) (entries : List Entry) (sum : U256)
    (hsum : sum.toNat = reserved entries) :
    ∃ n, shedLoop balance sum entries = entries.take n ∧
      reserved (entries.drop n) ≤ balance.toNat ∧ (reserved entries ≤ balance.toNat → n = 0) := by
  induction entries generalizing sum with
  | nil => exact ⟨0, rfl, zero_le _, fun _ => rfl⟩
  | cons e rest ih =>
    rw [reserved_cons] at hsum
    unfold shedLoop
    by_cases hlt : balance < sum
    · have hleft : (sum.satSub e.reserve).toNat = reserved rest := by
        rw [to_nat_sat_sub]
        omega
      obtain ⟨n, hshed, hcovers, -⟩ := ih _ hleft
      refine ⟨n + 1, by rw [if_pos hlt, hshed, take_succ_cons], hcovers, ?_⟩
      rw [reserved_cons, ← hsum]
      exact fun hle => absurd hlt (not_lt.mpr hle)
    · refine ⟨0, by rw [if_neg hlt, take_zero], ?_, fun _ => rfl⟩
      rw [lt_def] at hlt
      rw [drop_zero, reserved_cons]
      omega

theorem shed_loop_sub {balance sum : U256} {entries : List Entry}
    (h : e ∈ shedLoop balance sum entries) : e ∈ entries := by
  induction entries generalizing sum with
  | nil => exact h
  | cons first rest ih =>
    unfold shedLoop at h
    split at h
    · exact mem_cons.mpr ((mem_cons.mp h).imp_right ih)
    · simp at h

variable {s : StateReader} {u : Address} {entries : List Entry} {cell : Slot}

theorem shed_sub (h : e ∈ shed s u entries) : e ∈ entries := by
  unfold shed at h
  split at h
  · exact h
  · rw [← mem_insertionSort TailFirst]
    revert h
    cases entries.insertionSort TailFirst with
    | nil => exact fun h => absurd h (not_mem_nil)
    | cons first rest => exact shed_loop_sub

section

variable (hunspent : s.isSpent u = false) (hcell : ∀ e ∈ entries, e.cert.deposit.cell = cell)

include hunspent hcell

theorem shed_eq_take (hfits : reserved entries ≤ 2 ^ 256 - 1) :
    ∃ n, shed s u entries = (entries.insertionSort TailFirst).take n ∧
      reserved ((entries.insertionSort TailFirst).drop n) ≤ (s.get cell).toNat ∧
      (reserved entries ≤ (s.get cell).toNat → n = 0) := by
  have hperm := entries.perm_insertionSort TailFirst
  have hfold := reserved_perm hperm
  unfold shed
  rw [hunspent, ← hfold]
  revert hperm hfold
  cases entries.insertionSort TailFirst with
  | nil => exact fun _ _ => ⟨0, rfl, zero_le _, fun _ => rfl⟩
  | cons first rest =>
    intro hperm hfold
    rw [← hcell first (hperm.mem_iff.mp mem_cons_self)]
    exact shed_loop_spec _ _ _ (by
      rw [foldl_sat_add _ _ (by rw [hfold]; simpa using hfits)]
      simp)

theorem shed_covers (hnodup : entries.Nodup) (hfits : reserved entries ≤ 2 ^ 256 - 1) :
    reserved (entries.filter (· ∉ shed s u entries)) ≤ (s.get cell).toNat := by
  obtain ⟨n, hshed, hcovers, -⟩ := shed_eq_take hunspent hcell hfits
  refine le_trans (reserved_le (hnodup.filter _) fun e he => ?_) hcovers
  obtain ⟨hmem, hkept⟩ := mem_filter.mp he
  rw [hshed, decide_eq_true_eq] at hkept
  rw [← mem_insertionSort TailFirst, ← take_append_drop n (entries.insertionSort TailFirst),
    mem_append] at hmem
  exact hmem.resolve_left hkept

theorem shed_eq_nil (hcovers : reserved entries ≤ (s.get cell).toNat) : shed s u entries = [] := by
  have hlt := (s.get cell).isLt
  obtain ⟨n, hshed, -, hnone⟩ := shed_eq_take hunspent hcell (by omega)
  rw [hshed, hnone hcovers, take_zero]

end

theorem mem_shed_all :
    e ∈ shedAll s entries ↔
      e ∈ shed s e.underwriter (entries.filter fun f => f.underwriter = e.underwriter) := by
  unfold shedAll
  simp only [mem_flatMap, mem_dedup, mem_map]
  constructor
  · intro ⟨u, _, h⟩
    obtain ⟨-, hu⟩ := mem_filter.mp (shed_sub h)
    rw [decide_eq_true_eq] at hu
    rwa [hu]
  · intro h
    exact ⟨e.underwriter, ⟨e, (mem_filter.mp (shed_sub h)).1, rfl⟩, h⟩

theorem shed_all_sub (h : e ∈ shedAll s entries) : e ∈ entries :=
  (mem_filter.mp (shed_sub (mem_shed_all.mp h))).1

/-! ## One sweep -/

variable [Crypto] {p : Params} {tip : UInt64}

theorem fate_eq_stays : fate p s tip e = .stays ↔
    ¬ e.cert.ttl < tip + 1 ∧ ¬ e.cert.ttl - (tip + 1) > p.ttlMax ∧ (s.seen e.id).isSome = false ∧
      ¬ (e.cert.feeBid.seqMax < s.get seqBaseFeeSlot ∨
        e.cert.feeBid.parMax < s.get parBaseFeeSlot) := by
  unfold fate
  dsimp only
  split
  · simp_all
  · split
    · simp_all
    · split
      · simp_all
      · split
        · simp_all
        · simp_all

theorem mem_swept {found : Sweep} (hfound : found = sweep p s tip pool.book.residents) :
    e ∈ (pool.evictAll ((found.doomed.map Entry.id).insertionSort (· ≤ ·))).book.residents ↔
      e ∈ pool.book.residents ∧ fate p s tip e = .stays ∧
        e ∉ shedAll s (pool.book.residents.filter fun e => fate p s tip e = .stays) := by
  subst hfound
  rw [mem_evict_entries fun g hg => ?_]
  · refine and_congr_right fun he => ?_
    simp [sweep, he]
  · rcases mem_append.mp hg with hg | hg
    · exact (mem_filter.mp hg).1
    · exact (mem_filter.mp (shed_all_sub hg)).1

theorem mem_rescreen (he : e ∈ (rescreen p s tip pool).book.residents) :
    e ∈ pool.book.residents ∧ fate p s tip e = .stays ∧
      e ∉ shedAll s (pool.book.residents.filter fun e => fate p s tip e = .stays) :=
  (mem_swept rfl).mp (mem_truncate.mp he).1

/-- Below a kept entry every sequence number stays occupied. -/
theorem rescreen_reachable (hg : g ∈ pool.book.residents)
    (hgone : g ∉ (rescreen p s tip pool).book.residents) (hfate : fate p s tip g ≠ .committed)
    (he : e ∈ (rescreen p s tip pool).book.residents) (hu : e.underwriter = g.underwriter)
    (hlt : g.seq < e.seq) : occupied (rescreen p s tip pool).book g.underwriter g.seq = true := by
  by_cases hvacated : g ∈ (sweep p s tip pool.book.residents).vacated
  · exact truncate_reachable he hu hvacated hlt
  · -- then the truncation took it, which takes from above
    exfalso
    have hnot : ¬ fate p s tip g = .strands := fun h =>
      hvacated (mem_append_left _ (mem_filter.mpr ⟨hg, by simpa using h⟩))
    have hstays : fate p s tip g = .stays := by
      cases h : fate p s tip g with
      | stays => rfl
      | committed => exact absurd h hfate
      | strands => exact absurd h hnot
    have hswept := (@mem_swept g pool s _ p tip _ rfl).mpr
      ⟨hg, hstays, fun h => hvacated (mem_append_right _ h)⟩
    exact UInt64.not_lt.mpr (truncate_takes_above he hu hswept hgone) hlt

/-- A rescreen with nothing to drop changes nothing. -/
theorem rescreen_eq_self (hstays : ∀ e ∈ pool.book.residents, fate p s tip e = .stays)
    (hshed : shedAll s pool.book.residents = []) : rescreen p s tip pool = pool := by
  have hkept : pool.book.residents.filter (fun e => fate p s tip e = .stays) =
      pool.book.residents := filter_eq_self.mpr fun e he => decide_eq_true (hstays e he)
  have hdoomed : pool.book.residents.filter (fun e => fate p s tip e ≠ .stays) = [] :=
    filter_eq_nil_iff.mpr fun e he => by simp [hstays e he]
  have hstrands : pool.book.residents.filter (fun e => fate p s tip e = .strands) = [] :=
    filter_eq_nil_iff.mpr fun e he => by simp [hstays e he]
  have hfound : sweep p s tip pool.book.residents = ⟨[], []⟩ := by
    unfold sweep
    rw [hkept, hdoomed, hstrands, hshed]
    rfl
  have hfree : pool.book.residents.filter (stranded pool.book []) = [] :=
    filter_eq_nil_iff.mpr fun e _ => by simp [stranded_iff]
  unfold rescreen rescreenLocked
  rw [hfound]
  show truncateStrandedLocked [] pool = pool
  unfold truncateStrandedLocked
  rw [hfree]
  rfl

theorem rescreen_unspent (he : e ∈ (rescreen p s tip pool).book.residents) :
    s.isSpent e.underwriter = false := by
  obtain ⟨hmem, hstays, hkept⟩ := mem_rescreen he
  by_contra hspent
  refine hkept (mem_shed_all.mpr ?_)
  unfold shed
  rw [if_pos (by simpa using hspent)]
  simp [hmem, hstays]

theorem Accounted.shed_covers {b : Book} (hacc : Accounted p b) {u : Address}
    {entries : List Entry} (hnodup : entries.Nodup)
    (hsub : ∀ e ∈ entries, e ∈ b.residents ∧ e.underwriter = u) (hunspent : s.isSpent u = false) :
    reserved (entries.filter (· ∉ shed s u entries)) ≤ (s.get (nativeBalanceSlot u)).toNat := by
  refine Mempool.shed_covers hunspent (fun e he => ?_) hnodup ?_
  · obtain ⟨hpooled, hu⟩ := hsub e he
    rw [← hu]
    exact cell_eq_of_structural (hacc.sound e hpooled).structural
  · have hheld := hacc.reserve u
    rw [held_eq_sum] at hheld
    have hlt := (b.byUnderwriterReserve.get u).isLt
    have hle := reserved_le hnodup fun e he =>
      mem_filter.mpr ⟨(hsub e he).1, decide_eq_true (hsub e he).2⟩
    unfold reserved at hle ⊢
    omega

section

variable (hacc : Accounted p pool.book)

include hacc

/-- After a rescreen every reserve is covered by its balance. -/
theorem rescreen_covers (u : Address) :
    reserved ((rescreen p s tip pool).book.residents.filter fun e => e.underwriter = u) ≤
      (s.get (nativeBalanceSlot u)).toNat := by
  by_cases hnone : ∃ first ∈ (rescreen p s tip pool).book.residents, first.underwriter = u
  · obtain ⟨first, hfirst, rfl⟩ := hnone
    have hcovered := @Accounted.shed_covers s _ p _ hacc first.underwriter
      ((pool.book.residents.filter fun e => fate p s tip e = .stays).filter
        fun e => e.underwriter = first.underwriter)
      (((nodup_residents _).filter _).filter _)
      (fun e he => by
        simp only [mem_filter, decide_eq_true_eq] at he
        exact ⟨he.1.1, he.2⟩)
      (rescreen_unspent hfirst)
    refine le_trans (reserved_le ((nodup_residents _).filter _) fun e he => ?_) hcovered
    simp only [mem_filter, decide_eq_true_eq] at he ⊢
    obtain ⟨hpooled, hstays, hkept⟩ := mem_rescreen he.1
    rw [mem_shed_all, he.2] at hkept
    exact ⟨⟨⟨hpooled, hstays⟩, he.2⟩, hkept⟩
  · have hempty : (rescreen p s tip pool).book.residents.filter (fun e => e.underwriter = u) = [] :=
      filter_eq_nil_iff.mpr fun e he => by simpa using fun hu => hnone ⟨e, he, hu⟩
    rw [hempty]
    exact zero_le _

theorem rescreen_accounted : Accounted p (rescreen p s tip pool).book :=
  book_evict_all (fun _ _ he h => h.take he) (book_evict_all (fun _ _ he h => h.take he) hacc)

theorem rescreen_rescreen : rescreen p s tip (rescreen p s tip pool) = rescreen p s tip pool := by
  refine rescreen_eq_self (fun e he => (mem_rescreen he).2.1) ?_
  refine eq_nil_iff_forall_not_mem.mpr fun e he => ?_
  have hmem := shed_all_sub he
  rw [mem_shed_all, shed_eq_nil (rescreen_unspent hmem) (fun f hf => ?_)
    (rescreen_covers hacc e.underwriter)] at he
  · exact not_mem_nil he
  · obtain ⟨hf, hu⟩ := mem_filter.mp hf
    rw [← of_decide_eq_true hu]
    exact cell_eq_of_structural ((rescreen_accounted hacc).sound f hf).structural

end

/-! ## The post-condition -/

/-- What a sweep against a state and a tip leaves behind. -/
structure Settled (p : Params) (s : StateReader) (tip : UInt64) (before after : Pool) : Prop where
  /-- Every survivor can still be included in the next block, by its deadline. -/
  live : ∀ e ∈ after.book.residents, tip.toNat + 1 ≤ e.cert.ttl.toNat ∧
    e.cert.ttl.toNat ≤ tip.toNat + 1 + p.ttlMax.toNat
  uncommitted : ∀ e ∈ after.book.residents, s.seen e.cert.id = none
  /-- Its fee maxima are at least the base fees. -/
  priced : ∀ e ∈ after.book.residents, s.get seqBaseFeeSlot ≤ e.cert.feeBid.seqMax ∧
    s.get parBaseFeeSlot ≤ e.cert.feeBid.parMax
  unspent : ∀ e ∈ after.book.residents, s.isSpent e.cert.deposit.cell.addr = false
  /-- Every cell covers the reserves of the survivors that name it. -/
  covered : ∀ cell, ((after.book.residents.filter fun e => e.cert.deposit.cell = cell).map
    fun e => e.reserve.toNat).sum ≤ (s.get cell).toNat
  /-- Where an entry left for another reason than a commitment, nobody of its chain sits above its
  place unless somebody of its chain stands there. -/
  reachable : ∀ g ∈ before.book.residents, g ∉ after.book.residents →
    fate p s tip g ≠ .committed → ∀ e ∈ after.book.residents,
    e.cert.underwriterID = g.cert.underwriterID → g.cert.seq < e.cert.seq →
    ∃ f ∈ after.book.residents, f.cert.underwriterID = g.cert.underwriterID ∧
      f.cert.seq = g.cert.seq
  /-- A second sweep changes nothing. -/
  again : rescreen p s tip after = after

omit [Crypto] in
theorem ttl_window {ttl : UInt64} (htip : tip.toNat < 2 ^ 64 - 1) (hlive : ¬ ttl < tip + 1)
    (hnear : ¬ ttl - (tip + 1) > p.ttlMax) :
    tip.toNat + 1 ≤ ttl.toNat ∧ ttl.toNat ≤ tip.toNat + 1 + p.ttlMax.toNat := by
  have hnext : (tip + 1).toNat = tip.toNat + 1 := by
    rw [UInt64.toNat_add]
    exact Nat.mod_eq_of_lt (by simpa using Nat.add_lt_of_lt_sub htip)
  have hlow := UInt64.le_iff_toNat_le.mp (UInt64.not_lt.mp hlive)
  have hhigh := UInt64.le_iff_toNat_le.mp (UInt64.not_lt.mp hnear)
  rw [UInt64.toNat_sub_of_le _ _ (UInt64.not_lt.mp hlive), hnext] at hhigh
  rw [hnext] at hlow
  omega

/-- A sweep settles the pool, after every history of admissions against states whose native
balances are below the largest value. -/
theorem rescreen_settles (p : Params) (policy : Policy) (sections : List Section)
    (hallowed : ∀ sec ∈ sections, sec.Allowed p ∧ sec.Against Modest) (s : StateReader)
    (tip : UInt64) (htip : tip.toNat < 2 ^ 64 - 1) :
    Settled p s tip (runSections p sections (.new policy))
      (rescreen p s tip (runSections p sections (.new policy))) := by
  have hacc := run_accounted policy hallowed
  generalize runSections p sections (.new policy) = pool at hacc ⊢
  have hacc' := @rescreen_accounted pool s _ p tip hacc
  have hstays : ∀ {e}, e ∈ (rescreen p s tip pool).book.residents → _ :=
    fun he => fate_eq_stays.mp (mem_rescreen he).2.1
  constructor
  case live =>
    intro e he
    obtain ⟨hlive, hnear, -⟩ := hstays he
    exact ttl_window htip hlive hnear
  case uncommitted =>
    intro e he
    obtain ⟨-, -, hunseen, -⟩ := hstays he
    rw [← (hacc'.sound e he).id]
    simpa using hunseen
  case priced =>
    intro e he
    obtain ⟨-, -, -, hpriced⟩ := hstays he
    exact ⟨not_lt.mp fun h => hpriced (.inl h), not_lt.mp fun h => hpriced (.inr h)⟩
  case unspent =>
    intro e he
    exact rescreen_unspent he
  case covered =>
    intro cell
    by_cases hnone : ∃ first ∈ (rescreen p s tip pool).book.residents,
        first.cert.deposit.cell = cell
    · obtain ⟨first, hfirst, rfl⟩ := hnone
      rw [cell_eq_of_structural (hacc'.sound first hfirst).structural, hacc'.filter_cell]
      exact rescreen_covers hacc _
    · rw [filter_eq_nil_iff.mpr fun e he => by simpa using fun h => hnone ⟨e, he, h⟩]
      exact zero_le _
  case reachable =>
    intro g hg hgone hfate e he hu hlt
    exact occupied_iff.mp (rescreen_reachable hg hgone hfate he hu hlt)
  case again => exact rescreen_rescreen hacc

end

/-! ## A cell that covers one of two -/

section

open Fold.Sample

attribute [local instance] Reference.crypto

namespace Sample

/-- Parameters whose first block issues the largest value. -/
def richParams : Params := { params with genesisEmission := U256.max, tailEmission := U256.max }

/-- A payment of user one that reserves the largest value. -/
def rich (seq : UInt64) : Certificate :=
  { certificate (.transfer [⟨nativeAsset, user 1, user 9, .ofNat 5⟩]) seq (user 1) (2 ^ 256 - 1)
      [key 1] with
    feeBid := ⟨.ofNat 3, .ofNat 3, .ofNat 2, 1⟩ }

/-- A pool with two payments of one underwriter, each reserving all there can be. -/
def richPool : Pool :=
  runSections richParams (admitAll (flush (2 ^ 256 - 1)) [rich 0, rich 1]) (.new defaultPolicy)

/-- Two payments of one account are admitted. -/
def twoPayments : List Section := admitAll (flush 30000) [priced 1 0 3, priced 1 1 7]

end Sample

/-- Where the balance was the largest value the reserves saturate: against a balance one lower the
sweep sheds one payment only, the other is not covered, and a second sweep sheds it. -/
theorem saturated_survivor :
    richParams.validate = .ok () ∧
    (∀ sec ∈ admitAll (flush (2 ^ 256 - 1)) [rich 0, rich 1], sec.Allowed richParams) ∧
    ¬ Settled richParams (flush (2 ^ 256 - 2)) 1 richPool
      (rescreen richParams (flush (2 ^ 256 - 2)) 1 richPool) := by
  refine ⟨by decide +kernel, ?_, fun h => ?_⟩
  · intro sec hsec
    obtain ⟨c, hc, rfl⟩ := mem_map.mp hsec
    have hvalid : ∀ c ∈ [rich 0, rich 1], checkStructural c richParams = .ok () ∧
          checkSignatures c richParams = .ok () := by
      decide +kernel
    exact hvalid c hc
  · have hcovered := h.covered (nativeBalanceSlot (user 1))
    revert hcovered
    decide +kernel

/-- A balance that covers one of two payments leaves the lower one, covered and settled. -/
theorem sample_rescreen_settles :
    (∀ sec ∈ twoPayments, sec.Allowed params ∧ sec.Against Modest) ∧
    (rescreen params (flush 15000) 1
      (runSections params twoPayments (.new defaultPolicy))).book.residents.map
        Entry.seq = [0] ∧
    Settled params (flush 15000) 1 (runSections params twoPayments (.new defaultPolicy))
      (rescreen params (flush 15000) 1
        (runSections params twoPayments (.new defaultPolicy))) := by
  have hallowed : ∀ sec ∈ twoPayments, sec.Allowed params ∧ sec.Against Modest := by
    intro sec hsec
    obtain ⟨c, hc, rfl⟩ := mem_map.mp hsec
    have hvalid : ∀ c ∈ [priced 1 0 3, priced 1 1 7],
        checkStructural c params = .ok () ∧ checkSignatures c params = .ok () := by
      decide +kernel
    refine ⟨hvalid c hc, fun slot hslot => ?_⟩
    show (if isNativeBalanceSlot slot then U256.ofNat 30000 else 0).toNat < _
    rw [if_pos hslot]
    decide
  exact ⟨hallowed, by decide +kernel, rescreen_settles params defaultPolicy _ hallowed _ 1
    (by decide)⟩

end

end Zycord.Mempool
