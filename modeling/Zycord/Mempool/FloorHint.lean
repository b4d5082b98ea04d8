import Mathlib.Data.Prod.Lex
import Zycord.Mempool.Accounting

/-!
# The floor hint

The heap of prices that refuses a cheap arrival without a walk over the pool. `HintSound` is its
invariant: unless a removal happened since the last rebuild, the heap is in order and holds every
entry that may leave. From it the bound is never above the eviction floor
(`floor_lower_bound_le`), and the two ways to judge an arrival, with the bound and without, agree
on the verdict and on what is pooled. The main theorem, `floor_hint_invisible`, says so for every
history; the agreement also shows that the order in which Go visits its maps does not matter.
-/

namespace Zycord.Mempool

open Book FinFun FinMap Heap List Mempool Mut Nat Option U256 UInt64 Validity

/-! ## Prices -/

theorem to_nat_mul_div64_eq (u : U256) (m d : UInt64) :
    (u.mulDiv64 m d).toNat = min (u.toNat * m.toNat / d.toNat) (2 ^ 256 - 1) := by
  unfold mulDiv64
  dsimp only
  split_ifs with hlt
  · exact (min_eq_left (le_sub_one_of_lt hlt)).symm
  · exact (min_eq_right ((sub_le _ _).trans (not_lt.mp hlt))).symm

/-- The price an arrival has to offer to displace a resident: the resident's and the bump, which is
at least one drop, or the largest value if that is less. -/
def required (resident : ℕ) (bumpPercent : UInt64) : ℕ :=
  min (resident + max 1 (resident * bumpPercent.toNat / 100)) (2 ^ 256 - 1)

variable {bump : UInt64}

/-- The comparison with a bump, over the naturals. -/
theorem beats_by_bump_iff {arrival resident : U256} :
    beatsByBump arrival resident bump = true ↔ required resident.toNat bump ≤ arrival.toNat := by
  unfold beatsByBump required
  simp only [decide_eq_true_eq, le_def, to_nat_sat_add]
  have hbump := to_nat_mul_div64_eq resident bump 100
  have hhundred : (100 : UInt64).toNat = 100 := rfl
  rw [hhundred] at hbump
  by_cases hzero : (resident.mulDiv64 bump 100).isZero = true
  · rw [if_pos hzero]
    have hz : (resident.mulDiv64 bump 100).toNat = 0 := by
      rw [is_zero_iff.mp hzero]
      rfl
    have hq : resident.toNat * bump.toNat / 100 = 0 := by
      omega
    rw [hq]
    rfl
  · rw [if_neg hzero]
    have hz : (resident.mulDiv64 bump 100).toNat ≠ 0 := fun h0 =>
      hzero (is_zero_iff.mpr (ext h0))
    omega

theorem required_mono {a b : ℕ} (bump : UInt64) (h : a ≤ b) :
    required a bump ≤ required b bump := by
  have hq : a * bump.toNat / 100 ≤ b * bump.toNat / 100 :=
    Nat.div_le_div_right (Nat.mul_le_mul_right _ h)
  exact min_le_min_right _ (Nat.add_le_add h (max_le_max_left 1 hq))

theorem beats_by_bump_of_le {arrival a b : U256} (h : a ≤ b)
    (hbeats : beatsByBump arrival b bump = true) : beatsByBump arrival a bump = true := by
  rw [beats_by_bump_iff] at hbeats ⊢
  exact (required_mono bump (le_def.mp h)).trans hbeats

/-! ## The order of the visits does not matter -/

theorem min_of_comm (a b : U256) : minOf a b = minOf b a :=
  ext (by rw [to_nat_min_of, to_nat_min_of, min_comm])

theorem min_of_right_comm (a b c : U256) : minOf (minOf a b) c = minOf (minOf a c) b :=
  ext (by simp only [to_nat_min_of, min_assoc, min_comm b.toNat])

theorem to_nat_higher (a b : UInt64) : (if b > a then b else a).toNat = max a.toNat b.toNat := by
  split_ifs with h
  · exact (max_eq_right (le_of_lt (lt_iff_toNat_lt.mp h))).symm
  · exact (Nat.max_eq_left (UInt64.le_iff_toNat_le.mp (UInt64.not_lt.mp h))).symm

theorem higher_comm (a b : UInt64) : (if b > a then b else a) = if a > b then a else b := by
  rw [← UInt64.toNat_inj, to_nat_higher, to_nat_higher, Nat.max_comm]

theorem higher_right_comm (c a b : UInt64) :
    (if b > (if a > c then a else c) then b else if a > c then a else c) =
      if a > (if b > c then b else c) then a else if b > c then b else c := by
  simp only [← UInt64.toNat_inj, to_nat_higher]
  exact max_right_comm _ _ _

theorem find_add_price_of_ne (out : FinMap Address ChainPrice) (e : Entry) {u : Address}
    (h : e.underwriter ≠ u) : (addPrice out e).find? u = out.find? u := by
  unfold addPrice
  split <;> rw [find_insert, if_neg h]

theorem find_add_price_self (out : FinMap Address ChainPrice) (e : Entry) :
    (addPrice out e).find? e.underwriter = some
      (match out.find? e.underwriter with
      | none => ⟨e.seq, e.priority⟩
      | some c => ⟨if e.seq > c.maxSeq then e.seq else c.maxSeq, minOf c.price e.priority⟩) := by
  unfold addPrice
  cases out.find? e.underwriter with
  | none | some c => rw [find_insert, if_pos rfl]

/-- The order in which prices are added does not matter. -/
instance : RightCommutative addPrice where
  right_comm out a b := by
    refine FinMap.ext_find fun u => ?_
    by_cases ha : a.underwriter = u
    · by_cases hb : b.underwriter = u
      · -- one underwriter: the larger place and the lower price, in either order
        subst ha
        rw [← hb, find_add_price_self, hb, find_add_price_self, find_add_price_self, ← hb,
          find_add_price_self, hb]
        cases out.find? a.underwriter with
        | none => simp only [higher_comm a.seq b.seq, min_of_comm a.priority b.priority]
        | some c =>
          simp only [higher_right_comm c.maxSeq a.seq b.seq,
            min_of_right_comm c.price a.priority b.priority]
      · rw [find_add_price_of_ne _ b hb, ← ha, find_add_price_self, find_add_price_self,
          find_add_price_of_ne _ b (ha ▸ hb)]
    · rw [find_add_price_of_ne _ a ha]
      by_cases hb : b.underwriter = u
      · rw [← hb, find_add_price_self, find_add_price_self, find_add_price_of_ne _ a (hb ▸ ha)]
      · rw [find_add_price_of_ne _ b hb, find_add_price_of_ne _ b hb, find_add_price_of_ne _ a ha]

theorem chain_prices_visit (visit visit' : Visit) (b : Book) :
    chainPrices visit b = chainPrices visit' b :=
  ((visit.perm .prices _).trans (visit'.perm .prices _).symm).foldl_eq _

theorem collected_visit (visit visit' : Visit) (b : Book) (arrival : Certificate) :
    (collected visit b arrival).Perm (collected visit' b arrival) := by
  unfold collected
  rw [chain_prices_visit visit visit']
  exact (((visit.perm .candidates _).trans (visit'.perm .candidates _).symm).filter _).map _

/-- Candidates are ordered by the price of their chain, their own price and their id. -/
def Candidate.key (c : Candidate) : U256 ×ₗ U256 ×ₗ Hash :=
  toLex (c.chainPrice, toLex (c.entry.priority, c.entry.id))

theorem Candidate.before_iff {a b : Candidate} : a.Before b ↔ a.key ≤ b.key := by
  rw [Prod.Lex.le_iff, Prod.Lex.le_iff]
  rfl

/-- Any two candidates compare. -/
instance : Std.Total Candidate.Before where
  total a b := by simpa only [Candidate.before_iff] using le_total a.key b.key

/-- The order of candidates is transitive. -/
instance : IsTrans Candidate Candidate.Before where
  trans a b c hab hbc := by
    rw [Candidate.before_iff] at *
    exact hab.trans hbc

theorem Candidate.Before.antisymm {a b : Candidate} (hab : a.Before b) (hba : b.Before a) :
    a.entry.id = b.entry.id ∧ a.chainPrice = b.chainPrice := by
  have hkey : a.key = b.key := le_antisymm (before_iff.mp hab) (before_iff.mp hba)
  exact ⟨congrArg (fun k => (ofLex (ofLex k).2).2) hkey, congrArg (fun k => (ofLex k).1) hkey⟩

/-- The order of eviction does not depend on the map's iteration. -/
theorem eviction_order_visit (visit visit' : Visit) (b : Book) (arrival : Certificate)
    (bump : UInt64) :
    evictionOrder (collected visit b arrival) arrival bump =
      evictionOrder (collected visit' b arrival) arrival bump := by
  refine congrArg (map Candidate.entry) ?_
  have hperm := (collected_visit visit visit' b arrival).filter fun c =>
    beatsByBump arrival.feeBid.seqPriority c.entry.priority bump
  refine List.Perm.eq_of_pairwise (fun a c ha hc hac hca => ?_)
    (pairwise_insertionSort Candidate.Before _)
    (pairwise_insertionSort Candidate.Before _)
    ((perm_insertionSort _ _).trans (hperm.trans (perm_insertionSort _ _).symm))
  obtain ⟨hid, hprice⟩ := hac.antisymm hca
  have hmem : ∀ {visit : Visit} {x : Candidate}, x ∈ ((collected visit b arrival).filter fun c =>
      beatsByBump arrival.feeBid.seqPriority c.entry.priority bump).insertionSort
        Candidate.Before → x.entry ∈ b.residents := fun {visit} {x} hx =>
    ((mem_collected visit).mp
      ⟨x, (mem_filter.mp ((perm_insertionSort _ _).mem_iff.mp hx)).1, rfl⟩).mem
  have hentry := eq_of_id (hmem ha) (hmem hc) hid
  cases a
  simp_all

/-! ## The invariant of the hint -/

section Hint

variable {visit : Visit} {b : Book} {hint : FloorHint} {pool : Pool} {arrival : Certificate}
  {e : Entry}

/-- `tails` holds the highest pooled `Seq` of each underwriter, zero for one without an entry. -/
structure TailsExact (l : List Entry) (tails : FinFun Address UInt64) : Prop where
  upper : ∀ e ∈ l, e.seq ≤ tails.get e.underwriter
  attained : ∀ u, tails.get u ≠ 0 → ∃ e ∈ l, e.underwriter = u ∧ e.seq = tails.get u

/-- The hint describes the pool: its heap is in order, its places are exact, and every entry that
may leave has its price in the heap. -/
structure HintSound (b : Book) (hint : FloorHint) : Prop where
  ordered : Heap.Ordered HintItem.price hint.heap
  tails : TailsExact b.residents hint.tailSeq
  cover : ∀ e ∈ b.residents, Tail b e → hintItem e ∈ hint.heap

/-- The hint is sound unless it is marked stale. -/
def HintKept (pool : Pool) : Prop := pool.hint.stale = false → HintSound pool.book pool.hint

theorem get_raise_tail (tails : FinFun Address UInt64) (u u' : Address) (seq : UInt64) :
    (raiseTail tails u seq).get u' =
      if u = u' then (if seq > tails.get u then seq else tails.get u) else tails.get u' := by
  unfold raiseTail
  by_cases hu : u = u'
  · subst hu
    by_cases hseq : seq > tails.get u <;> simp [hseq]
  · by_cases hseq : seq > tails.get u <;> simp [hseq, hu, get_set_of_ne]

variable {l : List Entry} {tails : FinFun Address UInt64}

/-- An insertion raises the tail of its chain. -/
theorem TailsExact.raise (h : TailsExact l tails) (e : Entry) {l' : List Entry}
    (hl : ∀ f, f ∈ l' ↔ f = e ∨ f ∈ l) : TailsExact l' (raiseTail tails e.underwriter e.seq) := by
  constructor
  · intro f hf
    rw [get_raise_tail, le_iff_toNat_le]
    rcases (hl f).mp hf with rfl | hf
    · rw [if_pos rfl, to_nat_higher]
      exact le_max_right _ _
    · have hle := le_iff_toNat_le.mp (h.upper f hf)
      by_cases hu : e.underwriter = f.underwriter
      · rw [if_pos hu, to_nat_higher, hu]
        exact hle.trans (le_max_left _ _)
      · rwa [if_neg hu]
  · intro u hne
    rw [get_raise_tail] at hne ⊢
    split_ifs at hne ⊢ with hu hhigher
    · exact ⟨e, (hl e).mpr (.inl rfl), hu, rfl⟩
    · obtain ⟨f, hf, hfu, hfs⟩ := h.attained _ hne
      exact ⟨f, (hl f).mpr (.inr hf), hfu.trans hu, hfs⟩
    · obtain ⟨f, hf, hfound⟩ := h.attained u hne
      exact ⟨f, (hl f).mpr (.inr hf), hfound⟩

theorem TailsExact.foldl {rest : List Entry} (h : TailsExact l tails) :
    TailsExact (l ++ rest) (rest.foldl (fun t e => raiseTail t e.underwriter e.seq) tails) := by
  induction rest generalizing l tails with
  | nil => simpa using h
  | cons e rest ih =>
    have hnext : TailsExact (l ++ [e]) (raiseTail tails e.underwriter e.seq) :=
      h.raise e fun f => by simp [or_comm]
    simpa using ih hnext

theorem TailsExact.tail_iff (h : TailsExact b.residents tails) (he : e ∈ b.residents) :
    e.seq = tails.get e.underwriter ↔ Tail b e := by
  constructor
  · intro heq f hf hu
    have hle := h.upper f hf
    rwa [hu, ← heq] at hle
  · intro htail
    have hle := h.upper e he
    by_cases hzero : tails.get e.underwriter = 0
    · rw [hzero] at hle ⊢
      exact UInt64.le_antisymm hle (UInt64.zero_le)
    · obtain ⟨f, hf, hfu, hfs⟩ := h.attained _ hzero
      have hge := htail f hf hfu
      rw [hfs] at hge
      exact UInt64.le_antisymm hle hge

/-- A rebuilt hint is sound. -/
theorem hint_sound_rebuild (visit : Visit) (b : Book) : HintSound b (rebuildFloorHint visit b) := by
  have hempty : TailsExact [] (empty : FinFun Address UInt64) :=
    ⟨fun e he => by simp at he, fun u hu => absurd rfl hu⟩
  have hvisited : TailsExact ([] ++ visit.order .tails b.residents) _ := hempty.foldl
  have htails : TailsExact b.residents (rebuildFloorHint visit b).tailSeq := by
    constructor
    · intro f hf
      exact hvisited.upper f (Visit.mem_order.mpr hf)
    · intro u hu
      obtain ⟨f, hf, hfu⟩ := hvisited.attained u hu
      exact ⟨f, Visit.mem_order.mp hf, hfu⟩
  refine ⟨ordered_heapify _ _, htails, fun e he htail => ?_⟩
  refine (heapify_perm _).mem_iff.mpr (mem_map.mpr ⟨e, mem_filter.mpr ⟨?_, ?_⟩, rfl⟩)
  · exact Visit.mem_order.mpr he
  · exact decide_eq_true ((htails.tail_iff he).mpr htail)

/-! ## Who keeps it -/

/-- Pushing the inserted entry keeps the hint sound. -/
theorem hint_kept_push (visit : Visit) {b : Book} (hfresh : b.has e.id = false)
    (hbook : pool.book = b.insert e)
    (h : pool.hint.stale = false → HintSound b pool.hint) :
    HintKept (pushFloorHint visit pool (hintItem e)) := by
  unfold pushFloorHint
  dsimp only
  split
  · intro _
    exact hint_sound_rebuild visit pool.book
  · intro hstale
    have hold := h hstale
    have hmem : ∀ f, f ∈ pool.book.residents ↔ f = e ∨ f ∈ b.residents := fun f => by
      rw [hbook]
      exact mem_insert hfresh
    refine ⟨ordered_push hold.ordered _, hold.tails.raise e hmem, fun f hf htail => ?_⟩
    refine mem_push.mpr ?_
    rcases (hmem f).mp hf with rfl | hf
    · exact .inr rfl
    · refine .inl (hold.cover f hf fun g hg hu => htail g ((hmem g).mpr (.inr hg)) hu)

theorem hint_kept_remove_locked (id : Hash) (h : HintKept pool) :
    HintKept (pool.removeLocked id) := by
  rcases remove_locked_cases pool id with ⟨heq, -⟩ | ⟨e, -, -, heq⟩ <;> rw [heq]
  · exact h
  · intro hstale
    simp at hstale

theorem hint_kept_remove (ids : List Hash) (h : HintKept pool) : HintKept (pool.remove ids) :=
  ids.foldlRecOn _ h fun _ h id _ => hint_kept_remove_locked id h

theorem hint_kept_evict_all (ids : List Hash) (h : HintKept pool) :
    HintKept (pool.evictAll ids) :=
  ids.foldlRecOn _ h fun _ h id _ => hint_kept_remove_locked id h

theorem hint_kept_evict {reached : Book → Bool} {victims : List Entry} (h : HintKept pool) :
    HintKept (evict reached arrival victims pool) := by
  induction victims generalizing pool with
  | nil => exact h
  | cons v rest ih =>
    unfold evict
    split_ifs
    · exact h
    · exact ih h
    · exact ih h
    · exact @ih (pool.removeLocked v.id).countEvicted (hint_kept_remove_locked v.id h)

/-- Dropping stale tops keeps the hint sound. -/
theorem clean_top_sound {fuel : ℕ} {heap : List HintItem} {tailSeq : FinFun Address UInt64}
    {stale : Bool} (h : HintSound b ⟨heap, tailSeq, stale⟩) :
    HintSound b ⟨(cleanTop b tailSeq fuel heap).2, tailSeq, stale⟩ ∧
      ∀ top, (cleanTop b tailSeq fuel heap).1 = some top →
        ∃ rest, (cleanTop b tailSeq fuel heap).2 = top :: rest := by
  induction fuel generalizing heap with
  | zero => exact ⟨h, fun top htop => by simp [cleanTop] at htop⟩
  | succ fuel ih =>
    cases heap with
    | nil => exact ⟨h, fun top htop => by simp [cleanTop] at htop⟩
    | cons top rest =>
      unfold cleanTop
      split_ifs with hdead
      · exact ⟨h, fun t ht => ⟨rest, by rw [some.inj ht]⟩⟩
      · refine ih ⟨ordered_pop h.ordered, h.tails, fun e he htail => ?_⟩
        have hpop : hintItem e = top ∨ hintItem e ∈ pop HintItem.price (top :: rest) :=
          mem_pop_of_mem (h.cover e he htail)
        rcases hpop with rfl | hmem
        · -- the item of a live tail is not popped
          exact absurd ⟨has_iff.mpr ⟨e, he, rfl⟩, (h.tails.tail_iff he).mpr htail⟩ hdead
        · exact hmem

theorem floor_hint_top_sound (visit : Visit) (h : HintKept pool) :
    HintSound pool.book (floorHintTop visit pool).2.hint ∧
      ∀ top, (floorHintTop visit pool).1 = some top →
        ∃ rest, (floorHintTop visit pool).2.hint.heap = top :: rest := by
  have hstart : HintSound pool.book
      (if pool.hint.stale then rebuildFloorHint visit pool.book else pool.hint) := by
    split_ifs with hstale
    · exact hint_sound_rebuild visit pool.book
    · exact h (by simpa using hstale)
  exact clean_top_sound hstart

/-- The bound is at most the price of everything the arrival may take, and reading it keeps the
hint. -/
theorem floor_lower_bound_le (visit : Visit) (arrival : Certificate) (h : HintKept pool) :
    HintKept (floorLowerBoundFor visit arrival pool).2 ∧
      ∀ v, (floorLowerBoundFor visit arrival pool).1 = some v →
        ∀ e, MayTake pool.book arrival e → v ≤ e.priority := by
  obtain ⟨hsound, htop⟩ := floor_hint_top_sound visit h
  obtain ⟨hint, hhint⟩ := floor_hint_top_snd visit pool
  unfold floorLowerBoundFor
  rcases hres : floorHintTop visit pool with ⟨found, pool'⟩
  rw [hres] at hsound htop hhint
  obtain rfl : pool' = { pool with hint := hint } := hhint
  cases found with
  | none => exact ⟨fun _ => hsound, fun v hv => by simp at hv⟩
  | some top =>
    obtain ⟨rest, hheap⟩ := htop top rfl
    dsimp only at hheap hsound ⊢
    split
    · refine ⟨fun _ => hsound, fun v hv e he => ?_⟩
      obtain rfl := some.inj hv
      have hmem := hsound.cover e he.mem he.tail
      have hordered := hsound.ordered
      rw [hheap] at hmem hordered
      exact hordered.head_le hmem
    · refine ⟨fun _ => hsound, fun v hv e he => ?_⟩
      have hfrontier : AtMost (frontier HintItem.price (fun item =>
          ownChainBase arrival item.seq item.underwriter) hint.heap) e.priority :=
        frontier_le hsound.ordered (hsound.cover e he.mem he.tail) he.other
      obtain ⟨low, hlow, hle⟩ := hfrontier
      rw [hlow] at hv
      exact some.inj hv ▸ hle

end Hint

/-! ## Judging an arrival with the bound and without -/

/-- Two pools that differ in their hints only. -/
structure Alike (a b : Pool) : Prop where
  policy : a.policy = b.policy
  book : a.book = b.book
  counts : a.counts = b.counts

/-- Two outcomes with one verdict and one pool; the kind of a refusal may differ. -/
structure Agrees (r r' : Except PoolError Unit × Pool) : Prop where
  verdict : r.1.isOk = r'.1.isOk
  pool : Alike r.2 r'.2

section Agreement

variable {a b : Pool} {arrival : Certificate} {reached overfull : Book → Bool}

theorem Alike.refl (a : Pool) : Alike a a := ⟨rfl, rfl, rfl⟩

theorem Alike.of_hint (a : Pool) (hint : FloorHint) : Alike { a with hint := hint } a :=
  ⟨rfl, rfl, rfl⟩

section

variable (h : Alike a b)

include h

theorem Alike.symm : Alike b a := ⟨h.policy.symm, h.book.symm, h.counts.symm⟩

theorem Alike.trans {c : Pool} (h' : Alike b c) : Alike a c :=
  ⟨h.policy.trans h'.policy, h.book.trans h'.book, h.counts.trans h'.counts⟩

theorem Alike.count_rejected : Alike a.countRejected b.countRejected :=
  ⟨h.policy, h.book, by unfold Pool.countRejected; rw [h.counts]⟩

theorem Alike.count_evicted : Alike a.countEvicted b.countEvicted :=
  ⟨h.policy, h.book, by unfold Pool.countEvicted; rw [h.counts]⟩

theorem Alike.remove_locked (id : Hash) : Alike (a.removeLocked id) (b.removeLocked id) := by
  unfold Pool.removeLocked
  rw [h.book]
  cases b.book.byID.find? id with
  | none => exact h
  | some e => exact ⟨h.policy, rfl, h.counts⟩

theorem Alike.remove (ids : List Hash) : Alike (a.remove ids) (b.remove ids) :=
  foldl_rel h fun id _ _ _ h => h.remove_locked id

theorem Alike.evict_all (ids : List Hash) : Alike (a.evictAll ids) (b.evictAll ids) :=
  foldl_rel h fun id _ _ _ h => (h.remove_locked id).count_evicted

/-- Eviction keeps two pools alike. -/
theorem Alike.evict (victims : List Entry) :
    Alike (evict reached arrival victims a) (evict reached arrival victims b) := by
  induction victims generalizing a b with
  | nil => exact h
  | cons v rest ih =>
    unfold evict
    rw [h.book, h.policy]
    split_ifs
    · exact h
    · exact ih h
    · exact ih h
    · exact ih (h.remove_locked v.id).count_evicted

theorem Alike.rescreen [Crypto] (p : Params) (s : StateReader) (tip : UInt64) :
    Alike (rescreenLocked p s tip a) (rescreenLocked p s tip b) := by
  unfold rescreenLocked truncateStrandedLocked
  rw [h.book]
  have hfirst := h.evict_all (((sweep p s tip b.book.residents).doomed.map
    Entry.id).insertionSort (· ≤ ·))
  dsimp only
  rw [hfirst.book]
  exact hfirst.evict_all _

end

/-! ### One pass -/

/-- The bound is not above the price of anybody the arrival may take. -/
def Bound.SoundAt (bound : Bound) (visit : Visit) (arrival : Certificate) (pool : Pool) : Prop :=
  ∀ v, (bound visit arrival pool).1 = some v → ∀ e, MayTake pool.book arrival e → v ≤ e.priority

theorem unbounded_sound_at (visit : Visit) (arrival : Certificate) (pool : Pool) :
    unbounded.SoundAt visit arrival pool := by
  intro v hv
  simp [unbounded] at hv

variable {bound bound' : Bound} {visit visit' : Visit} {m m' : Mut Pool PoolError Unit}
  {pool : Pool}

/-- With a sound bound the pass is decided by whether the arrival outbids somebody it may take:
if it does not, it is refused and no entry moves; if it does, the pass clears and judges the
budget. -/
theorem make_room_spec (hquiet : bound.Quiet)
    (hsound : bound.SoundAt visit arrival pool) :
    (Outbids pool.policy pool.book arrival → makeRoom bound visit reached overfull arrival pool =
        if overfull (cleared bound visit reached arrival pool).book then
          (.error .full, cleared bound visit reached arrival pool)
        else (.ok (), cleared bound visit reached arrival pool)) ∧
    (¬ Outbids pool.policy pool.book arrival →
      ∃ e, makeRoom bound visit reached overfull arrival pool =
        (.error e, (bound visit arrival pool).2)) := by
  obtain ⟨hint, hhint⟩ := hquiet visit arrival pool
  constructor
  · rintro ⟨e, he, hbeats⟩
    have hbook : (bound visit arrival pool).2.book = pool.book := by rw [hhint]
    have hcleared : cleared bound visit reached arrival pool = evict reached arrival
        (evictionOrder (collected visit pool.book arrival) arrival
          pool.policy.evictionBumpPercent) (bound visit arrival pool).2 := rfl
    unfold makeRoom
    rcases hb : bound visit arrival pool with ⟨value, pool'⟩
    rw [hb] at hbook hcleared
    dsimp only at hbook hcleared ⊢
    -- the bound does not refuse: it asks for no more than the resident outbid
    have hgate : (value.any fun h =>
        !beatsByBump arrival.feeBid.seqPriority h pool.policy.evictionBumpPercent) = false := by
      cases value with
      | none => rfl
      | some v =>
        have hle := hsound v (by rw [hb]) e he
        simp [beats_by_bump_of_le hle hbeats]
    rw [if_neg (by simp [hgate]), hbook]
    cases hcands : evictionCandidates visit pool.book (chainPrices visit pool.book) arrival with
    | none => exact absurd he (eviction_candidates_eq_none.mp hcands e)
    | some found =>
      obtain ⟨candidates, floor⟩ := found
      obtain ⟨rfl, -, hfloor⟩ := eviction_candidates_eq_some hcands
      have hbeats' := beats_by_bump_of_le (hfloor e he) hbeats
      dsimp only
      rw [if_neg (by simp [hbeats']), hcleared]
  · intro hno
    rcases @make_room_cases bound visit reached overfull arrival pool hquiet with hgate | ⟨hout, -⟩
    · exact hgate
    · exact absurd hout hno

theorem cleared_alike (hquiet : bound.Quiet) (hquiet' : bound'.Quiet) (visit visit' : Visit)
    (h : Alike a b) :
    Alike (cleared bound visit reached arrival a) (cleared bound' visit' reached arrival b) := by
  obtain ⟨hint, hhint⟩ := hquiet visit arrival a
  obtain ⟨hint', hhint'⟩ := hquiet' visit' arrival b
  have horder : evictionOrder (collected visit a.book arrival) arrival
      a.policy.evictionBumpPercent = evictionOrder (collected visit' b.book arrival) arrival
      b.policy.evictionBumpPercent := by
    rw [h.book, h.policy]
    exact eviction_order_visit visit visit' _ _ _
  unfold cleared
  rw [hhint, hhint', horder]
  exact (((Alike.of_hint a hint).trans h).trans (Alike.of_hint b hint').symm).evict _

/-- Two sound bounds make room alike. -/
theorem make_room_agrees (hquiet : bound.Quiet) (hquiet' : bound'.Quiet)
    (h : Alike a b) (hsound : bound.SoundAt visit arrival a)
    (hsound' : bound'.SoundAt visit' arrival b) :
    Agrees (makeRoom bound visit reached overfull arrival a)
      (makeRoom bound' visit' reached overfull arrival b) := by
  obtain ⟨hout, hno⟩ := @make_room_spec arrival reached overfull _ _ _ hquiet hsound
  obtain ⟨hout', hno'⟩ := @make_room_spec arrival reached overfull _ _ _ hquiet' hsound'
  rw [← h.policy, ← h.book] at hout' hno'
  by_cases houtbids : Outbids a.policy a.book arrival
  · have hcleared := @cleared_alike _ _ arrival reached _ _ hquiet hquiet' visit visit' h
    rw [hout houtbids, hout' houtbids, hcleared.book]
    split
    · exact ⟨rfl, hcleared⟩
    · exact ⟨rfl, hcleared⟩
  · obtain ⟨e, he⟩ := hno houtbids
    obtain ⟨e', he'⟩ := hno' houtbids
    obtain ⟨hint, hhint⟩ := hquiet visit arrival a
    obtain ⟨hint', hhint'⟩ := hquiet' visit' arrival b
    rw [he, he', hhint, hhint']
    exact ⟨rfl, ((Alike.of_hint a hint).trans h).trans (Alike.of_hint b hint').symm⟩

theorem counted_agrees (h : Agrees (m a) (m' b)) : Agrees (counted m a) (counted m' b) := by
  unfold counted orElse
  generalize m a = r at h ⊢
  generalize m' b = r' at h ⊢
  obtain ⟨hverdict, hpool⟩ := h
  rcases r with ⟨e | u, a'⟩ <;> rcases r' with ⟨e' | u', b'⟩
  · exact ⟨rfl, hpool.count_rejected⟩
  · simp [Except.isOk, Except.toBool] at hverdict
  · simp [Except.isOk, Except.toBool] at hverdict
  · exact ⟨rfl, hpool⟩

theorem bind_agrees {f f' : Unit → Mut Pool PoolError Unit} (h : Agrees (m a) (m' b))
    (hnext : ∀ a' b', m a = (.ok (), a') → Alike a' b' → Agrees (f () a') (f' () b')) :
    Agrees ((m >>= f) a) ((m' >>= f') b) := by
  simp only [Bind.bind]
  generalize m a = r at h hnext ⊢
  generalize m' b = r' at h ⊢
  obtain ⟨hverdict, hpool⟩ := h
  rcases r with ⟨e | u, a'⟩ <;> rcases r' with ⟨e' | u', b'⟩
  · exact ⟨rfl, hpool⟩
  · simp [Except.isOk, Except.toBool] at hverdict
  · simp [Except.isOk, Except.toBool] at hverdict
  · exact hnext a' b' rfl hpool

/-! ### One admission -/

theorem PassOutcome.hint_kept {c : Certificate} {triggered : Prop}
    {r : Except PoolError Unit × Pool}
    (hout : PassOutcome floorLowerBoundFor visit reached overfull c triggered pool r)
    (h : HintKept pool) : HintKept r.2 := by
  have hbound := (floor_lower_bound_le visit c h).1
  cases hout with
  | idle _ => exact h
  | gate e _ => exact hbound
  | crowded _ _ _ | clear _ _ _ => exact hint_kept_evict hbound

theorem count_pass_agrees (c : Certificate) (h : Alike a b) (hkept : HintKept a) :
    Agrees (countPass floorLowerBoundFor visit c a) (countPass unbounded visit' c b) := by
  rw [count_pass_eq, count_pass_eq, h.policy, h.book]
  split
  · exact counted_agrees (make_room_agrees floor_lower_bound_quiet unbounded_quiet h
      (floor_lower_bound_le visit c hkept).2 (unbounded_sound_at visit' c b))
  · exact ⟨rfl, h⟩

theorem byte_pass_agrees (c : Certificate) (h : Alike a b) (hkept : HintKept a) :
    Agrees (bytePass floorLowerBoundFor visit c a) (bytePass unbounded visit' c b) := by
  rw [byte_pass_eq, byte_pass_eq, h.policy, h.book]
  split
  · exact counted_agrees (make_room_agrees floor_lower_bound_quiet unbounded_quiet h
      (floor_lower_bound_le visit c hkept).2 (unbounded_sound_at visit' c b))
  · exact ⟨rfl, h⟩

variable [Crypto] {p : Params} {c : Certificate} {s : StateReader} {tip : UInt64}

theorem gates_alike (id : Hash) (h : Alike a b) : gates p a c id s tip = gates p b c id s tip := by
  unfold gates Pool.has
  rw [h.policy, h.book]

theorem enter_alike (reserve : U256) (h : Alike a b) :
    Alike (enter visit c reserve a) (enter visit' c reserve b) := by
  obtain ⟨hint, hhint⟩ := enter_eq visit c reserve a
  obtain ⟨hint', hhint'⟩ := enter_eq visit' c reserve b
  rw [hhint, hhint']
  exact ⟨h.policy, by rw [h.book], by simp only [Pool.countAdmitted, h.counts]⟩

theorem screen_alike (id : Hash) (h : Alike a b) :
    (∃ passed, screen p c id s tip a = (.ok passed, a) ∧ screen p c id s tip b = (.ok passed, b)) ∨
    ∃ e a' b', screen p c id s tip a = (.error e, a') ∧ screen p c id s tip b = (.error e, b') ∧
      Alike a' b' := by
  unfold screen
  rw [gates_alike id h]
  cases gates p b c id s tip with
  | ok passed => exact .inl ⟨passed, rfl, rfl⟩
  | error e =>
    refine .inr ⟨e, _, _, rfl, rfl, ?_⟩
    split
    · exact h
    · exact h.count_rejected

/-- Admission with the hint and without it agree. -/
theorem admit_agrees (h : Alike a b) (hkept : HintKept a) :
    Agrees (admitCert floorLowerBoundFor p visit c s tip a)
      (admitCert unbounded p visit' c s tip b) := by
  have hrest : ∀ passed : Screened, Agrees
      ((countPass floorLowerBoundFor visit c >>= fun _ => bytePass floorLowerBoundFor visit c >>=
        fun _ => modify (enter visit c passed.reserve)) a)
      ((countPass unbounded visit' c >>= fun _ => bytePass unbounded visit' c >>=
        fun _ => modify (enter visit' c passed.reserve)) b) := by
    intro passed
    refine bind_agrees (count_pass_agrees c h hkept) fun a' b' hcount halike => ?_
    have hkept' := (count_pass_outcome floor_lower_bound_quiet visit c a).hint_kept hkept
    rw [hcount] at hkept'
    refine bind_agrees (byte_pass_agrees c halike hkept') fun a'' b'' _ halike' => ?_
    exact ⟨rfl, enter_alike _ halike'⟩
  unfold admitCert
  simp only [Bind.bind] at hrest ⊢
  rcases screen_alike c.id h with ⟨passed, hpass, hpass'⟩ | ⟨e, a', b', hfail, hfail', halike⟩
  · rw [hpass, hpass']
    exact hrest passed
  · rw [hfail, hfail']
    exact ⟨rfl, halike⟩

/-- Admission keeps the hint sound. -/
theorem admit_hint_kept (hkept : HintKept pool) :
    HintKept (admitCert floorLowerBoundFor p visit c s tip pool).2 := by
  have hout := admit_outcome floorLowerBoundFor p visit c s tip pool
  have hcount := (count_pass_outcome floor_lower_bound_quiet visit c pool).hint_kept hkept
  have htakes := (count_pass_outcome floor_lower_bound_quiet visit c pool).takes
    floor_lower_bound_quiet
  revert hout
  generalize admitCert floorLowerBoundFor p visit c s tip pool = r
  intro hout
  cases hout with
  | screened e pool' heq _ =>
    rcases heq with rfl | rfl
    · exact hkept
    · exact hkept
  | count passed e pool' _ heq =>
    rw [heq] at hcount
    exact hcount
  | bytes passed mid e pool' _ heq hbytes =>
    rw [heq] at hcount
    have hkept' := (byte_pass_outcome floor_lower_bound_quiet visit c mid).hint_kept hcount
    rw [hbytes] at hkept'
    exact hkept'
  | admitted passed mid mid' hpass heq hbytes =>
    rw [heq] at hcount htakes
    have hbyte := byte_pass_outcome floor_lower_bound_quiet visit c mid
    have hkept' := hbyte.hint_kept hcount
    have htakes' := (hbyte.takes floor_lower_bound_quiet).2
    rw [hbytes] at hkept' htakes'
    have hfresh : mid'.book.has c.id = false := by
      refine has_eq_false.mpr fun e he => ?_
      exact has_eq_false.mp hpass.fresh e (htakes.2.sub (htakes'.sub he))
    exact hint_kept_push visit (e := entryOf c passed.reserve) hfresh rfl hkept'

theorem section_hint_kept (p : Params) (sec : Section) (h : HintKept pool) :
    HintKept (sec.run p pool) := by
  cases sec with
  | countRejected => exact h
  | screen c s tip =>
    show HintKept (screen p c c.id s tip pool).2
    rcases screen_cases p c c.id s tip pool with ⟨passed, heq, -⟩ | ⟨e, heq | heq, -⟩ <;>
      rw [heq] <;> exact h
  | admitCert visit c s tip => exact admit_hint_kept h
  | remove ids => exact hint_kept_remove ids h
  | rescreen s tip => exact hint_kept_evict_all _ (hint_kept_evict_all _ h)
  | onBlock b s tip => exact hint_kept_evict_all _ (hint_kept_evict_all _ (hint_kept_remove _ h))

omit [Crypto] in
theorem new_hint_kept (policy : Policy) : HintKept (.new policy) := fun _ =>
  ⟨fun i _ _ x y hx => by simp [Pool.new] at hx,
    ⟨fun e he => by simp [Pool.new, Book.residents, Book.empty, FinMap.empty] at he,
      fun u hu => absurd rfl hu⟩,
    fun e he => by simp [Pool.new, Book.residents, Book.empty, FinMap.empty] at he⟩

theorem run_hint_kept (p : Params) (sections : List Section) (policy : Policy) :
    HintKept (runSections p sections (.new policy)) := by
  exact sections.foldlRecOn _ (new_hint_kept policy) fun _ h sec _ => section_hint_kept p sec h

/-! ## Whole histories -/

omit [Crypto] in
theorem checked_agrees (r : Except RuleError Unit) (h : Alike a b) :
    Agrees (checked r a) (checked r b) := by
  cases r with
  | ok u => exact ⟨rfl, h⟩
  | error cause => exact ⟨rfl, h.count_rejected⟩

omit [Crypto] in
theorem checked_eq_ok {r : Except RuleError Unit} {pool pool' : Pool}
    (h : checked r pool = (.ok (), pool')) : pool' = pool := by
  cases r with
  | ok u => exact (congrArg Prod.snd h).symm
  | error cause => exact absurd (congrArg (fun r => r.1.isOk) h) (by
      simp [checked, counted, Mut.orElse, Mut.fail, Except.isOk, Except.toBool])

theorem add_agrees (h : Alike a b) (hkept : HintKept a) :
    Agrees (add p visit c s tip a) (addWith unbounded p visit' c s tip b) := by
  refine bind_agrees (checked_agrees _ h) fun a' b' hok halike => ?_
  obtain rfl := checked_eq_ok hok
  simp only [Bind.bind]
  rcases screen_alike c.id halike with ⟨passed, hpass, hpass'⟩ | ⟨e, a₁, b₁, hfail, hfail', halike'⟩
  · rw [hpass, hpass']
    refine bind_agrees (checked_agrees _ halike) fun a₁ b₁ hok' halike' => ?_
    obtain rfl := checked_eq_ok hok'
    exact admit_agrees halike' hkept
  · rw [hfail, hfail']
    exact ⟨rfl, halike'⟩

/-- A section with the fast path switched off. -/
def Section.runExact (p : Params) : Section → Pool → Pool
  | admitCert visit c s tip, pool => (Mempool.admitCert unbounded p visit c s tip pool).2
  | sec, pool => sec.run p pool

/-- The pool after a sequence of sections with the fast path switched off. -/
def runExact (p : Params) (sections : List Section) (pool : Pool) : Pool :=
  sections.foldl (fun pool sec => sec.runExact p pool) pool

theorem section_alike (p : Params) (sec : Section) (h : Alike a b) (hkept : HintKept a) :
    Alike (sec.run p a) (sec.runExact p b) := by
  cases sec with
  | countRejected => exact h.count_rejected
  | screen c s tip =>
    show Alike (screen p c c.id s tip a).2 (screen p c c.id s tip b).2
    rcases @screen_alike a b _ p c s tip c.id h with ⟨_, ha, hb⟩ | ⟨_, _, _, ha, hb, halike⟩ <;>
      rw [ha, hb]
    · exact h
    · exact halike
  | admitCert visit c s tip => exact (admit_agrees h hkept).pool
  | remove ids => exact h.remove ids
  | rescreen s tip => exact h.rescreen p s tip
  | onBlock b s tip => exact (h.remove _).rescreen p s tip

theorem run_alike (p : Params) (sections : List Section) (h : Alike a b) (hkept : HintKept a) :
    Alike (runSections p sections a) (runExact p sections b) := by
  induction sections generalizing a b with
  | nil => exact h
  | cons sec rest ih => exact ih (section_alike p sec h hkept) (section_hint_kept p sec hkept)

/-- The floor hint is invisible, after every history of critical sections: the bound it gives an
arrival is at most the arrival's eviction floor; an `Add` with the fast path and one without give
one verdict and leave one pool, whatever order they visit the pool in; and a whole history with
the fast path leaves the pool it leaves without. -/
theorem floor_hint_invisible (p : Params) (policy : Policy) (sections : List Section) :
    (∀ (visit visit' : Visit) (arrival : Certificate) (v : U256) (candidates : List Candidate)
      (floor : U256),
      (floorLowerBoundFor visit arrival (runSections p sections (.new policy))).1 = some v →
      evictionCandidates visit' (runSections p sections (.new policy)).book
        (chainPrices visit' (runSections p sections (.new policy)).book) arrival =
          some (candidates, floor) →
      v ≤ floor) ∧
    (∀ (visit visit' : Visit) (c : Certificate) (s : StateReader) (tip : UInt64),
      Agrees (add p visit c s tip (runSections p sections (.new policy)))
        (addWith unbounded p visit' c s tip (runSections p sections (.new policy)))) ∧
    Alike (runSections p sections (.new policy)) (runExact p sections (.new policy)) := by
  have hkept := run_hint_kept p sections policy
  refine ⟨?_, ?_, ?_⟩
  · intro visit visit' arrival v candidates floor hbound hcands
    obtain ⟨-, ⟨e, he, hprice⟩, -⟩ := eviction_candidates_eq_some hcands
    rw [← hprice]
    exact (floor_lower_bound_le visit arrival hkept).2 v hbound e he
  · intro visit visit' c s tip
    exact add_agrees (Alike.refl _) hkept
  · exact run_alike p sections (Alike.refl _) (new_hint_kept policy)

end Agreement

/-! ## A pool with a bound -/

section

open Fold.Sample

attribute [local instance] Reference.crypto

namespace Sample

/-- A payment of an account at a price. -/
def priced (n : ℕ) (seq : UInt64) (price : ℕ) : Certificate :=
  { certificate (.transfer [⟨nativeAsset, user n, user 9, .ofNat 5⟩]) seq (user n) 10000
    [key n] with
    feeBid := ⟨.ofNat price, .ofNat price, .ofNat 2, 1⟩ }

/-- Pool one certificate after another against a state, at height one. -/
def admitAll (s : StateReader) (certs : List Certificate) : List Section :=
  certs.map fun c => .admitCert .byID c s 1

end Sample

open Sample

/-- A chain of two certificates, the cheap one below: the bound for a stranger is the price of the
upper one, which is the floor. -/
theorem sample_floor_hint_invisible :
    let pool := runSections params (admitAll (flush 30000) [priced 1 0 3, priced 1 1 7])
      (.new defaultPolicy)
    (floorLowerBoundFor .byID (priced 2 0 9) pool).1 = some (.ofNat 7) ∧
    (∀ candidates floor, evictionCandidates .byID pool.book (chainPrices .byID pool.book)
      (priced 2 0 9) = some (candidates, floor) → U256.ofNat 7 ≤ floor) := by
  intro pool
  have hbound : (floorLowerBoundFor .byID (priced 2 0 9) pool).1 = some (.ofNat 7) := by
    decide +kernel
  exact ⟨hbound, fun candidates floor hcands =>
    (floor_hint_invisible params defaultPolicy _).1 .byID .byID _ _ candidates floor hbound hcands⟩

end

end Zycord.Mempool
