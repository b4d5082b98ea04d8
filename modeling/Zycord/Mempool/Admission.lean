import Zycord.Mempool.Book

/-!
# What an admission can do

One description for each step of `Add`, from which the invariants of the pool follow. The screen
changes no book. A room-making pass takes residents off the book one at a time (`Takes`): each is
outbid by the arrival, sits at the end of its chain, and is not below the arrival in the arrival's
own chain. `admit_cases` puts the steps together: an admission is refused, with some residents
taken or none, or it takes some and enters the arrival.
-/

namespace Zycord.Mempool

open Book Except FinMap Validity List

/-! ## The screen -/

section Screen

variable [Crypto] {p : Params} {pool : Pool} {c : Certificate} {id : Hash} {s : StateReader}
  {tip : UInt64} {passed : Screened}

/-- What an arrival that passes the gates satisfies. -/
structure Passes (p : Params) (pool : Pool) (c : Certificate) (id : Hash) (s : StateReader)
    (tip : UInt64) (passed : Screened) : Prop where
  fresh : pool.has id = false
  live : ¬ c.ttl < tip + 1
  near : ¬ c.ttl - (tip + 1) > p.ttlMax
  lead : ¬ c.ttl - tip < pool.policy.minTTLLead
  unseen : (s.seen id).isSome = false
  priced : ¬ (c.feeBid.seqMax < s.get seqBaseFeeSlot ∨ c.feeBid.parMax < s.get parBaseFeeSlot)
  reserve : ∃ ceiling, c.feeCeiling p = some ceiling ∧
    passed.reserve = U256.maxOf c.deposit.amount ceiling
  unspent : s.isSpent c.deposit.cell.addr = false
  funded : (pool.book.byUnderwriterReserve.get c.underwriterID).satAdd passed.reserve ≤
    s.get c.deposit.cell
  quota : pool.book.byUnderwriter.get c.underwriterID < pool.policy.maxPerUnderwriter.toInt
  underwriter : passed.underwriter = c.underwriterID

/-- The gates pass exactly the certificates of the specification. -/
theorem gates_eq_ok : gates p pool c id s tip = .ok passed ↔ Passes p pool c id s tip passed := by
  simp only [gates, seq_eq_ok, reject_if_eq_ok]
  constructor
  · rintro ⟨hfresh, hlive, hnear, hlead, hunseen, hpriced, hrest⟩
    split at hrest
    · simp at hrest
    · rename_i ceiling hceiling
      simp only [seq_eq_ok, reject_if_eq_ok, pure_eq_ok, not_or, not_lt, not_le] at hrest
      obtain ⟨⟨hspent, hfunded⟩, hquota, rfl⟩ := hrest
      exact ⟨by simpa using hfresh, hlive, hnear, hlead, by simpa using hunseen, hpriced,
        ⟨ceiling, hceiling, rfl⟩, by simpa using hspent, hfunded, hquota, rfl⟩
  · intro h
    obtain ⟨ceiling, hceiling, hreserve⟩ := h.reserve
    refine ⟨by simp [h.fresh], h.live, h.near, h.lead, by simp [h.unseen], h.priced, ?_⟩
    simp only [hceiling, seq_eq_ok, reject_if_eq_ok, pure_eq_ok, not_or, not_lt, not_le, ← hreserve]
    refine ⟨⟨by simp [h.unspent], h.funded⟩, h.quota, ?_⟩
    rw [← h.underwriter]

theorem screen_cases (p : Params) (c : Certificate) (id : Hash) (s : StateReader) (tip : UInt64)
    (pool : Pool) :
    (∃ passed, screen p c id s tip pool = (.ok passed, pool) ∧ Passes p pool c id s tip passed) ∨
    ∃ e, (screen p c id s tip pool = (.error e, pool) ∨
      screen p c id s tip pool = (.error e, pool.countRejected)) ∧
      gates p pool c id s tip = .error e := by
  unfold screen
  cases hgates : gates p pool c id s tip with
  | ok passed => exact .inl ⟨passed, rfl, gates_eq_ok.mp hgates⟩
  | error e =>
    refine .inr ⟨e, ?_, rfl⟩
    dsimp only
    split
    · exact .inl rfl
    · exact .inr rfl

end Screen

/-! ## The price of a chain -/

section Prices

variable {visit : Visit} {b : Book} {e f : Entry}

/-- `out` holds, for the underwriters of `l`, the highest `Seq` of their entries. -/
structure Summary (l : List Entry) (out : FinMap Address ChainPrice) : Prop where
  upper : ∀ u c, out.find? u = some c → ∀ e ∈ l, e.underwriter = u → e.seq ≤ c.maxSeq
  attained : ∀ u c, out.find? u = some c → ∃ e ∈ l, e.underwriter = u ∧ e.seq = c.maxSeq
  absent : ∀ u, out.find? u = none → ∀ e ∈ l, e.underwriter ≠ u

variable {l : List Entry} {out : FinMap Address ChainPrice}

/-- One more entry updates a chain's summary. -/
theorem Summary.add (h : Summary l out) (e : Entry) : Summary (l ++ [e]) (addPrice out e) := by
  -- the entry's own underwriter gets the larger of the two places, the others stay as they are
  obtain ⟨c', hc', hle, hge, hatt⟩ : ∃ c', addPrice out e = out.insert e.underwriter c' ∧
      e.seq ≤ c'.maxSeq ∧ (∀ f ∈ l, f.underwriter = e.underwriter → f.seq ≤ c'.maxSeq) ∧
      ∃ f ∈ l ++ [e], f.underwriter = e.underwriter ∧ f.seq = c'.maxSeq := by
    unfold addPrice
    split
    · rename_i hnone
      exact ⟨_, rfl, UInt64.le_refl _, fun f hf hu => absurd hu (h.absent _ hnone f hf),
        e, by simp, rfl, rfl⟩
    · rename_i c hsome
      refine ⟨_, rfl, ?_, fun f hf hu => ?_, ?_⟩
      · split_ifs with hlt
        · exact UInt64.le_refl _
        · exact UInt64.not_lt.mp hlt
      · have hf' := h.upper _ c hsome f hf hu
        split_ifs with hlt
        · exact UInt64.le_trans hf' (UInt64.le_of_lt hlt)
        · exact hf'
      · split
        · exact ⟨e, by simp, rfl, rfl⟩
        · obtain ⟨f, hf, hfu, hfs⟩ := h.attained _ c hsome
          exact ⟨f, by simp [hf], hfu, hfs⟩
  rw [hc']
  constructor
  · intro u c hfind
    rw [find_insert] at hfind
    split_ifs at hfind with heq
    · cases hfind
      exact heq ▸ forall_mem_append.mpr ⟨hge, by simpa using hle⟩
    · exact forall_mem_append.mpr ⟨h.upper u c hfind, by simp [heq]⟩
  · intro u c hfind
    rw [find_insert] at hfind
    split_ifs at hfind with heq
    · cases hfind
      exact heq ▸ hatt
    · obtain ⟨f, hf, hfu, hfs⟩ := h.attained u c hfind
      exact ⟨f, by simp [hf], hfu, hfs⟩
  · intro u hfind
    rw [find_insert] at hfind
    split_ifs at hfind with hne
    exact forall_mem_append.mpr ⟨h.absent u hfind, by simpa using hne⟩

theorem Summary.foldl {rest : List Entry} (h : Summary l out) :
    Summary (l ++ rest) (rest.foldl addPrice out) := by
  induction rest generalizing l out with
  | nil => simpa using h
  | cons e rest ih => simpa using ih (h.add e)

theorem summary_chain_prices (visit : Visit) (b : Book) :
    Summary (visit.order .prices b.residents) (chainPrices visit b) := by
  have hempty : Summary [] (empty : FinMap Address ChainPrice) := ⟨nofun, nofun, nofun⟩
  exact hempty.foldl

theorem Visit.mem_order {loop : Loop} : e ∈ visit.order loop b.residents ↔ e ∈ b.residents :=
  (visit.perm loop _).mem_iff

/-- An entry at the end of its underwriter's chain. -/
def Tail (b : Book) (e : Entry) : Prop :=
  ∀ f ∈ b.residents, f.underwriter = e.underwriter → f.seq ≤ e.seq

/-- Evictable are the tails of the chains. -/
theorem evictable_iff (he : e ∈ b.residents) :
    evictable (chainPrices visit b) e = true ↔ Tail b e := by
  have hsum := summary_chain_prices visit b
  cases hfind : (chainPrices visit b).find? e.underwriter with
  | none => exact absurd rfl (hsum.absent _ hfind e (Visit.mem_order.mpr he))
  | some c =>
    simp only [evictable, priceOf, hfind, Option.getD_some, decide_eq_true_eq]
    constructor
    · intro heq f hf hu
      rw [heq]
      exact hsum.upper _ c hfind f (Visit.mem_order.mpr hf) hu
    · intro htail
      obtain ⟨f, hf, hfu, hfs⟩ := hsum.attained _ c hfind
      have hle := htail f (Visit.mem_order.mp hf) hfu
      rw [hfs] at hle
      exact UInt64.le_antisymm (hsum.upper _ c hfind e (Visit.mem_order.mpr he) rfl) hle

end Prices

/-! ## Whom an arrival may take -/

section Candidates

variable {visit : Visit} {b : Book} {arrival : Certificate} {e : Entry}

/-- `MayTake b arrival e`: `e` is pooled, at the end of its chain, and not below the arrival in the
arrival's own chain. -/
structure MayTake (b : Book) (arrival : Certificate) (e : Entry) : Prop where
  mem : e ∈ b.residents
  tail : Tail b e
  other : ownChainBase arrival e.seq e.underwriter = false

/-- The candidates the source collects. -/
def collected (visit : Visit) (b : Book) (arrival : Certificate) : List Candidate :=
  ((visit.order .candidates b.residents).filter fun e =>
    evictable (chainPrices visit b) e && !ownChainBase arrival e.seq e.underwriter).map
    fun e => ⟨e, (priceOf (chainPrices visit b) e.underwriter).price⟩

theorem mem_collected (visit : Visit) :
    (∃ c ∈ collected visit b arrival, c.entry = e) ↔ MayTake b arrival e := by
  simp only [collected, mem_map, mem_filter, Bool.and_eq_true, Bool.not_eq_true', Visit.mem_order]
  constructor
  · rintro ⟨c, ⟨f, ⟨hf, hev, hown⟩, rfl⟩, rfl⟩
    exact ⟨hf, (evictable_iff hf).mp hev, hown⟩
  · intro h
    exact ⟨_, ⟨e, ⟨h.mem, (evictable_iff h.mem).mpr h.tail, h.other⟩, rfl⟩, rfl⟩

/-- The floor loop finds the lowest price. -/
theorem floor_spec (rest : List Candidate) (floor : U256) :
    let low := rest.foldl (fun floor c =>
      if c.entry.priority < floor then c.entry.priority else floor) floor
    (low = floor ∨ ∃ c ∈ rest, c.entry.priority = low) ∧ low ≤ floor ∧
      ∀ c ∈ rest, low ≤ c.entry.priority := by
  induction rest generalizing floor with
  | nil => simp
  | cons c rest ih =>
    simp only [foldl_cons]
    obtain ⟨hone, hle, hall⟩ := ih (if c.entry.priority < floor then c.entry.priority else floor)
    have hmin : (if c.entry.priority < floor then c.entry.priority else floor) ≤ floor ∧
        (if c.entry.priority < floor then c.entry.priority else floor) ≤ c.entry.priority := by
      split_ifs with hlt
      · exact ⟨hlt.le, le_rfl⟩
      · exact ⟨le_rfl, not_lt.mp hlt⟩
    refine ⟨?_, hle.trans hmin.1, forall_mem_cons.mpr ⟨hle.trans hmin.2, hall⟩⟩
    rcases hone with heq | ⟨d, hd, heq⟩
    · rw [heq]
      split
      · exact .inr ⟨c, mem_cons_self, rfl⟩
      · exact .inl rfl
    · exact .inr ⟨d, mem_cons_of_mem _ hd, heq⟩

theorem eviction_candidates_eq : evictionCandidates visit b (chainPrices visit b) arrival =
    (collected visit b arrival).head?.map fun first =>
      (collected visit b arrival, (collected visit b arrival).tail.foldl (fun floor c =>
        if c.entry.priority < floor then c.entry.priority else floor) first.entry.priority) := by
  unfold evictionCandidates collected
  dsimp only
  split <;> rename_i heq <;> rw [heq] <;> rfl

theorem eviction_candidates_eq_none :
    evictionCandidates visit b (chainPrices visit b) arrival = none ↔
      ∀ e, ¬ MayTake b arrival e := by
  rw [eviction_candidates_eq, Option.map_eq_none_iff, head?_eq_none_iff]
  constructor
  · intro hnil e he
    obtain ⟨c, hc, -⟩ := (mem_collected visit).mpr he
    simp [hnil] at hc
  · intro hno
    refine eq_nil_iff_forall_not_mem.mpr fun c hc => ?_
    exact hno c.entry ((mem_collected visit).mp ⟨c, hc, rfl⟩)

/-- The candidates are the entries an arrival may take, and the floor their lowest. -/
theorem eviction_candidates_eq_some {candidates : List Candidate} {floor : U256}
    (h : evictionCandidates visit b (chainPrices visit b) arrival = some (candidates, floor)) :
    candidates = collected visit b arrival ∧ (∃ e, MayTake b arrival e ∧ e.priority = floor) ∧
      ∀ e, MayTake b arrival e → floor ≤ e.priority := by
  rw [eviction_candidates_eq] at h
  cases hall : collected visit b arrival with
  | nil => simp [hall] at h
  | cons first rest =>
    rw [hall] at h
    obtain ⟨rfl, rfl⟩ := h
    obtain ⟨hone, hle, hrest⟩ := floor_spec rest first.entry.priority
    have hmay : ∀ c ∈ first :: rest, MayTake b arrival c.entry := fun c hc =>
      (mem_collected visit).mp ⟨c, hall ▸ hc, rfl⟩
    refine ⟨rfl, ?_, fun e he => ?_⟩
    · rcases hone with heq | ⟨c, hc, heq⟩
      · exact ⟨first.entry, hmay _ mem_cons_self, heq.symm⟩
      · exact ⟨c.entry, hmay c (mem_cons_of_mem _ hc), heq⟩
    · obtain ⟨c, hc, rfl⟩ := (mem_collected visit).mpr he
      rw [hall] at hc
      rcases mem_cons.mp hc with rfl | hc
      · exact hle
      · exact hrest c hc

theorem mem_eviction_order (visit : Visit) {bump : UInt64} :
    e ∈ evictionOrder (collected visit b arrival) arrival bump ↔ MayTake b arrival e ∧
        beatsByBump arrival.feeBid.seqPriority e.priority bump = true := by
  rw [← mem_collected visit]
  simp only [evictionOrder, mem_map, (perm_insertionSort _ _).mem_iff, mem_filter]
  constructor
  · rintro ⟨c, ⟨hc, hbeat⟩, rfl⟩
    exact ⟨⟨c, hc, rfl⟩, hbeat⟩
  · rintro ⟨⟨c, hc, rfl⟩, hbeat⟩
    exact ⟨c, ⟨hc, hbeat⟩, rfl⟩

end Candidates

/-! ## Taking residents off the book -/

section Taking

variable {arrival : Certificate} {bump : UInt64} {b b' : Book}

/-- `Takes bump arrival b b'`: the book `b'` is left when an arrival takes residents off `b`, one
at a time, each of them one it outbids and may take. -/
inductive Takes (bump : UInt64) (arrival : Certificate) (b : Book) : Book → Prop where
  | none : Takes bump arrival b b
  | one {mid : Book} {v : Entry} : Takes bump arrival b mid → MayTake mid arrival v →
      beatsByBump arrival.feeBid.seqPriority v.priority bump = true →
      Takes bump arrival b (mid.take v)

variable (h : Takes bump arrival b b')

include h

theorem Takes.trans {b'' : Book} (h' : Takes bump arrival b' b'') : Takes bump arrival b b'' := by
  induction h' with
  | none => exact h
  | one _ hv hbeats ih => exact ih.one hv hbeats

theorem Takes.sub {e : Entry} (he : e ∈ b'.residents) : e ∈ b.residents := by
  induction h with
  | none => exact he
  | one _ _ _ ih => exact ih (mem_take.mp he).1

theorem Takes.keeps {P : Book → Prop} (htake : ∀ b e, e ∈ b.residents → P b → P (b.take e))
    (hb : P b) : P b' := by
  induction h with
  | none => exact hb
  | one _ hv _ ih => exact htake _ _ hv.mem ih

/-- Whatever was taken was a cheaper tail of another chain. -/
theorem Takes.removed {e : Entry} (he : e ∈ b.residents) (hgone : e ∉ b'.residents) :
    beatsByBump arrival.feeBid.seqPriority e.priority bump = true ∧ Tail b' e ∧
      ownChainBase arrival e.seq e.underwriter = false := by
  induction h with
  | none => exact absurd he hgone
  | @one mid v hmid hv hbeats ih =>
    by_cases hstill : e ∈ mid.residents
    · -- the last one taken
      have hid : e.id = v.id := by
        by_contra hne
        exact hgone (mem_take.mpr ⟨hstill, hne⟩)
      obtain rfl := eq_of_id hstill hv.mem hid
      exact ⟨hbeats, fun f hf hu => hv.tail f (mem_take.mp hf).1 hu, hv.other⟩
    · obtain ⟨hbeat, htail, hother⟩ := ih hstill
      exact ⟨hbeat, fun f hf hu => htail f (mem_take.mp hf).1 hu, hother⟩

theorem Takes.length_le : b'.residents.length ≤ b.residents.length := by
  induction h with
  | none => exact le_rfl
  | one _ hv _ ih =>
    have := length_take hv.mem
    omega

end Taking

/-! ## The loop over the victims -/

section Evict

variable {reached : Book → Bool} {arrival : Certificate} {pool : Pool} {victims : List Entry}

@[simp] theorem policy_evict : (evict reached arrival victims pool).policy = pool.policy := by
  induction victims generalizing pool with
  | nil => rfl
  | cons v rest ih =>
    unfold evict
    split_ifs
    · rfl
    · exact ih
    · exact ih
    · rw [ih, policy_count_evicted, policy_remove_locked]

variable {v : Entry}

theorem book_remove_mem (hv : v ∈ pool.book.residents) :
    (pool.removeLocked v.id).book = pool.book.take v := by
  unfold Pool.removeLocked
  rw [mem_residents.mp hv]

/-- Eviction removes only what the arrival may take. -/
theorem evict_takes {orig : Book} (hsub : ∀ e ∈ pool.book.residents, e ∈ orig.residents)
    (hvictims : ∀ v ∈ victims, MayTake orig arrival v) :
    Takes pool.policy.evictionBumpPercent arrival pool.book
      (evict reached arrival victims pool).book := by
  induction victims generalizing pool with
  | nil => exact .none
  | cons v rest ih =>
    have hrest : ∀ v ∈ rest, MayTake orig arrival v := fun w hw =>
      hvictims w (mem_cons_of_mem _ hw)
    unfold evict
    split_ifs with _ hbeats hown
    · exact .none
    · exact ih hsub hrest
    · exact ih hsub hrest
    · have hmay := hvictims v mem_cons_self
      have hnext := @ih (pool.removeLocked v.id).countEvicted
        (fun e he => hsub e (mem_remove_locked.mp he).1) hrest
      rw [book_count_evicted, policy_count_evicted, policy_remove_locked] at hnext
      by_cases hv : v ∈ pool.book.residents
      · have htail : Tail pool.book v := fun f hf hu => hmay.tail f (hsub f hf) hu
        rw [book_remove_mem hv] at hnext
        exact (Takes.none.one ⟨hv, htail, hmay.other⟩ (by simpa using hbeats)).trans hnext
      · -- it left before: nothing under its id is pooled
        rcases remove_locked_cases pool v.id with ⟨heq, -⟩ | ⟨e, he, hid, -⟩
        · rw [heq] at hnext ⊢
          exact hnext
        · rw [eq_of_id (hsub e he) hmay.mem hid] at he
          exact absurd he hv

theorem evict_sub {e : Entry} (he : e ∈ (evict reached arrival victims pool).book.residents) :
    e ∈ pool.book.residents := by
  induction victims generalizing pool with
  | nil => exact he
  | cons v rest ih =>
    unfold evict at he
    split_ifs at he
    · exact he
    · exact ih he
    · exact ih he
    · have hmid := ih he
      exact (mem_remove_locked.mp hmid).1

theorem evict_first {rest : List Entry} (hmay : MayTake pool.book arrival v)
    (hbeats : beatsByBump arrival.feeBid.seqPriority v.priority pool.policy.evictionBumpPercent =
      true)
    (hreached : reached pool.book = false) :
    v ∉ (evict reached arrival (v :: rest) pool).book.residents := by
  unfold evict
  rw [if_neg (by simp [hreached]), if_neg (by simp [hbeats]), if_neg (by simp [hmay.other])]
  intro hv
  have hmid := evict_sub hv
  exact (mem_remove_locked.mp hmid).2 rfl

/-- The loop over the victims ends at its mark or with every victim gone. -/
theorem evict_ends (hmay : ∀ v ∈ victims, ownChainBase arrival v.seq v.underwriter = false)
    (hbeats : ∀ v ∈ victims, beatsByBump arrival.feeBid.seqPriority v.priority
      pool.policy.evictionBumpPercent = true) :
    reached (evict reached arrival victims pool).book = true ∨
      ∀ v ∈ victims, v ∉ (evict reached arrival victims pool).book.residents := by
  induction victims generalizing pool with
  | nil => exact .inr (by simp)
  | cons v rest ih =>
    have hv := hbeats v mem_cons_self
    have hother := hmay v mem_cons_self
    unfold evict
    split_ifs with hreached hcheap hown
    · exact .inl hreached
    · simp [hv] at hcheap
    · simp [hother] at hown
    · have hnext := @ih (pool.removeLocked v.id).countEvicted
        (fun w hw => hmay w (mem_cons_of_mem _ hw)) fun w hw => by
          rw [policy_count_evicted, policy_remove_locked]
          exact hbeats w (mem_cons_of_mem _ hw)
      refine hnext.imp_right fun hgone w hw => ?_
      rcases mem_cons.mp hw with rfl | hw
      · intro hstill
        have hmid := evict_sub hstill
        rw [book_count_evicted] at hmid
        exact (mem_remove_locked.mp hmid).2 rfl
      · exact hgone w hw

/-- Whoever is not among the victims stays. -/
theorem evict_spares {e : Entry} (he : e ∈ pool.book.residents)
    (hnot : ∀ v ∈ victims, v.id ≠ e.id) :
    e ∈ (evict reached arrival victims pool).book.residents := by
  induction victims generalizing pool with
  | nil => exact he
  | cons v rest ih =>
    have hrest : ∀ w ∈ rest, w.id ≠ e.id := fun w hw => hnot w (mem_cons_of_mem _ hw)
    unfold evict
    split_ifs
    · exact he
    · exact ih he hrest
    · exact ih he hrest
    · refine ih ?_ hrest
      rw [book_count_evicted]
      exact mem_remove_locked.mpr ⟨he, (hnot v mem_cons_self).symm⟩

/-- The count pass never goes below its mark. -/
theorem evict_count_ge {policy : Policy}
    (h : policy.lowWater.toInt ≤ pool.book.residents.length) :
    policy.lowWater.toInt ≤
      (evict (countReached policy) arrival victims pool).book.residents.length := by
  induction victims generalizing pool with
  | nil => exact h
  | cons v rest ih =>
    unfold evict
    split_ifs with hreached
    · exact h
    · exact ih h
    · exact ih h
    · refine ih ?_
      have hlt : policy.lowWater.toInt < pool.book.residents.length := by
        simpa [countReached] using hreached
      rw [book_count_evicted]
      rcases remove_locked_cases pool v.id with ⟨heq, -⟩ | ⟨e, he, -, heq⟩ <;> rw [heq]
      · exact h
      · have := length_take he
        dsimp only
        omega

end Evict

/-! ## A room-making pass -/

section Room

variable {bound : Bound} {visit : Visit} {reached overfull : Book → Bool} {arrival : Certificate}
  {pool : Pool}

/-- A bound that leaves everything but the hint alone. -/
def Bound.Quiet (bound : Bound) : Prop :=
  ∀ visit arrival pool, ∃ hint, (bound visit arrival pool).2 = { pool with hint := hint }

theorem unbounded_quiet : unbounded.Quiet := fun _ _ pool => ⟨pool.hint, rfl⟩

theorem floor_hint_top_snd (visit : Visit) (pool : Pool) :
    ∃ hint, (floorHintTop visit pool).2 = { pool with hint := hint } := ⟨_, rfl⟩

/-- Asking the hint for a bound leaves the book alone. -/
theorem floor_lower_bound_quiet : Bound.Quiet floorLowerBoundFor := by
  intro visit arrival pool
  obtain ⟨hint, hhint⟩ := floor_hint_top_snd visit pool
  unfold floorLowerBoundFor
  rcases htop : floorHintTop visit pool with ⟨top, pool'⟩
  rw [htop] at hhint
  obtain rfl : pool' = { pool with hint := hint } := hhint
  cases top with
  | none => exact ⟨hint, rfl⟩
  | some top =>
    dsimp only
    split <;> exact ⟨hint, rfl⟩

/-- The arrival outbids somebody it may take. -/
def Outbids (policy : Policy) (b : Book) (arrival : Certificate) : Prop :=
  ∃ e, MayTake b arrival e ∧
    beatsByBump arrival.feeBid.seqPriority e.priority policy.evictionBumpPercent = true

/-- The pool after the pass has removed what the arrival outbids. -/
def cleared (bound : Bound) (visit : Visit) (reached : Book → Bool) (arrival : Certificate)
    (pool : Pool) : Pool :=
  evict reached arrival
    (evictionOrder (collected visit pool.book arrival) arrival pool.policy.evictionBumpPercent)
    (bound visit arrival pool).2

section

variable (hquiet : bound.Quiet)

include hquiet

/-- Making room refuses before it evicts, or clears, perhaps not enough. -/
theorem make_room_cases :
    (∃ e, makeRoom bound visit reached overfull arrival pool =
      (.error e, (bound visit arrival pool).2)) ∨
    Outbids pool.policy pool.book arrival ∧
      (overfull (cleared bound visit reached arrival pool).book = true ∧
        makeRoom bound visit reached overfull arrival pool =
          (.error .full, cleared bound visit reached arrival pool) ∨
      overfull (cleared bound visit reached arrival pool).book = false ∧
        makeRoom bound visit reached overfull arrival pool =
          (.ok (), cleared bound visit reached arrival pool)) := by
  obtain ⟨hint, hhint⟩ := hquiet visit arrival pool
  have hbook : (bound visit arrival pool).2.book = pool.book := by rw [hhint]
  unfold makeRoom
  rcases hb : bound visit arrival pool with ⟨value, pool'⟩
  rw [hb] at hbook
  dsimp only at hbook ⊢
  split
  · exact .inl ⟨_, rfl⟩
  · rw [hbook]
    split
    · exact .inl ⟨_, rfl⟩
    · rename_i candidates floor hcands
      obtain ⟨rfl, ⟨e, he, hprice⟩, -⟩ := eviction_candidates_eq_some hcands
      split
      · exact .inl ⟨_, rfl⟩
      · rename_i hfloor
        refine .inr ⟨⟨e, he, by rw [hprice]; simpa using hfloor⟩, ?_⟩
        have hcleared : cleared bound visit reached arrival pool = evict reached arrival
            (evictionOrder (collected visit pool.book arrival) arrival
              pool.policy.evictionBumpPercent) pool' := by
          rw [cleared, hb]
        rw [hcleared]
        split_ifs with hfull
        · exact .inl ⟨hfull, rfl⟩
        · exact .inr ⟨by simpa using hfull, rfl⟩

theorem cleared_takes (visit : Visit) (reached : Book → Bool) (arrival : Certificate)
    (pool : Pool) :
    Takes pool.policy.evictionBumpPercent arrival pool.book
      (cleared bound visit reached arrival pool).book := by
  obtain ⟨hint, hhint⟩ := hquiet visit arrival pool
  have hvictims : ∀ v ∈ evictionOrder (collected visit pool.book arrival) arrival
      pool.policy.evictionBumpPercent, MayTake pool.book arrival v := fun v hv =>
    ((mem_eviction_order visit).mp hv).1
  rw [cleared, hhint]
  exact @evict_takes _ _ { pool with hint := hint } _ _ (fun e he => he) hvictims

@[simp] theorem policy_cleared :
    (cleared bound visit reached arrival pool).policy = pool.policy := by
  obtain ⟨hint, hhint⟩ := hquiet visit arrival pool
  rw [cleared, policy_evict, hhint]

/-- Clearing removes at least one entry. -/
theorem cleared_shrinks (visit : Visit) (hout : Outbids pool.policy pool.book arrival)
    (hreached : reached pool.book = false) :
    ∃ e ∈ pool.book.residents, e ∉ (cleared bound visit reached arrival pool).book.residents := by
  obtain ⟨hint, hhint⟩ := hquiet visit arrival pool
  obtain ⟨e, he⟩ := hout
  have hmem := (mem_eviction_order visit).mpr he
  unfold cleared
  cases hvictims : evictionOrder (collected visit pool.book arrival) arrival
      pool.policy.evictionBumpPercent with
  | nil => simp [hvictims] at hmem
  | cons v rest =>
    have hv : v ∈ evictionOrder (collected visit pool.book arrival) arrival
        pool.policy.evictionBumpPercent := by rw [hvictims]; exact mem_cons_self
    obtain ⟨hmay, hbeats⟩ := (mem_eviction_order visit).mp hv
    refine ⟨v, hmay.mem, ?_⟩
    rw [hhint]
    exact @evict_first _ _ { pool with hint := hint } _ _ hmay hbeats hreached

theorem length_cleared (visit : Visit) (hout : Outbids pool.policy pool.book arrival)
    (hreached : reached pool.book = false) :
    (cleared bound visit reached arrival pool).book.residents.length <
      pool.book.residents.length := by
  obtain ⟨e, he, hgone⟩ := cleared_shrinks hquiet visit hout hreached
  have htakes := cleared_takes hquiet visit reached arrival pool
  -- the residents left are a part of those before, without `e`
  have hsub : (cleared bound visit reached arrival pool).book.residents ⊆
      pool.book.residents.erase e := by
    intro f hf
    refine (mem_erase_of_ne ?_).mpr (htakes.sub hf)
    rintro rfl
    exact hgone hf
  have hle := (subperm_of_subset (nodup_residents _) hsub).length_le
  rw [length_erase_of_mem he] at hle
  have hpos := length_pos_of_mem he
  omega

end

end Room

/-! ## The two budgets -/

section Passes

variable {bound : Bound} {visit : Visit} {reached overfull : Book → Bool} {c : Certificate}
  {pool : Pool} {triggered : Prop} {r : Except PoolError Unit × Pool}

/-- What one budget's pass can end in: it does not run, it refuses at the gate, it clears and
still refuses, or it clears and lets the arrival through. -/
inductive PassOutcome (bound : Bound) (visit : Visit) (reached overfull : Book → Bool)
    (c : Certificate) (triggered : Prop) (pool : Pool) : Except PoolError Unit × Pool → Prop where
  | idle : ¬ triggered → PassOutcome bound visit reached overfull c triggered pool (.ok (), pool)
  | gate (e : PoolError) : triggered → PassOutcome bound visit reached overfull c triggered pool
      (.error e, (bound visit c pool).2.countRejected)
  | crowded : triggered → Outbids pool.policy pool.book c →
      overfull (cleared bound visit reached c pool).book = true →
      PassOutcome bound visit reached overfull c triggered pool
        (.error .full, (cleared bound visit reached c pool).countRejected)
  | clear : triggered → Outbids pool.policy pool.book c →
      overfull (cleared bound visit reached c pool).book = false →
      PassOutcome bound visit reached overfull c triggered pool
        (.ok (), cleared bound visit reached c pool)

theorem pass_outcome (hquiet : bound.Quiet) (ht : triggered) :
    PassOutcome bound visit reached overfull c triggered pool
      (counted (makeRoom bound visit reached overfull c) pool) := by
  have hcases := @make_room_cases bound visit reached overfull c pool hquiet
  unfold counted Mut.orElse
  rcases hcases with ⟨e, heq⟩ | ⟨hout, ⟨hfull, heq⟩ | ⟨hfits, heq⟩⟩ <;> rw [heq]
  · exact .gate e ht
  · exact .crowded ht hout hfull
  · exact .clear ht hout hfits

theorem count_pass_eq :
    countPass bound visit c pool = if pool.policy.highWater.toInt ≤ pool.book.residents.length then
        counted (makeRoom bound visit (countReached pool.policy) (countFull pool.policy) c) pool
      else (.ok (), pool) := by
  unfold countPass
  simp only [Bind.bind, Mut.get]
  split
  · simp only [counted, Mut.orElse, makeRoomFor]
  · rfl

theorem byte_pass_eq :
    bytePass bound visit c pool =
      if pool.policy.byteHighWater.toInt < (pool.book.totalBytes + c.sizeBytes : ℕ) then
        counted (makeRoom bound visit (bytesReached pool.policy)
          (bytesFull pool.policy c.sizeBytes) c) pool
      else (.ok (), pool) := by
  unfold bytePass
  simp only [Bind.bind, Mut.get]
  split
  · simp only [counted, Mut.orElse, makeByteRoomFor]
  · rfl

theorem count_pass_outcome (hquiet : bound.Quiet) (visit : Visit) (c : Certificate) (pool : Pool) :
    PassOutcome bound visit (countReached pool.policy) (countFull pool.policy) c
      (pool.policy.highWater.toInt ≤ pool.book.residents.length) pool
      (countPass bound visit c pool) := by
  rw [count_pass_eq]
  split_ifs with ht
  · exact pass_outcome hquiet ht
  · exact .idle ht

theorem byte_pass_outcome (hquiet : bound.Quiet) (visit : Visit) (c : Certificate) (pool : Pool) :
    PassOutcome bound visit (bytesReached pool.policy) (bytesFull pool.policy c.sizeBytes) c
      (pool.policy.byteHighWater.toInt < (pool.book.totalBytes + c.sizeBytes : ℕ)) pool
      (bytePass bound visit c pool) := by
  rw [byte_pass_eq]
  split_ifs with ht
  · exact pass_outcome hquiet ht
  · exact .idle ht

theorem PassOutcome.takes (hquiet : bound.Quiet)
    (h : PassOutcome bound visit reached overfull c triggered pool r) :
    r.2.policy = pool.policy ∧ Takes pool.policy.evictionBumpPercent c pool.book r.2.book := by
  cases h with
  | idle _ => exact ⟨rfl, .none⟩
  | gate e _ =>
    obtain ⟨hint, hhint⟩ := hquiet visit c pool
    rw [hhint]
    exact ⟨rfl, .none⟩
  | crowded _ _ _ | clear _ _ _ =>
    exact ⟨policy_cleared hquiet, cleared_takes hquiet visit reached c pool⟩

end Passes

/-! ## Admission -/

section Admit

variable [Crypto] {bound : Bound} {p : Params} {visit : Visit} {c : Certificate} {s : StateReader}
  {tip : UInt64} {pool : Pool}

/-- The entry of a certificate. -/
def entryOf (c : Certificate) (reserve : U256) : Entry := ⟨c, c.id, c.sizeBytes, reserve⟩

omit [Crypto] in
theorem push_floor_hint_eq (visit : Visit) (pool : Pool) (item : HintItem) :
    ∃ hint, pushFloorHint visit pool item = { pool with hint := hint } := by
  unfold pushFloorHint
  dsimp only
  split <;> exact ⟨_, rfl⟩

theorem enter_eq (visit : Visit) (c : Certificate) (reserve : U256) (pool : Pool) :
    ∃ hint, enter visit c reserve pool = { pool.countAdmitted with
      book := pool.book.insert (entryOf c reserve), hint := hint } := push_floor_hint_eq visit _ _

@[simp] theorem book_enter (reserve : U256) :
    (enter visit c reserve pool).book = pool.book.insert (entryOf c reserve) := by
  obtain ⟨hint, hhint⟩ := enter_eq visit c reserve pool
  rw [hhint]

@[simp] theorem policy_enter (reserve : U256) :
    (enter visit c reserve pool).policy = pool.policy := by
  obtain ⟨hint, hhint⟩ := enter_eq visit c reserve pool
  rw [hhint]
  rfl

/-- What an admission can end in. -/
inductive AdmitOutcome (bound : Bound) (p : Params) (visit : Visit) (c : Certificate)
    (s : StateReader) (tip : UInt64) (pool : Pool) : Except PoolError Unit × Pool → Prop where
  | screened (e : PoolError) (pool' : Pool) : pool' = pool ∨ pool' = pool.countRejected →
      gates p pool c c.id s tip = .error e →
      AdmitOutcome bound p visit c s tip pool (.error e, pool')
  | count (passed : Screened) (e : PoolError) (pool' : Pool) :
      Passes p pool c c.id s tip passed → countPass bound visit c pool = (.error e, pool') →
      AdmitOutcome bound p visit c s tip pool (.error e, pool')
  | bytes (passed : Screened) (mid : Pool) (e : PoolError) (pool' : Pool) :
      Passes p pool c c.id s tip passed → countPass bound visit c pool = (.ok (), mid) →
      bytePass bound visit c mid = (.error e, pool') →
      AdmitOutcome bound p visit c s tip pool (.error e, pool')
  | admitted (passed : Screened) (mid mid' : Pool) :
      Passes p pool c c.id s tip passed → countPass bound visit c pool = (.ok (), mid) →
      bytePass bound visit c mid = (.ok (), mid') →
      AdmitOutcome bound p visit c s tip pool (.ok (), enter visit c passed.reserve mid')

/-- What an admission returns and leaves behind. -/
theorem admit_outcome (bound : Bound) (p : Params) (visit : Visit) (c : Certificate)
    (s : StateReader) (tip : UInt64) (pool : Pool) :
    AdmitOutcome bound p visit c s tip pool (admitCert bound p visit c s tip pool) := by
  unfold admitCert
  simp only [Bind.bind]
  rcases screen_cases p c c.id s tip pool with ⟨passed, heq, hpass⟩ | ⟨e, heq, hgates⟩
  · rw [heq]
    dsimp only
    rcases hcount : countPass bound visit c pool with ⟨e | u, mid⟩
    · exact .count passed e mid hpass hcount
    · dsimp only
      rcases hbytes : bytePass bound visit c mid with ⟨e | u', mid'⟩
      · exact .bytes passed mid e mid' hpass hcount hbytes
      · exact .admitted passed mid mid' hpass hcount hbytes
  · rcases heq with heq | heq <;> rw [heq]
    · exact .screened e pool (.inl rfl) hgates
    · exact .screened e pool.countRejected (.inr rfl) hgates

/-- An admission is refused, with residents taken or not, or takes some and enters the arrival. -/
theorem admit_cases (hquiet : bound.Quiet) (p : Params) (visit : Visit) (c : Certificate)
    (s : StateReader) (tip : UInt64) (pool : Pool) :
    (∃ e pool', admitCert bound p visit c s tip pool = (.error e, pool') ∧
      pool'.policy = pool.policy ∧
      Takes pool.policy.evictionBumpPercent c pool.book pool'.book) ∨
    ∃ passed mid, admitCert bound p visit c s tip pool =
      (.ok (), enter visit c passed.reserve mid) ∧
      Passes p pool c c.id s tip passed ∧ mid.policy = pool.policy ∧
      Takes pool.policy.evictionBumpPercent c pool.book mid.book := by
  have hout := admit_outcome bound p visit c s tip pool
  have hcount := (count_pass_outcome hquiet visit c pool).takes hquiet
  have hboth : ∀ {mid r}, countPass bound visit c pool = (.ok (), mid) →
      bytePass bound visit c mid = r → r.2.policy = pool.policy ∧
        Takes pool.policy.evictionBumpPercent c pool.book r.2.book := by
    rintro mid r heq rfl
    have hbytes := (byte_pass_outcome hquiet visit c mid).takes hquiet
    rw [heq] at hcount
    rw [hcount.1] at hbytes
    exact ⟨hbytes.1, hcount.2.trans hbytes.2⟩
  revert hout
  generalize admitCert bound p visit c s tip pool = r
  intro hout
  cases hout with
  | screened e pool' heq _ =>
    refine .inl ⟨e, pool', rfl, ?_⟩
    rcases heq with rfl | rfl <;> exact ⟨rfl, .none⟩
  | count passed e pool' _ heq =>
    rw [heq] at hcount
    exact .inl ⟨e, pool', rfl, hcount⟩
  | bytes passed mid e pool' _ heq hbytes => exact .inl ⟨e, pool', rfl, hboth heq hbytes⟩
  | admitted passed mid mid' hpass heq hbytes =>
    exact .inr ⟨passed, mid', rfl, hpass, hboth heq hbytes⟩

/-- An addition fails its checks, or is the locked admission. -/
theorem add_with_cases (bound : Bound) (p : Params) (visit : Visit) (c : Certificate)
    (s : StateReader) (tip : UInt64) (pool : Pool) :
    (∃ e pool', addWith bound p visit c s tip pool = (.error e, pool') ∧
      (pool' = pool ∨ pool' = pool.countRejected)) ∨
    checkStructural c p = .ok () ∧ checkSignatures c p = .ok () ∧
      (∃ passed, Passes p pool c c.id s tip passed) ∧
      addWith bound p visit c s tip pool = admitCert bound p visit c s tip pool := by
  unfold addWith
  simp only [Bind.bind]
  cases hstruct : checkStructural c p with
  | error cause => exact .inl ⟨.invalid cause, pool.countRejected, rfl, .inr rfl⟩
  | ok u =>
    simp only [checked, Pure.pure]
    rcases screen_cases p c c.id s tip pool with ⟨passed, heq, hpass⟩ | ⟨e, heq, -⟩
    · rw [heq]
      cases hsig : checkSignatures c p with
      | error cause => exact .inl ⟨.invalid cause, pool.countRejected, rfl, .inr rfl⟩
      | ok u' => exact .inr ⟨trivial, rfl, ⟨passed, hpass⟩, rfl⟩
    · rcases heq with heq | heq <;> rw [heq]
      · exact .inl ⟨e, pool, rfl, .inl rfl⟩
      · exact .inl ⟨e, pool.countRejected, rfl, .inr rfl⟩

end Admit

end Zycord.Mempool
