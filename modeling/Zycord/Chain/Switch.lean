import Mathlib.Data.List.Chain
import Zycord.Chain.Extend

/-!
# A branch switch is all or nothing

Whatever a branch switch has undone and applied in memory when it fails, `restore` puts back:
unwinding goes down the canonical chain (`unwind_spec`), so what it undid applies again
(`redo_run`), and what the branch applied is undone exactly (`undo_apply_branch`). A switch that
succeeds replaces the newest blocks of the canonical chain by the branch
(`consider_branch_cases`, `Adopts.canonical`).
-/

namespace Zycord.Chain

open Except Fold Function List Nat Run
open Storage (Live applyBatch)

section

variable [Crypto] {p : Params} {damage : Prop} {pruned : Option UInt64} {log : ChainLog}
  {s : State} {live : Live}

/-! ## Applying again and undoing -/

variable {s' s₀ : State} {e : Block × Result} {blk : Block} {id : Hash}
  {prev cursor ancestor : Header} {u : Unwound} {applied : List Result} {c : Chain}
  {br : List Block} {undone base : ChainLog}

theorem redo_append {s : State} {bs : List Block} (h : redo p s bs = (none, s'))
    (rest : List Block) : redo p s (bs ++ rest) = redo p s' rest := by
  induction bs generalizing s with
  | nil =>
    cases h
    rfl
  | cons b bs ih =>
    rw [redo] at h
    rw [cons_append, redo]
    split at h
    · cases h
    · exact ih h

/-- The blocks that were undone apply again, the lowest first. -/
theorem redo_run (hbase : Run p base s₀) (h : Run p (undone ++ base) s) :
    redo p s₀ (undone.map Prod.fst).reverse = (none, s) := by
  induction undone generalizing s with
  | nil =>
    rw [hbase.state_unique h]
    rfl
  | cons e rest ih =>
    obtain ⟨s₁, hrun, -, happly⟩ := h.of_cons
    rw [map_cons, reverse_cons, redo_append (ih hrun)]
    unfold redo
    rw [happly]
    rfl

/-- What was applied of a branch is undone exactly, wherever it was refused. -/
theorem undo_apply_branch (s : State) (br : List Block) :
    undoBlocks (applyBranch p s br).2.2
      ((applyBranch p s br).1.reverse.map Fold.Result.undo) = s := by
  induction br generalizing s with
  | nil => rfl
  | cons b rest ih =>
    unfold applyBranch
    split
    · rename_i happly
      exact apply_error_eq happly
    · rename_i r s' happly
      have hundo := ih s'
      rw [undoBlocks] at hundo ⊢
      simp only [reverse_cons, map_append, foldl_append, hundo]
      exact undo_apply_eq happly

theorem apply_branch_all (h : applyBranch p s br = (applied, none, s')) :
    applied.length = br.length ∧
      applyBlocks p s br = some (s', applied.reverse.map Fold.Result.undo) := by
  induction br generalizing s applied with
  | nil =>
    cases h
    exact ⟨rfl, rfl⟩
  | cons b rest ih =>
    rw [applyBranch] at h
    split at h
    · cases h
    · rename_i r s₁ happly
      obtain ⟨hrest, hrefused⟩ := Prod.mk.inj h
      obtain ⟨hlen, hblocks⟩ := ih (Prod.ext rfl hrefused)
      rw [applyBlocks, happly]
      simp [hblocks, hlen, ← hrest]

theorem apply_branch_covers {t : Touched} (hcovers : t.Covers s₀ s) (br : List Block) :
    ((applyBranch p s br).1.foldl (fun t res => t.record res.undo) t).Covers s₀
      (applyBranch p s br).2.2 := by
  induction br generalizing s t with
  | nil => exact hcovers
  | cons b rest ih =>
    unfold applyBranch
    split
    · rename_i happly
      rw [apply_error_eq happly]
      exact hcovers
    · rename_i r s' happly
      exact ih (hcovers.apply happly)

/-! ## Unwinding -/

/-- What unwinding has undone: the newest blocks of the chain, with their work and their keys, and
the logs that were read are above the bookmark. -/
structure Undid (p : Params) (pruned : Option UInt64) (log : ChainLog) (s : State) (u : Unwound)
    (undone base : ChainLog) : Prop where
  split : log = undone ++ base
  run : Run p base u.state
  blocks : u.undone = undone.map Prod.fst
  work : u.work = sumWork (headers u.undone)
  covers : u.touched.Covers s u.state
  retained : ∀ e ∈ undone, ∀ through ∈ pruned, through < e.1.header.height

omit [Crypto] in
theorem sum_work_append_singleton (hs : List Header) (h : Header) :
    sumWork (hs ++ [h]) = (sumWork hs).satAdd (blockWork h.target) := by
  simp [sumWork]

theorem read_unwind_eq {undo : UndoLog} (h : Stored p damage pruned log s live)
    (hrun : Run p log s) (he : e ∈ log) (hread : readUnwind p live e.1.header = .ok (blk, undo)) :
    blk = e.1 ∧ undo = e.2.undo ∧ ∀ through ∈ pruned, through < e.1.header.height := by
  simp only [readUnwind, bind_eq_ok] at hread
  obtain ⟨blk', hblk, raw, hraw, undo', hundo, heq⟩ := hread
  obtain ⟨rfl, rfl⟩ := Prod.mk.inj (Except.ok.inj heq)
  obtain ⟨s₀, s₁, -, happly⟩ := hrun.applied he
  obtain ⟨hshort, hshort'⟩ := h.short e he
  have hget : get live (.undo e.1.header.id) = some raw := by
    cases hraw' : get live (.undo e.1.header.id) with
    | none => simp [hraw'] at hraw
    | some v => simpa [hraw'] using hraw
  obtain ⟨hlog, hretained⟩ := (h.undos e he).undo_eq hshort' hget hundo
  exact ⟨(h.blocks e he).block_eq (canonical_of_apply happly) hshort hblk, hlog, hretained⟩

omit [Crypto] in
theorem header_locked_ne_stalled : headerLocked live id ≠ .error .stalled := by
  unfold headerLocked Except.mapError
  split
  · simp
  · split <;> simp

omit [Crypto] in
theorem block_locked_ne_stalled : blockLocked p live id ≠ .error .stalled := by
  unfold blockLocked Except.mapError
  split
  · simp
  · split <;> simp

/-- Reading one block to undo never reports a stall. -/
theorem read_unwind_ne_stalled : readUnwind p live cursor ≠ .error .stalled := by
  intro h
  simp only [readUnwind, bind_eq_error] at h
  rcases h with hblk | ⟨blk, -, hraw | ⟨raw, -, hundo | ⟨undo, -, hret⟩⟩⟩
  · exact block_locked_ne_stalled hblk
  · cases hget : get live (.undo cursor.id) with
    | none =>
      rw [hget, missingUndoCause] at hraw
      split at hraw
      · split at hraw <;> cases hraw
      · cases hraw
    | some v =>
      rw [hget] at hraw
      cases hraw
  · exact nomatch decode_undo_error hundo
  · cases hret

/-- One step of the unwinding loop undoes one more block of the log. -/
theorem Undid.undo {undo : UndoLog}
    (hu : Undid p pruned log s u undone (e :: base)) (hcursor : u.cursor = e.1.header)
    (hstored : Stored p damage pruned log s live) (hrun : Run p log s)
    (hread : readUnwind p live u.cursor = .ok (blk, undo)) :
    Undid p pruned log s (u.undo blk undo) (undone ++ [e]) base := by
  have he : e ∈ log := by
    rw [hu.split]
    exact mem_append_right _ mem_cons_self
  rw [hcursor] at hread
  obtain ⟨rfl, rfl, hretained⟩ := read_unwind_eq hstored hrun he hread
  obtain ⟨s₀, hbase, -, happly⟩ := hu.run.of_cons
  obtain rfl : undoBlock u.state e.2.undo = s₀ := undo_apply_eq happly
  exact {
    split := by rw [hu.split, append_assoc]; rfl
    run := hbase
    blocks := by simp [Unwound.undo, hu.blocks]
    work := by
      show u.work.satAdd (blockWork u.cursor.target) = sumWork (headers (u.undone ++ [e.1]))
      rw [headers, map_append, map_singleton, sum_work_append_singleton, hu.work, hcursor]
      rfl
    covers := hu.covers.undo _
    retained := forall_mem_append.mpr ⟨hu.retained, by simpa using hretained⟩ }

/-- Unwinding goes down the canonical chain: it stops at the ancestor, or at a record that cannot
be read, and the walk never runs out. -/
theorem unwind_spec {ancestor : Hash} (hstored : Stored p damage pruned log s live)
    (hrun : Run p log s) (hlinked : Linked log) {fuel : ℕ}
    (hu : Undid p pruned log s u undone base)
    (hcursor : base.head?.map (fun e => e.1.header) = some u.cursor)
    (hancestor : ∃ e ∈ base, e.1.header.id = ancestor) (hfuel : base.length ≤ fuel) :
    match unwind p live ancestor fuel u with
    | .error (cause, u') => cause ≠ .stalled ∧
        ∃ undone' base', Undid p pruned log s u' undone' base'
    | .ok u' => ∃ undone' base', Undid p pruned log s u' undone' base' ∧
        base'.head?.map (fun e => e.1.header) = some u'.cursor ∧ u'.cursor.id = ancestor := by
  induction fuel generalizing u undone base with
  | zero =>
    obtain ⟨e, he, -⟩ := hancestor
    rw [length_eq_zero_iff.mp (le_zero.mp hfuel)] at he
    cases he
  | succ fuel ih =>
    unfold unwind
    by_cases hid : u.cursor.id = ancestor
    · rw [if_pos hid]
      exact ⟨undone, base, hu, hcursor, hid⟩
    · rw [if_neg hid]
      cases base with
      | nil => simp at hcursor
      | cons e base =>
        obtain hhead : e.1.header = u.cursor := Option.some.inj hcursor
        -- the ancestor lies further down
        have hbelow : ∃ e' ∈ base, e'.1.header.id = ancestor := by
          obtain ⟨e', he', hid'⟩ := hancestor
          rcases mem_cons.mp he' with rfl | he'
          · exact absurd (hhead ▸ hid') hid
          · exact ⟨e', he', hid'⟩
        cases hread : readUnwind p live u.cursor with
        | error cause =>
          exact ⟨fun heq => read_unwind_ne_stalled (heq ▸ hread), undone, e :: base, hu⟩
        | ok read =>
          obtain ⟨blk, undo⟩ := read
          have hu' := hu.undo hhead.symm hstored hrun hread
          cases hparent : headerLocked live u.cursor.parentID with
          | error cause =>
            exact ⟨fun heq => header_locked_ne_stalled (heq ▸ hparent), _, _, hu'⟩
          | ok parent =>
            cases base with
            | nil => simp at hbelow
            | cons below base =>
              have hlink : e.1.header.parentID = below.1.header.id := by
                rw [hu.split] at hlinked
                exact (isChain_cons_cons.mp hlinked.right_of_append).1
              have hmem : below ∈ log := by
                rw [hu'.split]
                simp
              have heq : parent = below.1.header := by
                rw [← hhead, hlink] at hparent
                exact (hstored.headers below hmem).header_eq hparent
              refine ih (u := { u.undo blk undo with cursor := parent })
                ⟨hu'.split, hu'.run, hu'.blocks, hu'.work, hu'.covers, hu'.retained⟩
                (by simp [heq]) hbelow ?_
              simpa using hfuel

/-! ## Judging a branch -/

theorem check_links_eq_ok {i : ℕ} {v : Unit} :
    checkLinks i prev br = .ok v ↔ (prev :: headers br).IsChain Follows := by
  induction br generalizing i prev with
  | nil => simp [checkLinks, headers]
  | cons b rest ih =>
    rw [headers, map_cons, isChain_cons_cons, ← headers, ← ih (i := i + 1), checkLinks]
    simp only [Except.seq_eq_ok, reject_if_eq_ok, not_not, Follows]
    tauto

/-- What a branch that passes its checks is: it attaches to a canonical block within the horizon,
its blocks follow one another, and it outweighs the canonical blocks above. -/
structure Judged (p : Params) (c : Chain) (log : ChainLog) (br : List Block) (ancestor : Header) :
    Prop where
  mem : ∃ e ∈ log, e.1.header = ancestor
  only : ∀ e ∈ log, e.1.header.id = ancestor.id → e.1.header = ancestor
  linked : (ancestor :: headers br).IsChain Follows
  near : c.height - ancestor.height ≤ p.undoDepth
  heavier : ∃ replaced, workSince c ancestor.id = .ok replaced ∧ replaced < sumWork (headers br)

theorem depth_of_cases {ancestor : Hash} {depth : UInt64} (hc : Canonical p damage log c)
    (h : depthOf c ancestor = .ok depth) :
    (ancestor = c.tip.id ∧ depth = 0) ∨ ∃ e ∈ log, e.1.header.id = ancestor ∧
      depth = c.height - e.1.header.height := by
  unfold depthOf at h
  split_ifs at h with htip
  · exact .inl ⟨htip, (Except.ok.inj h).symm⟩
  · split at h
    · cases h
    · split at h
      · cases h
      · split at h
        · cases h
        · rename_i hindex
          rw [not_not] at hindex
          obtain ⟨e, he, hheight, hid⟩ := hc.stored.mem_of_index hindex
          exact .inr ⟨e, he, hid, by rw [hheight]; exact (Except.ok.inj h).symm⟩

/-- A branch that is judged good attaches to an ancestor and meets every rule. -/
theorem judge_branch_eq_ok {first : Block} {rest : List Block}
    (hc : Canonical p damage log c) (h : judgeBranch p c first (first :: rest) = .ok ()) :
    ∃ ancestor, ancestor.id = first.header.parentID ∧ Judged p c log (first :: rest) ancestor := by
  simp only [judgeBranch, Except.bind_eq_ok, reject_if_eq_ok, tail_cons,
    check_links_eq_ok, not_not, gt_iff_lt, UInt64.not_lt] at h
  obtain ⟨depth, hdepth, -, -, -, hnear, -, hheight, -, hlinks, -, -, replaced, hwork, hheavier⟩ :=
    h
  obtain ⟨ancestor, hread⟩ : ∃ ancestor, headerLocked c.store.live first.header.parentID =
      .ok ancestor := by
    unfold workSince at hwork
    split at hwork
    · cases hwork
    · exact ⟨_, ‹_›⟩
  -- whatever carries the ancestor's id has the header that was read
  have honly : ∀ e ∈ log, e.1.header.id = first.header.parentID → e.1.header = ancestor := by
    intro e he hid
    have hkeeps := hc.stored.headers e he
    rw [hid] at hkeeps
    exact (hkeeps.header_eq hread).symm
  obtain ⟨e, he, hid, hdepth⟩ : ∃ e ∈ log, e.1.header.id = first.header.parentID ∧
      depth = c.height - e.1.header.height := by
    rcases depth_of_cases hc hdepth with ⟨htip, rfl⟩ | hmem
    · obtain ⟨e, he, heq⟩ := hc.tip_mem
      exact ⟨e, he, by rw [heq, htip], by rw [heq, hc.height, UInt64.sub_self]⟩
    · exact hmem
  obtain rfl := honly e he hid
  refine ⟨e.1.header, hid, ⟨e, he, rfl⟩, fun e' he' hid' => honly e' he' (hid'.trans hid), ?_,
    ?_, replaced, ?_, hheavier⟩
  · rw [headers, map_cons, isChain_cons_cons]
    exact ⟨⟨hid.symm, by grind⟩, hlinks⟩
  · rw [← hdepth]
    exact hnear
  · rw [hid]
    exact hwork

/-! ## The work that is replaced -/

theorem range_heights (hrun : Run p (undone ++ base) s) :
    (range' base.length undone.length).map UInt64.ofNat =
      undone.reverse.map fun e => e.1.header.height := by
  induction undone generalizing s with
  | nil => rfl
  | cons e rest ih =>
    obtain ⟨s₀, hrest, hheight, -⟩ := hrun.of_cons
    rw [length_cons, range'_concat, map_append, ih hrest, reverse_cons,
      map_append, map_singleton, map_singleton]
    congr 2
    have hlen : (rest ++ base).length = rest.length + base.length := length_append
    rw [← UInt64.ofNat_toNat (x := e.1.header.height), hheight]
    refine congrArg UInt64.ofNat ?_
    show _ = (rest ++ base).length
    omega

theorem heights_up_to_run {first last : UInt64}
    (hrun : Run p (undone ++ base) s) (hfirst : first.toNat = base.length)
    (hlast : last.toNat + 1 = (undone ++ base).length) :
    heightsUpTo first last = undone.reverse.map fun e => e.1.header.height := by
  have hlen : last.toNat + 1 - first.toNat = undone.length := by
    rw [length_append] at hlast
    omega
  rw [heightsUpTo, hlen, hfirst, range_heights hrun]

theorem canonical_header_at_eq {h : Header} (hstored : Stored p damage pruned log s live)
    (he : e ∈ log) (hread : canonicalHeaderAt live e.1.header.height = .ok h) : h = e.1.header := by
  unfold canonicalHeaderAt at hread
  split at hread
  · cases hread
  · rename_i id hid
    rw [(hstored.index e he).index_eq hid] at hread
    exact (hstored.headers e he).header_eq hread

theorem canonical_headers_eq {es : ChainLog} {hs : List Header}
    (hstored : Stored p damage pruned log s live) (hes : ∀ e ∈ es, e ∈ log)
    (hread : (es.map fun e => e.1.header.height).mapM (canonicalHeaderAt live) = .ok hs) :
    hs = es.map fun e => e.1.header := by
  induction es generalizing hs with
  | nil => exact (ok.inj hread).symm
  | cons e rest ih =>
    simp only [map_cons, mapM_cons, bind_eq_ok, pure_eq_ok] at hread
    obtain ⟨h, hh, hs', hrest, hret⟩ := hread
    obtain ⟨he, hes'⟩ := forall_mem_cons.mp hes
    rw [← hret, canonical_header_at_eq hstored he hh, ih hes' hrest, map_cons]

omit [Crypto] in
theorem sum_work_reverse (hs : List Header) : sumWork hs.reverse = sumWork hs := by
  refine U256.ext ?_
  rw [to_nat_sum_work, to_nat_sum_work, exact_work_reverse]

/-- The undone blocks weigh no more than the work since the ancestor. -/
theorem sum_work_le_work_since {replaced : U256}
    (hc : Canonical p damage (undone ++ base) c)
    (hhead : base.head?.map (fun e => e.1.header) = some ancestor)
    (hwork : workSince c ancestor.id = .ok replaced) :
    sumWork (headers (undone.map Prod.fst)) ≤ replaced := by
  cases undone with
  | nil => exact Nat.zero_le _
  | cons top rest =>
    obtain ⟨e, he, rfl⟩ := Option.map_eq_some_iff.mp hhead
    obtain ⟨older, rfl⟩ : ∃ older, base = e :: older := List.head?_eq_some_iff.mp he
    have hmem : e ∈ top :: rest ++ e :: older := by simp
    unfold workSince at hwork
    split at hwork
    · cases hwork
    · rename_i hdr hread
      obtain rfl := (hc.stored.headers e hmem).header_eq hread
      rw [Except.bind_eq_ok] at hwork
      obtain ⟨above, habove, hret⟩ := hwork
      rw [Except.pure_eq_ok] at hret
      -- there is a block above, so the next height does not wrap
      have hheight := hc.run.height_eq
      have hsucc := hc.height_succ
      have hlast := c.height.toNat_lt
      have hfirst : (e.1.header.height + 1).toNat = (e :: older).length := by
        rw [UInt64.toNat_add, length_cons]
        have hone : (1 : UInt64).toNat = 1 := rfl
        rw [length_append, length_cons, length_cons] at hsucc
        omega
      rw [heights_up_to_run hc.run hfirst hsucc] at habove
      have heq := canonical_headers_eq hc.stored
        (fun e he => mem_append_left _ (mem_reverse.mp he)) habove
      rw [← hret, heq, map_reverse, sum_work_reverse, headers, map_map]
      rfl

/-! ## Failing and succeeding -/

theorem restored_unchanged {c c₁ moved : Chain} (hsame : Unchanged c c₁)
    (hrun : Run p log c.state) (hu : Undid p pruned log c.state u undone base)
    (hundo : undoBlocks moved.state (applied.reverse.map Fold.Result.undo) = u.state)
    (cause : ChainError) :
    ∃ e, (restored p c₁ moved u.undone applied cause).1 = .error e ∧
      Unchanged c (restored p c₁ moved u.undone applied cause).2 := by
  have hredo : restore p moved.state u.undone applied = (none, c.state) := by
    rw [restore, hundo, hu.blocks]
    exact redo_run hu.run (hu.split ▸ hrun)
  rw [restored, hredo]
  exact ⟨cause, rfl, rfl, hsame.tip, hsame.height, hsame.networkID, hsame.store⟩

/-- The switch to a branch: the blocks `undone` are taken off the chain, the blocks of the branch
are applied to what is left and recorded as `new`, and the outcome is committed. -/
structure Adopts (p : Params) (c : Chain) (log : ChainLog) (br : List Block)
    (undone base new : ChainLog) (c' : Chain) : Prop where
  split : log = undone ++ base
  attached : ∃ ancestor, base.head?.map (fun e => e.1.header) = some ancestor ∧
    (ancestor :: headers br).IsChain Follows ∧ c.height - ancestor.height ≤ p.undoDepth
  applied : ∃ s₀ applied, Run p base s₀ ∧ applyBranch p s₀ br = (applied, none, c'.state) ∧
    new = (br.zip applied).reverse
  tip : (headers br).getLast? = some c'.tip
  height : c'.height = c'.tip.height
  networkID : c'.networkID = c.networkID
  lands : ∃ t stats, t.Covers c.state c'.state ∧ Lands c.store.live
    (advanceChanges p c.store.live c.networkID t c'.state undone new c'.tip (pendingIDs br)
      (((totalWork c.store.live).satSub (sumWork (headers (undone.map Prod.fst)))).satAdd
        (sumWork (headers br))) stats) c'.store.live
  retained : ∀ e ∈ undone, ∀ through ∈ undoPrunedThrough c.store.live, through < e.1.header.height
  heavier : sumWork (headers (undone.map Prod.fst)) < sumWork (headers br)

omit [Crypto] in
theorem last_of_branch (hbr : br ≠ []) (hlen : applied.length = br.length) :
    (headers br).getLast? = some (((headers (br.take applied.length)).getLast?).getD cursor) := by
  have hne : headers br ≠ [] := by simpa [headers] using hbr
  rw [hlen, take_length, getLast?_eq_some_getLast hne]
  rfl

/-- An unwinding, an applied branch and a commit that lands adopt the branch. -/
theorem adopts_of_commit {lands : Bool}
    {store : Storage.Memory} {stats : Stats} (hc : Canonical p damage log c) (hbr : br ≠ [])
    (hjudged : Judged p c log br ancestor)
    (hu : Undid p (undoPrunedThrough c.store.live) log c.state u undone base)
    (hcursor : base.head?.map (fun e => e.1.header) = some u.cursor)
    (hid : u.cursor.id = ancestor.id) (happly : applyBranch p u.state br = (applied, none, s'))
    (hcommit : commitStore lands c.store (.commitGroup (batchGroup (batchOf (switchChanges p c u br
      applied s' (((headers (br.take applied.length)).getLast?).getD u.cursor) stats)))) =
        .ok store) :
    Adopts p c log br undone base (br.zip applied).reverse
      { moveTip c s' (((headers (br.take applied.length)).getLast?).getD u.cursor) with
        store, stats } := by
  have hcovers := apply_branch_covers (p := p) hu.covers br
  rw [happly] at hcovers
  have hlanded := lands_of_commit_group hcommit
  obtain ⟨e, he, hhead⟩ := Option.map_eq_some_iff.mp hcursor
  have hmem : e ∈ log := by
    rw [hu.split]
    exact mem_append_right _ (mem_of_mem_head? he)
  have hancestor : u.cursor = ancestor := by
    rw [← hhead]
    exact hjudged.only e hmem (hhead ▸ hid)
  obtain ⟨replaced, hwork, hheavier⟩ := hjudged.heavier
  exact {
    split := hu.split
    attached := ⟨ancestor, hancestor ▸ hcursor, hjudged.linked, hjudged.near⟩
    applied := ⟨u.state, applied, hu.run, happly, rfl⟩
    tip := last_of_branch hbr (apply_branch_all happly).1
    height := rfl
    networkID := rfl
    lands := by
      refine ⟨_, stats, hcovers, ?_⟩
      rw [advanceChanges, exchangeChanges, reverse_reverse, ← hu.blocks, ← hu.work]
      exact hlanded
    retained := hu.retained
    heavier := by
      have hhead' : base.head?.map (fun e => e.1.header) = some ancestor := hancestor ▸ hcursor
      exact lt_of_le_of_lt (sum_work_le_work_since (hu.split ▸ hc) hhead' hwork) hheavier }

/-- A switch fails and changes nothing, or adopts the branch. -/
theorem switch_to_cases (lands : Bool)
    (hc : Canonical p damage log c) (hbr : br ≠ []) (hjudged : Judged p c log br ancestor) :
    (∃ e, (switchTo p lands c ancestor.id br).1 = .error e ∧
      Unchanged c (switchTo p lands c ancestor.id br).2) ∨
    lands = true ∧ ∃ undone base new,
      (switchTo p lands c ancestor.id br).1 = .ok ⟨true, undone.map Prod.fst⟩ ∧
      Adopts p c log br undone base new (switchTo p lands c ancestor.id br).2 := by
  have hsame : Unchanged c c := ⟨rfl, rfl, rfl, rfl, rfl⟩
  have hstart : Undid p (undoPrunedThrough c.store.live) log c.state
      ⟨c.state, [], 0, .empty, c.tip⟩ [] log :=
    ⟨rfl, hc.run, rfl, rfl, Touched.covers_refl _ _, by simp⟩
  have hmem : ∃ e ∈ log, e.1.header.id = ancestor.id :=
    hjudged.mem.imp fun e he => ⟨he.1, congrArg Header.id he.2⟩
  have hspec := unwind_spec hc.stored hc.run hc.linked hstart hc.tip hmem
    (le_of_eq hc.height_succ.symm)
  rcases hunwind : unwind p c.store.live ancestor.id (c.height.toNat + 1)
      ⟨c.state, [], 0, .empty, c.tip⟩ with ⟨cause, u⟩ | u
  · -- a record could not be read while unwinding
    rw [hunwind] at hspec
    obtain ⟨-, undone, base, hu⟩ := hspec
    simp only [switchTo, hunwind]
    exact .inl (restored_unchanged hsame hc.run hu rfl _)
  · rw [hunwind] at hspec
    obtain ⟨undone, base, hu, hcursor, hid⟩ := hspec
    have hundo := undo_apply_branch (p := p) u.state br
    rcases happly : applyBranch p u.state br with ⟨applied, refused, s'⟩
    rw [happly] at hundo
    cases refused with
    | some e =>
      -- a block of the branch was refused
      have hcounted : Unchanged c { c with stats := c.stats.recordRejection } :=
        ⟨rfl, rfl, rfl, rfl, rfl⟩
      simp only [switchTo, hunwind, happly]
      exact .inl (restored_unchanged hcounted hc.run hu hundo _)
    | none =>
      simp only [switchTo, hunwind, happly]
      split
      · rename_i store hcommit
        exact .inr ⟨lands_of_commit_store hcommit, undone, base, _, by rw [hu.blocks],
          adopts_of_commit hc hbr hjudged hu hcursor hid happly hcommit⟩
      · exact .inl (restored_unchanged hsame hc.run hu hundo _)

/-- What `considerBranch` can do: fail and change nothing in memory, ignore an empty branch, or
adopt the branch with a commit that lands. -/
theorem consider_branch_cases (lands : Bool) (br : List Block)
    (hc : Canonical p damage log c) :
    (∃ e, (considerBranch p lands c br).1 = .error e ∧
      Unchanged c (considerBranch p lands c br).2) ∨
    br = [] ∨
    lands = true ∧ ∃ undone base new,
      (considerBranch p lands c br).1 = .ok ⟨true, undone.map Prod.fst⟩ ∧
      Adopts p c log br undone base new (considerBranch p lands c br).2 := by
  cases br with
  | nil => exact .inr (.inl rfl)
  | cons first rest =>
    unfold considerBranch
    dsimp only
    split
    · rename_i e _
      exact .inl ⟨e, rfl, rfl, rfl, rfl, rfl, rfl⟩
    · rename_i hjudge
      obtain ⟨ancestor, hid, hjudged⟩ := judge_branch_eq_ok hc hjudge
      rw [← hid]
      rcases switch_to_cases lands hc (by simp) hjudged with hfail | hadopts
      · exact .inl hfail
      · exact .inr (.inr hadopts)

/-! ## The chain after a switch -/

/-- Applying a whole branch extends the run of the base by its blocks. -/
theorem apply_branch_run {base : ChainLog} (hbase : Run p base s)
    (hlinked : Linked base) (hhead : base.head?.map (fun e => e.1.header) = some prev)
    (hchain : (prev :: headers br).IsChain Follows)
    (hroot : ∀ h ∈ prev :: headers br, h.id ≠ p.consensusRoot)
    (hrefused : (applyBranch p s br).2.1 = none) :
    Run p ((br.zip (applyBranch p s br).1).reverse ++ base) (applyBranch p s br).2.2 ∧
      Linked ((br.zip (applyBranch p s br).1).reverse ++ base) := by
  induction br generalizing s base prev with
  | nil => exact ⟨hbase, hlinked⟩
  | cons b rest ih =>
    obtain ⟨hfollows, hchain'⟩ := isChain_cons_cons.mp hchain
    obtain ⟨hroot₀, hroot'⟩ := forall_mem_cons.mp hroot
    obtain ⟨e, he, rfl⟩ := Option.map_eq_some_iff.mp hhead
    obtain ⟨older, rfl⟩ : ∃ older, base = e :: older := head?_eq_some_iff.mp he
    unfold applyBranch at hrefused ⊢
    split at hrefused
    · cases hrefused
    · rename_i r s' happly
      obtain ⟨-, -, hheight, -⟩ := hbase.of_cons
      have hnext := height_of_follows hfollows hroot₀ happly
      have hrun : Run p ((b, r) :: e :: older) s' := by
        refine hbase.apply ?_ happly
        rw [hnext, hheight, length_cons]
      have hlinked' : Linked ((b, r) :: e :: older) := isChain_cons_cons.mpr ⟨hfollows.1, hlinked⟩
      have hrest := ih hrun hlinked' rfl hchain' hroot' hrefused
      simpa using hrest

theorem pending_ids_concat (br : List Block) (b : Block) :
    pendingIDs (br ++ [b]) = update (pendingIDs br) b.header.height (some b.header.id) := by
  simp [pendingIDs]

theorem mem_of_pending_ids {h : UInt64} (hpending : pendingIDs br h = some id) :
    ∃ b ∈ br, b.header.height = h ∧ b.header.id = id := by
  induction br using reverseRecOn with
  | nil => cases hpending
  | append_singleton rest b ih =>
    rw [pending_ids_concat, update_apply] at hpending
    split_ifs at hpending with heq
    · exact ⟨b, by simp, heq.symm, Option.some.inj hpending⟩
    · obtain ⟨b', hb', hfound⟩ := ih hpending
      exact ⟨b', mem_append_left _ hb', hfound⟩

theorem pending_ids_ne_none {b : Block} (hb : b ∈ br) :
    pendingIDs br b.header.height ≠ none := by
  induction br using reverseRecOn with
  | nil => cases hb
  | append_singleton rest b' ih =>
    rw [pending_ids_concat, update_apply]
    split_ifs with hne
    · nofun
    · rcases mem_append.mp hb with hold | hnew
      · exact ih hold
      · exact absurd (congrArg (fun b => b.header.height) (mem_singleton.mp hnew)) hne

section

variable {c' : Chain} {new : ChainLog} {hs : Set Header}

section

variable (h : Adopts p c log br undone base new c')

include h

theorem Adopts.blocks : new.map Prod.fst = br.reverse := by
  obtain ⟨s₀, applied, -, happly, rfl⟩ := h.applied
  rw [map_reverse, map_fst_zip (le_of_eq (apply_branch_all happly).1.symm)]

theorem Adopts.mem_iff {b : Block} : b ∈ br ↔ ∃ e ∈ new, e.1 = b := by
  rw [← mem_reverse, ← h.blocks, mem_map]

/-- An adoption never undoes a block below the pruning bookmark. -/
theorem Adopts.bookmark (hc : Canonical p damage log c) :
    ∀ through ∈ undoPrunedThrough c.store.live, through.toNat < base.length := by
  intro through hthrough
  have hsplit := h.split
  cases undone using reverseRecOn with
  | nil =>
    have hle := UInt64.le_iff_toNat_le.mp (hc.headed.pruned through hthrough)
    have hsucc := hc.height_succ
    rw [hc.height] at hsucc
    rw [nil_append] at hsplit
    rw [← hsplit]
    omega
  | append_singleton newer e =>
    have hlt := UInt64.lt_iff_toNat_lt.mp (h.retained e (by simp) through hthrough)
    have hrun := hc.run
    rw [hsplit, append_assoc] at hrun
    rw [hrun.height_eq] at hlt
    exact hlt

theorem Adopts.fills {height : UInt64} {tip : Header} {s : State} (hrun : Run p (new ++ base) s)
    (htip : (new ++ base).head?.map (fun e => e.1.header) = some tip)
    (hle : base.length ≤ height.toNat) (hlt : height < tip.height) :
    ∃ b ∈ br, b.header.height = height := by
  obtain ⟨top, htop, rfl⟩ := Option.map_eq_some_iff.mp htip
  have hlast := hrun.height_lt (mem_of_mem_head? htop)
  rw [UInt64.lt_iff_toNat_lt] at hlt
  obtain ⟨e, he, hheight⟩ := exists_height hrun (hlt.trans hlast)
  refine ⟨e.1, ?_, UInt64.toNat_inj.mp hheight⟩
  rcases mem_append.mp he with hnew | hbase
  · exact h.mem_iff.mpr ⟨e, hnew, rfl⟩
  · obtain ⟨s₀, hrun₀⟩ := hrun.of_append
    have hlow := hrun₀.height_lt hbase
    omega

/-- After a switch the chain is the branch on what was kept, in memory and in the store. -/
theorem Adopts.canonical (hc : Canonical p damage log c) (hnc : NoCollision p hs)
    (hlog : ∀ e ∈ log, e.1.header ∈ hs) (hbr : ∀ b ∈ br, b.header ∈ hs) :
    Canonical p damage (new ++ base) c' := by
  obtain ⟨ancestor, hhead, hchain, -⟩ := h.attached
  have hbook := h.bookmark hc
  have hmemBase : ∀ e ∈ base, e.1.header ∈ hs := fun e he =>
    hlog e (h.split ▸ mem_append_right _ he)
  obtain ⟨hrun, hlinked⟩ : Run p (new ++ base) c'.state ∧ Linked (new ++ base) := by
    obtain ⟨s₀, applied, hbase, happly, rfl⟩ := h.applied
    have hlinked : Linked base := by
      have hlinked := hc.linked
      rw [h.split] at hlinked
      exact hlinked.right_of_append
    have hroot : ∀ hdr ∈ ancestor :: headers br, hdr.id ≠ p.consensusRoot := by
      refine forall_mem_cons.mpr ⟨?_, fun hdr hhdr => ?_⟩
      · obtain ⟨e, he, rfl⟩ := Option.map_eq_some_iff.mp hhead
        exact hnc.root _ (hmemBase e (mem_of_mem_head? he))
      · obtain ⟨b, hb, rfl⟩ := mem_map.mp hhdr
        exact hnc.root _ (hbr b hb)
    have hextends := apply_branch_run hbase hlinked hhead hchain hroot (by rw [happly])
    rw [happly] at hextends
    exact hextends
  have hdistinct : Distinct (undone ++ base) := distinct (h.split ▸ hc.run) hnc.ids (h.split ▸ hlog)
  have hdistinct' : Distinct (new ++ base) := by
    refine distinct hrun hnc.ids fun e he => ?_
    rcases mem_append.mp he with hnew | hbase
    · exact hbr _ (h.mem_iff.mpr ⟨e, hnew, rfl⟩)
    · exact hmemBase e hbase
  have hlast := h.tip
  rw [headers, ← head?_reverse, ← map_reverse, ← h.blocks, map_map] at hlast
  have hne : new ≠ [] := by
    rintro rfl
    cases hlast
  have htip : (new ++ base).head?.map (fun e => e.1.header) = some c'.tip := by
    rw [head?_append_of_ne_nil _ hne, ← head?_map]
    exact hlast
  obtain ⟨t, stats, hcovers, hlands⟩ := h.lands
  rw [← h.networkID] at hlands
  refine canonical_advance (h.split ▸ hc.stored) hlands hcovers hrun hlinked htip h.height hne
    hdistinct hdistinct' hbook fun height id hlt hid => ?_
  cases hpending : pendingIDs br height with
  | some id' =>
    rw [hpending] at hid
    obtain rfl := Option.some.inj hid
    obtain ⟨b, hb, hfound⟩ := mem_of_pending_ids hpending
    obtain ⟨e, he, rfl⟩ := h.mem_iff.mp hb
    exact ⟨e, mem_append_left _ he, hfound⟩
  | none =>
    rw [hpending] at hid
    obtain ⟨e, he, hfound⟩ := hc.stored.mem_of_index hid
    rw [h.split] at he
    rcases mem_append.mp he with hundone | hbase
    · obtain ⟨e', he', hsame⟩ := h.fills hrun htip
        ((h.split ▸ hc.run).le_height hundone) (hfound.1 ▸ hlt)
      exact absurd hpending (hfound.1 ▸ hsame ▸ pending_ids_ne_none he')
    · exact ⟨e, mem_append_right _ hbase, hfound⟩

/-- A chain in memory is the fold of a branch on the blocks below it. -/
structure OnBranch (p : Params) (base : ChainLog) (br : List Block) (new : ChainLog) (c' : Chain) :
    Prop where
  blocks : new.map Prod.fst = br.reverse
  folded : ∃ s₀, Run p base s₀ ∧
    Fold.applyBlocks p s₀ br = some (c'.state, new.map fun e => e.2.undo)
  tip : (headers br).getLast? = some c'.tip
  height : c'.height = c'.tip.height

theorem Adopts.on_branch : OnBranch p base br new c' := by
  refine ⟨h.blocks, ?_, h.tip, h.height⟩
  obtain ⟨s₀, applied, hbase, happly, rfl⟩ := h.applied
  obtain ⟨hlen, hblocks⟩ := apply_branch_all happly
  refine ⟨s₀, hbase, hblocks.trans ?_⟩
  have hzip : (br.zip applied).map (fun e => e.2.undo) = applied.map Fold.Result.undo := by
    have hsnd : (br.zip applied).map Prod.snd = applied := map_snd_zip (le_of_eq hlen)
    calc (br.zip applied).map (fun e => e.2.undo)
        = ((br.zip applied).map Prod.snd).map Fold.Result.undo := map_map.symm
      _ = applied.map Fold.Result.undo := by rw [hsnd]
  rw [map_reverse, map_reverse, hzip]

end

end

end

/-! ## A small chain -/

section

open Fold.Sample (params user)

attribute [local instance] Reference.crypto

namespace Sample

/-- A block on the tip. -/
def extension (c : Chain) : Block := child c.state c.tip 2 (user 1)

/-- A branch of two blocks on the tip. -/
def rival (c : Chain) : List Block := branch c.state c.tip (user 2) [2, 3]

/-- The chain with the extension. -/
def extended (c : Chain) : Chain := (apply params true c (extension c)).2

/-- The chain that had the extension and gave it up for the branch. -/
def switched (c : Chain) : Chain := (considerBranch params true (extended c) (rival c)).2

/-- The chain that went to the branch at once. -/
def adopted (c : Chain) : Chain := (considerBranch params true c (rival c)).2

/-- All headers of the story. -/
def seenHeaders (c : Chain) : List Header := c.tip :: (extension c).header :: headers (rival c)

/-- A store whose counters and log are far from their limits. -/
def Small (m : Storage.Memory) : Prop :=
  m.nextSeq.toNat < 1000 ∧ m.commitCounter.toNat < 1000 ∧ m.logBytes < 2 ^ 32

/-- What opening, extending and switching lead to. -/
structure Story (c : Chain) : Prop where
  applies : (apply params true c (extension c)).1.toOption.isSome = true
  switches : (considerBranch params true (extended c) (rival c)).1.toOption =
    some ⟨true, [extension c]⟩
  adopts : (considerBranch params true c (rival c)).1.toOption = some ⟨true, []⟩
  ids : ((seenHeaders c).map Header.id).Nodup
  root : params.consensusRoot ∉ (seenHeaders c).map Header.id
  small : ∀ c' ∈ [c, extended c, switched c, adopted c], Small c'.store
  grows : c.store.nextSeq < (extended c).store.nextSeq ∧
    (extended c).store.nextSeq < (switched c).store.nextSeq ∧
    c.store.nextSeq < (adopted c).store.nextSeq
  heights : c.height = 0 ∧ (extended c).height = 1 ∧ (switched c).height = 2
  prunes : undoPrunedThrough (switched c).store.live = some 0

/-- Smallness can be decided. -/
instance (m : Storage.Memory) : Decidable (Small m) := inferInstanceAs (Decidable (_ ∧ _))

/-- The story can be checked by evaluation. -/
instance (c : Chain) : Decidable (Story c) :=
  decidable_of_iff (_ ∧ _ ∧ _ ∧ _ ∧ _ ∧ _ ∧ _ ∧ _ ∧ _)
    ⟨fun ⟨h₁, h₂, h₃, h₄, h₅, h₆, h₇, h₈, h₉⟩ => ⟨h₁, h₂, h₃, h₄, h₅, h₆, h₇, h₈, h₉⟩,
      fun h => ⟨h.applies, h.switches, h.adopts, h.ids, h.root, h.small, h.grows, h.heights,
        h.prunes⟩⟩

set_option maxRecDepth 20000 in
theorem story : ∃ c, (openWith params true emptyStore).toOption = some c ∧ Story c := by
  decide +kernel

theorem eq_ok_of_to_option {ε α : Type} {x : Except ε α} {a : α} (h : x.toOption = some a) :
    x = .ok a := by
  cases x with
  | error e => cases h
  | ok b => exact congrArg ok (Option.some.inj h)

theorem no_collision {c : Chain} (h : Story c) : NoCollision params {h | h ∈ seenHeaders c} where
  ids := fun _ hx _ hy heq => inj_on_of_nodup_map h.ids hx hy heq
  root := fun _ hx heq => h.root (heq ▸ mem_map_of_mem hx)

theorem extended_canonical {c : Chain} (hopen : openWith params true emptyStore = .ok c)
    (h : Story c) : ∃ e e', Canonical params False [e'] c ∧
      Canonical params False [e, e'] (extended c) ∧ e.1 = extension c ∧
      e.1.header ∈ seenHeaders c ∧ e'.1.header = c.tip := by
  obtain ⟨e', -, hc⟩ : ∃ e, buildGenesis params = .ok e.1 ∧ Canonical params False [e] c :=
    open_canonical rfl hopen
  have htip : e'.1.header = c.tip := Option.some.inj hc.tip
  have hmem : ∀ e ∈ [e'], e.1.header ∈ {h | h ∈ seenHeaders c} := by
    simp [seenHeaders, htip]
  rcases apply_cases true (extension c) hc with ⟨err, herr, -⟩ | ⟨-, res, -, hextends⟩
  · have happly := h.applies
    rw [herr] at happly
    cases happly
  · exact ⟨(extension c, res), e', hc, hextends.canonical hc (no_collision h) hmem
      (by simp [seenHeaders]), rfl, by simp [seenHeaders], htip⟩

/-- Where the branch is adopted, the chain is the branch on the genesis block. -/
theorem rival_canonical {c c' : Chain} {e' : Block × Result} (undone : ChainLog) (h : Story c)
    (hc : Canonical params False (undone ++ [e']) c')
    (hlog : ∀ e ∈ undone ++ [e'], e.1.header ∈ seenHeaders c)
    (hok : (considerBranch params true c' (rival c)).1.toOption =
      some ⟨true, undone.map Prod.fst⟩) :
    ∃ log, Canonical params False log (considerBranch params true c' (rival c)).2 ∧
      log.map Prod.fst = (rival c).reverse ++ [e'.1] := by
  rcases consider_branch_cases true (rival c) hc with
    ⟨e, herr, -⟩ | hnil | ⟨-, undone', base, new, hok', hadopts⟩
  · rw [herr] at hok
    cases hok
  · rw [hnil] at hok
    cases hok
  · rw [hok'] at hok
    have hundone : undone'.map Prod.fst = undone.map Prod.fst := by
      simpa [Except.toOption] using hok
    have hlength : undone.length = undone'.length := by simpa using (congrArg length hundone).symm
    obtain ⟨rfl, rfl⟩ := append_inj hadopts.split hlength
    refine ⟨_, hadopts.canonical hc (no_collision h) hlog fun b hb => ?_, ?_⟩
    · exact mem_cons_of_mem _ (mem_cons_of_mem _ (mem_map_of_mem hb))
    · rw [map_append, hadopts.blocks, map_singleton]

end Sample

end

end Zycord.Chain
