import Zycord.Chain.Reload

/-!
# Undo logs are kept exactly as long as they are needed

The undo logs in the store are those of the canonical blocks above the bookmark
(`Canonical.undo_retained`). While the tip does not drop, the bookmark stays more than the undo
depth below it (`Moves.behind`), so a fork within the undo depth can be unwound to
(`unwind_succeeds`). The main result is `undo_retention_exact`.
-/

namespace Zycord.Chain

open Except List Nat Option UInt64
open Storage (Live applyBatch)
open Fold (ChainLog Run)

section

variable [Crypto] {p : Params} {log log' : ChainLog} {c c' : Chain} {hs : Set Header}

/-! ## Which logs are kept -/

/-- A height lies above the bookmark. -/
def Above (live : Live) (h : UInt64) : Prop := ∀ through ∈ undoPrunedThrough live, through < h

variable {a e : Block × Fold.Result}

theorem Canonical.undo_record (hc : Canonical p False log c) (he : e ∈ log)
    (habove : Above c.store.live e.1.header.height) :
    get c.store.live (.undo e.1.header.id) = some (encodeUndo e.2.undo) := by
  rw [(hc.stored.undos e he).eq]
  exact if_pos habove

/-- The undo logs are those of the canonical heights above the bookmark. -/
theorem Canonical.undo_retained (hc : Canonical p False log c) (id : Hash) :
    (get c.store.live (.undo id)).isSome = true ↔
      ∃ h, canonicalIDAt c.store.live h = some id ∧ Above c.store.live h := by
  constructor
  · intro hsome
    by_cases hmem : ∃ e ∈ log, e.1.header.id = id
    · obtain ⟨e, he, rfl⟩ := hmem
      refine ⟨e.1.header.height, canonical_id_at hc he, ?_⟩
      rw [(hc.stored.undos e he).eq, undoRecord] at hsome
      split at hsome
      · assumption
      · cases hsome
    · rw [(hc.stored.noUndo id fun e he heq => hmem ⟨e, he, heq⟩).eq] at hsome
      cases hsome
  · rintro ⟨h, hid, habove⟩
    obtain ⟨e, he, rfl, rfl⟩ := hc.stored.mem_of_index hid
    rw [hc.undo_record he habove]
    rfl

theorem Canonical.read_unwind (hp : p.validate = .ok ()) (hc : Canonical p False log c)
    (he : e ∈ log) (habove : Above c.store.live e.1.header.height) :
    readUnwind p c.store.live e.1.header = .ok (e.1, e.2.undo) := by
  have hget := hc.undo_record he habove
  have hfits := fits_of_length ((hc.stored.short e he).2.trans (by decide))
  simp only [readUnwind, bind_eq_ok, pure_eq_ok]
  exact ⟨e.1, hc.block_locked hp he, _, by rw [hget]; rfl, _, decode_encode_undo hfits, rfl⟩

/-- Unwinding reaches a canonical ancestor if every block above it is above the bookmark. -/
theorem unwind_succeeds (hp : p.validate = .ok ()) (hc : Canonical p False log c)
    (habove : ∀ e ∈ log, a.1.header.height < e.1.header.height →
      Above c.store.live e.1.header.height)
    {fuel : ℕ} {newer base : ChainLog} (hsplit : log = newer ++ base) {u : Unwound}
    (hcursor : base.head?.map (fun e => e.1.header) = some u.cursor) (ha : a ∈ base)
    (hfuel : base.length ≤ fuel) : ∃ u', unwind p c.store.live a.1.header.id fuel u = .ok u' := by
  induction fuel generalizing newer base u with
  | zero =>
    rw [length_eq_zero_iff.mp (le_zero.mp hfuel)] at ha
    cases ha
  | succ fuel ih =>
    unfold unwind
    by_cases hid : u.cursor.id = a.1.header.id
    · rw [if_pos hid]
      exact ⟨u, rfl⟩
    · rw [if_neg hid]
      rcases base with _ | ⟨e, _ | ⟨below, base⟩⟩
      · cases ha
      -- the only block left is the ancestor
      · have hhead : e.1.header = u.cursor := some.inj hcursor
        rw [mem_singleton.mp ha] at hid
        exact absurd (congrArg Header.id hhead.symm) hid
      · have hhead : e.1.header = u.cursor := some.inj hcursor
        have hin : a ∈ below :: base := by
          rcases mem_cons.mp ha with rfl | hin
          · exact absurd (congrArg Header.id hhead.symm) hid
          · exact hin
        have he : e ∈ log := by
          rw [hsplit]
          exact mem_append_right _ mem_cons_self
        have hbelow : below ∈ log := by
          rw [hsplit]
          simp
        obtain ⟨s₁, hrun₁⟩ := (hsplit ▸ hc.run).of_append
        obtain ⟨s₀, hrun₀, hheight, -⟩ := hrun₁.of_cons
        have hlower : a.1.header.height < e.1.header.height := by
          rw [lt_iff_toNat_lt, hheight]
          exact hrun₀.height_lt hin
        have hlink : e.1.header.parentID = below.1.header.id := by
          have hlinked := hc.linked
          rw [hsplit] at hlinked
          exact (isChain_cons_cons.mp hlinked.right_of_append).1
        have hread := hc.read_unwind hp he (habove e he hlower)
        have hparent : headerLocked c.store.live u.cursor.parentID = .ok below.1.header := by
          rw [← hhead, hlink]
          exact header_locked_eq_ok.mpr (hc.stored.headers below hbelow).eq
        rw [← hhead] at hparent ⊢
        rw [hread]
        rw [hparent]
        have hsplit' : log = (newer ++ [e]) ++ below :: base := by
          rw [hsplit, append_assoc]
          rfl
        exact ih hsplit' rfl hin (le_of_succ_le_succ hfuel)

/-! ## The bookmark while the tip does not drop -/

/-- No call lowers the height of the tip. -/
def NeverDrops (p : Params) : Chain → List (Action × Bool) → Prop
  | _, [] => True
  | c, call :: rest => c.height ≤ (step p c call).height ∧ NeverDrops p (step p c call) rest

/-- The bookmark is more than the undo depth below the tip. -/
def Behind (p : Params) (c : Chain) : Prop :=
  ∀ through ∈ undoPrunedThrough c.store.live, through.toNat + p.undoDepth.toNat + 1 ≤ c.height.toNat

/-- A call that does not lower the tip keeps the bookmark behind. -/
theorem Moves.behind {call : Action × Bool} (h : Moves p log c call c' log')
    (hrises : c.height ≤ c'.height) (hbehind : Behind p c) : Behind p c' := by
  rw [le_iff_toNat_le] at hrises
  intro through hthrough
  cases h with
  | stays h =>
    rw [h.store] at hthrough
    have hle := hbehind through hthrough
    omega
  | grows _ h =>
    obtain ⟨stats, hlands⟩ := h.lands
    rcases pruned_through_advance hlands hthrough with hold | ⟨hdeep, hle⟩
    · have hle := hbehind through hold
      omega
    · rw [h.height]
      exact behind_of_le_horizon hdeep hle
  | switches _ h =>
    obtain ⟨t, stats, -, hlands⟩ := h.lands
    rcases pruned_through_advance hlands hthrough with hold | ⟨hdeep, hle⟩
    · have hle := hbehind through hold
      omega
    · rw [h.height]
      exact behind_of_le_horizon hdeep hle
  | shrinks _ _ hbook =>
    rw [hbook] at hthrough
    have hle := hbehind through hthrough
    omega

theorem open_behind {lands : Bool} {store : Storage.Memory}
    (hempty : store.live = FinMap.empty) (hopen : openWith p lands store = .ok c) : Behind p c := by
  obtain ⟨b, res, -, -, -, hheight, -, -, stats, hlands⟩ := open_empty_eq_ok hempty hopen
  intro through hthrough
  rcases pruned_through_advance hlands hthrough with hold | ⟨hdeep, hle⟩
  · cases hold
  · rw [hheight]
    exact behind_of_le_horizon hdeep hle

theorem run_behind {calls : List (Action × Bool)} (hp : p.validate = .ok ())
    (hnc : NoCollision p hs) (hc : Canonical p False log c) (hlog : ∀ e ∈ log, e.1.header ∈ hs)
    (hcalls : ∀ call ∈ calls, ∀ h ∈ call.1.headers, h ∈ hs) (hnever : NeverDrops p c calls)
    (hbehind : Behind p c) : Behind p (runCalls p c calls) := by
  induction calls generalizing log c with
  | nil => exact hbehind
  | cons call rest ih =>
    obtain ⟨hcall, hcalls'⟩ := forall_mem_cons.mp hcalls
    obtain ⟨log', hmoves, hc', hlog'⟩ := step_moves hnc hc hlog call hcall fun _ => hp
    exact ih hc' hlog' hcalls' hnever.2 (hmoves.behind hnever.1 hbehind)

/-- Within the undo depth, the height is above the bookmark. -/
theorem Behind.above (hc : Canonical p False log c) (hbehind : Behind p c) (ha : a ∈ log)
    (hlower : a.1.header.height < e.1.header.height)
    (hnear : c.height - a.1.header.height ≤ p.undoDepth) :
    Above c.store.live e.1.header.height := by
  intro through hthrough
  have hle := hbehind through hthrough
  have hlt := hc.run.height_lt ha
  have hsucc := hc.height_succ
  have hbelow : a.1.header.height ≤ c.height := by
    rw [UInt64.le_iff_toNat_le]
    omega
  rw [UInt64.le_iff_toNat_le, UInt64.toNat_sub_of_le _ _ hbelow] at hnear
  rw [UInt64.lt_iff_toNat_lt] at hlower ⊢
  omega

/-- Undo-log retention is exact: after any sequence of calls from genesis the store holds an undo
log for exactly the canonical heights above the bookmark, and the bookmark is at most the tip. If
the tip height never dropped, unwinding to a canonical block within the undo depth finds every
record it reads. -/
theorem undo_retention_exact {lands : Bool} {store : Storage.Memory} {c₀ : Chain}
    (calls : List (Action × Bool)) (hp : p.validate = .ok ()) (hnc : NoCollision p hs)
    (hempty : store.live = FinMap.empty) (hopen : openWith p lands store = .ok c₀)
    (hgenesis : c₀.tip ∈ hs) (hcalls : ∀ call ∈ calls, ∀ h ∈ call.1.headers, h ∈ hs) :
    let c := runCalls p c₀ calls
    (∀ id, (get c.store.live (.undo id)).isSome = true ↔
      ∃ h, canonicalIDAt c.store.live h = some id ∧ Above c.store.live h) ∧
    (∀ h id, canonicalIDAt c.store.live h = some id → h ≤ c.height) ∧
    (∀ through ∈ undoPrunedThrough c.store.live, through ≤ c.height) ∧
    (NeverDrops p c₀ calls → ∀ h id, canonicalIDAt c.store.live h = some id →
      c.height - h ≤ p.undoDepth →
      ∃ u, unwind p c.store.live id (c.height.toNat + 1) ⟨c.state, [], 0, .empty, c.tip⟩ =
        .ok u) := by
  intro c
  obtain ⟨e, -, hc₀⟩ : ∃ e, buildGenesis p = .ok e.1 ∧ Canonical p False [e] c₀ :=
    open_canonical hempty hopen
  have htip : e.1.header = c₀.tip := some.inj hc₀.tip
  have hlog₀ : ∀ e' ∈ [e], e'.1.header ∈ hs := by simpa [htip] using hgenesis
  obtain ⟨log, hc, -, -⟩ := run_invariant (I := fun _ _ => True) hnc hc₀ hlog₀ hcalls
    (fun _ _ _ => hp) trivial fun _ _ => fun _ _ _ _ => trivial
  refine ⟨hc.undo_retained, fun h id hid => ?_, ?_, fun hnever h id hid hnear => ?_⟩
  · obtain ⟨e', he', rfl, -⟩ := hc.stored.mem_of_index hid
    have hlt := hc.run.height_lt he'
    have hsucc : c.height.toNat + 1 = log.length := hc.height_succ
    rw [le_iff_toNat_le]
    omega
  · rw [hc.height]
    exact hc.headed.pruned
  · obtain ⟨a, ha, rfl, rfl⟩ := hc.stored.mem_of_index hid
    have hbehind := run_behind hp hnc hc₀ hlog₀ hcalls hnever (open_behind hempty hopen)
    exact unwind_succeeds hp hc (fun e' he' hlower => hbehind.above hc ha hlower hnear)
      (nil_append log).symm hc.tip ha (le_of_eq hc.height_succ.symm)

end

section

attribute [local instance] Reference.crypto

open Sample
open Fold.Sample (params params_validate)

/-- A block, and a heavier branch in its place: the tip never drops, the branch takes the bookmark
past genesis, the logs of the heights above it are there, and the chain can be unwound by one. -/
theorem sample_undo_retention_exact :
    ∃ c₀, openWith params true emptyStore = .ok c₀ ∧
      let calls := [(.apply (extension c₀), true), (.considerBranch (rival c₀), true)]
      let c := runCalls params c₀ calls
      NeverDrops params c₀ calls ∧ undoPrunedThrough c.store.live = some 0 ∧
      (∀ id, (get c.store.live (.undo id)).isSome = true ↔
        ∃ h, canonicalIDAt c.store.live h = some id ∧ Above c.store.live h) ∧
      ∀ h id, canonicalIDAt c.store.live h = some id → c.height - h ≤ params.undoDepth →
        ∃ u, unwind params c.store.live id (c.height.toNat + 1)
          ⟨c.state, [], 0, .empty, c.tip⟩ = .ok u := by
  obtain ⟨c₀, hopen, hstory⟩ := story
  have hopen := eq_ok_of_to_option hopen
  obtain ⟨hzero, hone, htwo⟩ := hstory.heights
  have hnever : NeverDrops params c₀
      [(.apply (extension c₀), true), (.considerBranch (rival c₀), true)] := by
    refine ⟨?_, ?_, trivial⟩
    · show c₀.height ≤ (extended c₀).height
      rw [hzero, hone]
      decide
    · show (extended c₀).height ≤ (switched c₀).height
      rw [hone, htwo]
      decide
  have hexact := undo_retention_exact
    [(.apply (extension c₀), true), (.considerBranch (rival c₀), true)] params_validate
    (no_collision hstory) rfl hopen (by simp [seenHeaders])
    (by simp +contextual [Action.headers, seenHeaders])
  exact ⟨c₀, hopen, hnever, hstory.prunes, hexact.1, hexact.2.2.2 hnever⟩

end

end Zycord.Chain
