import Zycord.Chain.Restart

/-!
# Commits that fail

A commit can fail while the process lives on: a write comes back short, or a barrier reports an
error. The store then keeps the view it had and takes no further commit, and the chain puts its
memory back, but what was appended stays in the log, and when only the last barrier failed that is
the whole transaction (`Storage.Session.FailsIn`). The next process applies it. So memory is all or
nothing in every case, and the directory is so once it is opened again, but the two may then stand
on different sides of the action.

`branch_switch_all_or_nothing` says this of a branch switch and `reload_eq_memory` of any sequence
of actions; `failed_switch_persists` and `failed_block_persists` are runs in which the directory is
ahead of memory.
-/

namespace Zycord.Chain

open List Storage Storage.Session
open Fold (ChainLog Run)

section

variable [Crypto] {p : Params} {damage : Prop} {hs : Set Header} {log : ChainLog} {s : Session}
  {c c₀ c' : Chain} {a : Action} {d : Disk} {lands : Bool} {br : List Block} {n : ℕ}

/-- What an action leaves in the directory: the files as they were if it changes no record, those of
its call if that lands, and what a failing write or barrier leaves of them if it does not. -/
inductive Leaves (p : Params) (s : Session) (c : Chain) (a : Action) : Bool → Disk → Prop
  | idle {lands : Bool} (hsame : (step p c (a, true)).store = c.store) :
      Leaves p s c a lands s.disk
  | landed {call : Call} {s' : Session} (hmoved : (step p c (a, true)).store ≠ c.store)
      (hcommits : Commits s call (step p c (a, true)).store s') : Leaves p s c a true s'.disk
  | failed {call : Call} {s' : Session} {d : Disk} (hmoved : (step p c (a, true)).store ≠ c.store)
      (hcommits : Commits s call (step p c (a, true)).store s') (hfails : s.FailsIn call d) :
      Leaves p s c a false d

/-- A directory opens as a store with the given records. -/
def OpensAs (n : ℕ) (d : Disk) (live : Live) : Prop :=
  ∃ s, openStore n d = .ok s ∧ s.memory.live = live

/-! ## A branch switch -/

/-- An action that would change no record leaves the files as they are. -/
theorem Leaves.disk_eq (h : Leaves p s c a lands d)
    (hsame : (step p c (a, true)).store = c.store) : d = s.disk := by
  cases h with
  | idle => rfl
  | landed hmoved => exact absurd hsame hmoved
  | failed hmoved => exact absurd hsame hmoved

section

variable (hsound : Sound s) (hstore : c.store = s.memory)

include hsound hstore

/-- What an action that lands leaves opens with the records it led to. -/
theorem Leaves.opens_landed (h : Leaves p s c a true d)
    (hroom : s.memory.commitCounter.toNat + 1 < 2 ^ 64) (n : ℕ) :
    OpensAs n d (step p c (a, true)).store.live := by
  cases h with
  | idle hsame =>
    obtain ⟨s', hopen, -, hlive⟩ := hsound.opens hroom n
    exact ⟨s', hopen, by rw [hlive, hsame, hstore]⟩
  | landed hmoved hcommits =>
    obtain ⟨s', hopen, -, hlive⟩ := hsound.perform_opens hcommits.roomy hcommits.performed n
    exact ⟨s', hopen, by rw [hlive, hcommits.memory]⟩

/-- What a failed action leaves is untouched, or opens on one side of the action. -/
theorem Leaves.opens_failed (h : Leaves p s c a false d) (n : ℕ) :
    d = s.disk ∨ (step p c (a, true)).store ≠ c.store ∧
      (OpensAs n d c.store.live ∨ OpensAs n d (step p c (a, true)).store.live) := by
  cases h with
  | idle => exact .inl rfl
  | failed hmoved hcommits hfails =>
    refine .inr ⟨hmoved, ?_⟩
    obtain ⟨-, hafter⟩ := hsound.perform hcommits.roomy hcommits.performed
    obtain ⟨s', hopen, -, hlive | hlive⟩ := hsound.reopens hcommits.roomy hfails.crash_in n
    · exact .inl ⟨s', hopen, by rw [hlive, hstore]⟩
    · exact .inr ⟨s', hopen, by rw [hlive, ← hafter, hcommits.memory]⟩

/-- A branch switch is all or nothing. A call that reports an error, whatever the reason, has
changed nothing in memory, nor in the files unless its commit failed, and then the directory opens
with the records from before or with those of the chain wholly on the branch. A call that adopts the
branch reports every block that it removed and leaves the chain on the branch, in memory and in the
files. Every other call has changed nothing. -/
theorem branch_switch_all_or_nothing (hc : Canonical p damage log c)
    (hroom : s.memory.commitCounter.toNat + 1 < 2 ^ 64)
    (hleaves : Leaves p s c (.considerBranch br) lands d) (n : ℕ) :
    (∀ e, (considerBranch p lands c br).1 = .error e →
      Unchanged c (considerBranch p lands c br).2 ∧
      (d = s.disk ∨ lands = false ∧
        (OpensAs n d c.store.live ∨ ∃ undone base new, log = undone ++ base ∧
          OnBranch p base br new (considerBranch p true c br).2 ∧
          OpensAs n d (considerBranch p true c br).2.store.live))) ∧
    (∀ reported, (considerBranch p lands c br).1 = .ok ⟨false, reported⟩ →
      reported = [] ∧ (considerBranch p lands c br).2 = c ∧ d = s.disk) ∧
    ∀ reported, (considerBranch p lands c br).1 = .ok ⟨true, reported⟩ →
      ∃ undone base new, log = undone ++ base ∧ reported = undone.map Prod.fst ∧
        OnBranch p base br new (considerBranch p lands c br).2 ∧
        OpensAs n d (considerBranch p lands c br).2.store.live ∧
        ∀ hs, NoCollision p hs → (∀ e ∈ log, e.1.header ∈ hs) → (∀ b ∈ br, b.header ∈ hs) →
          Canonical p damage (new ++ base) (considerBranch p lands c br).2 := by
  rcases consider_branch_cases lands br hc with
    ⟨e, herr, hsame⟩ | rfl | ⟨rfl, undone, base, new, hok, h⟩
  · refine ⟨fun _ _ => ⟨hsame, ?_⟩, by simp [herr], by simp [herr]⟩
    cases lands with
    | true => exact .inl (hleaves.disk_eq hsame.store)
    | false =>
      refine (hleaves.opens_failed hsound hstore n).imp_right fun ⟨hmoved, hopens⟩ => ⟨rfl, ?_⟩
      -- had the commit landed, the branch would have been adopted
      rcases consider_branch_cases true br hc with
        ⟨-, -, hidle⟩ | rfl | ⟨-, undone, base, new, -, h⟩
      · exact absurd hidle.store hmoved
      · exact absurd rfl hmoved
      · exact hopens.imp_right fun hafter => ⟨undone, base, new, h.split, h.on_branch, hafter⟩
  · refine ⟨nofun, fun reported hrep => ?_, nofun⟩
    cases hrep
    exact ⟨rfl, rfl, hleaves.disk_eq rfl⟩
  · refine ⟨by simp [hok], by simp [hok], fun reported hrep => ?_⟩
    rw [hok] at hrep
    cases hrep
    exact ⟨undone, base, new, h.split, rfl, h.on_branch,
      hleaves.opens_landed hsound hstore hroom n,
      fun hs hnc hlog hbr => h.canonical hc hnc hlog hbr⟩

end

/-! ## Sequences of actions -/

/-- A directory opens as a store and as a chain; only the counters may differ. -/
def OpensChain (p : Params) (n : ℕ) (d : Disk) (c : Chain) : Prop :=
  ∃ s stats, openStore n d = .ok s ∧
    openWith p true s.memory = .ok { c with store := s.memory, stats }

/-- A process after a commit failed: what the directory holds, the chain in memory, and the chain
that the commit was for. The store refuses every later commit, so nothing is written any more. -/
inductive Poisoned (p : Params) (hs : Set Header) : Disk → Chain → Chain → Prop
  | failed {s s' : Session} {c : Chain} {a : Action} {call : Call} {d : Disk}
      (h : NodeLife p hs s c) (hheaders : ∀ h ∈ a.headers, h ∈ hs)
      (hcommits : Commits s call (step p c (a, true)).store s') (hfails : s.FailsIn call d) :
      Poisoned p hs d (step p c (a, false)) (step p c (a, true))
  | refused {d : Disk} {c c' : Chain} (a : Action) (h : Poisoned p hs d c c') :
      Poisoned p hs d (step p c (a, false)) c'

omit [Crypto] in
theorem Unchanged.trans (h : Unchanged c c₀) (h' : Unchanged c₀ c') : Unchanged c c' :=
  ⟨h'.state.trans h.state, h'.tip.trans h.tip, h'.height.trans h.height,
    h'.networkID.trans h.networkID, h'.store.trans h.store⟩

theorem Unchanged.opens_chain (h : Unchanged c c') (hopens : OpensChain p n d c) :
    OpensChain p n d c' := by
  obtain ⟨s, stats, hopen, hchain⟩ := hopens
  refine ⟨s, stats, hopen, ?_⟩
  rw [hchain, h.state, h.tip, h.height, h.networkID]

theorem Alive.reloads (h : Alive p hs s c log) : Reloads p c := by
  obtain ⟨g, hbuilt, hnetwork⟩ := h.network
  exact h.canonical.reloads hbuilt hnetwork

section

variable (hp : p.validate = .ok ()) (hnc : NoCollision p hs)

include hp hnc

/-- A commit can fail with the whole of its transaction in the log; the directory then opens as the
chain that the commit was for. -/
theorem Alive.fails_whole {call : Call} {s' : Session} (h : Alive p hs s c log)
    (hheaders : ∀ h ∈ a.headers, h ∈ hs) (hne : call.transaction ≠ [])
    (hcommits : Commits s call (Chain.step p c (a, true)).store s') :
    ∃ d, s.FailsIn call d ∧ ∀ n, OpensChain p n d (Chain.step p c (a, true)) := by
  obtain ⟨d, hfails, hopens⟩ := h.sound.fails_whole hcommits.roomy hcommits.performed hne
  refine ⟨d, hfails, fun n => ?_⟩
  obtain ⟨hsound, -⟩ := h.sound.perform hcommits.roomy hcommits.performed
  obtain ⟨log', halive⟩ := h.step hp hnc hheaders hsound hcommits.memory.symm
  obtain ⟨s'', hopen, hsound'', hlive⟩ := hopens n
  rw [hcommits.memory] at hlive
  obtain ⟨stats, hchain, -⟩ := halive.reopens hsound'' hlive
  exact ⟨s'', stats, hopen, hchain⟩

/-- Memory stays where it was when the commit failed, and the directory opens on one side of it. -/
theorem Poisoned.alive (h : Poisoned p hs d c c') :
    ∃ s c₀ log, Alive p hs s c₀ log ∧ Unchanged c₀ c ∧
      ∀ n, OpensChain p n d c₀ ∨ OpensChain p n d c' := by
  induction h with
  | @failed s s' c a call d h hheaders hcommits hfails =>
    obtain ⟨log, halive⟩ := h.alive hp hnc
    refine ⟨s, c, log, halive, step_not_landed hnc halive.canonical halive.headers a hp,
      fun n => ?_⟩
    obtain ⟨s'', c₁, stats, -, hopen, hwhich, -, hchain, -⟩ :=
      halive.dies hp hnc hheaders hcommits hfails.crash_in n
    rcases hwhich with rfl | rfl
    · exact .inl ⟨s'', stats, hopen, hchain⟩
    · exact .inr ⟨s'', stats, hopen, hchain⟩
  | refused a h ih =>
    obtain ⟨s, c₀, log, halive, hsame, hopens⟩ := ih
    have hstays := step_not_landed hnc (hsame.canonical halive.canonical) halive.headers a hp
    exact ⟨s, c₀, log, halive, hsame.trans hstays, hopens⟩

/-- What is persisted is what is in memory. After any sequence of actions, whichever of their
commits land, the open store holds what memory holds; while all of them land, the directory opens as
the chain in memory; and once one has failed, the directory opens as the chain in memory or as the
one that the failed commit was for. -/
theorem reload_eq_memory :
    (∀ calls c₀ lands store, store.live = FinMap.empty → openWith p lands store = .ok c₀ →
      c₀.tip ∈ hs → (∀ call ∈ calls, ∀ h ∈ call.1.headers, h ∈ hs) →
      Reloads p (runCalls p c₀ calls)) ∧
    (∀ s c, NodeLife p hs s c → s.memory.commitCounter.toNat + 1 < 2 ^ 64 →
      Reloads p c ∧ ∀ n, OpensChain p n s.disk c) ∧
    ∀ d c c', Poisoned p hs d c c' →
      Reloads p c ∧ ∀ n, OpensChain p n d c ∨ OpensChain p n d c' := by
  refine ⟨fun calls c₀ lands store hempty hopen hgenesis hcalls =>
    reloads_of_run calls hp hnc hempty hopen hgenesis hcalls, ?_, ?_⟩
  · intro s c h hroom
    obtain ⟨log, halive⟩ := h.alive hp hnc
    refine ⟨halive.reloads, fun n => ?_⟩
    obtain ⟨s', hopen, hsound, hlive⟩ := halive.sound.opens hroom n
    obtain ⟨stats, hchain, -⟩ := halive.reopens hsound (hlive.trans (halive.store ▸ rfl))
    exact ⟨s', stats, hopen, hchain⟩
  · intro d c c' h
    obtain ⟨s, c₀, log, halive, hsame, hopens⟩ := h.alive hp hnc
    obtain ⟨g, hbuilt, hnetwork⟩ := halive.network
    exact ⟨(hsame.canonical halive.canonical).reloads hbuilt (hsame.networkID.trans hnetwork),
      fun n => (hopens n).imp_left hsame.opens_chain⟩

end

end

/-! ## Runs in which a commit fails -/

section

attribute [local instance] Reference.crypto

open Sample
open Fold.Sample (params params_validate)

/-- A node of the small chain with the extension, and the call that would take it to the branch. -/
theorem sample_alive : ∃ c s log call s', openWith params true emptyStore = .ok c ∧ Story c ∧
    Alive params {h | h ∈ seenHeaders c} s (extended c) log ∧ call.transaction ≠ [] ∧
    Commits s call (switched c).store s' ∧ (switched c).store ≠ (extended c).store := by
  obtain ⟨c, s₀, hopen, hstory, hlife₀⟩ := sample_life
  obtain ⟨s, hlife⟩ := sample_extended hstory hlife₀
  obtain ⟨call, s', hne, hcommits, -⟩ := sample_switch hstory hlife
  obtain ⟨log, halive⟩ := hlife.alive params_validate (no_collision hstory)
  refine ⟨c, s, log, call, s', hopen, hstory, halive, hne, hcommits, fun heq => ?_⟩
  have hgrows := hstory.grows.2.1
  rw [heq] at hgrows
  exact UInt64.lt_irrefl _ hgrows

/-- A block is replaced by a branch of two. -/
theorem sample_branch_switch :
    ∃ c log s d, Canonical params False log (extended c) ∧ Sound s ∧ (extended c).store = s.memory ∧
      Leaves params s (extended c) (.considerBranch (rival c)) true d ∧
      (considerBranch params true (extended c) (rival c)).1 = .ok ⟨true, [extension c]⟩ ∧
      ∃ undone base new, log = undone ++ base ∧ [extension c] = undone.map Prod.fst ∧
        OnBranch params base (rival c) new (switched c) ∧ OpensAs 0 d (switched c).store.live := by
  obtain ⟨c, s, log, call, s', -, hstory, halive, -, hcommits, hmoved⟩ := sample_alive
  have hleaves : Leaves params s (extended c) (.considerBranch (rival c)) true s'.disk :=
    .landed hmoved hcommits
  have hadopts := eq_ok_of_to_option hstory.switches
  obtain ⟨-, -, hswitch⟩ := branch_switch_all_or_nothing halive.sound halive.store halive.canonical
    (by have := hcommits.roomy.2.2; omega) hleaves 0
  obtain ⟨undone, base, new, hsplit, hundone, hbranch, hopens, -⟩ := hswitch _ hadopts
  exact ⟨c, log, s, _, halive.canonical, halive.sound, halive.store, hleaves, hadopts, undone, base,
    new, hsplit, hundone, hbranch, hopens⟩

/-- The last barrier of a switch fails: the call reports an error and memory is as before, and the
directory opens on the branch. -/
theorem failed_switch_persists :
    ∃ c log s d e s' c', Canonical params False log (extended c) ∧ Sound s ∧
      (extended c).store = s.memory ∧
      Leaves params s (extended c) (.considerBranch (rival c)) false d ∧
      (considerBranch params false (extended c) (rival c)).1 = .error e ∧
      (considerBranch params false (extended c) (rival c)).2.height = 1 ∧
      openStore 0 d = .ok s' ∧ openWith params true s'.memory = .ok c' ∧ c'.height = 2 := by
  obtain ⟨c, s, log, call, s', -, hstory, halive, hne, hcommits, hmoved⟩ := sample_alive
  obtain ⟨d, hfails, hopens⟩ := halive.fails_whole params_validate (no_collision hstory)
    (rival_seen c) hne hcommits
  obtain ⟨s'', stats, hopen, hchain⟩ := hopens 0
  rcases consider_branch_cases false (rival c) halive.canonical with
    ⟨e, herr, hsame⟩ | hnil | ⟨hlands, -⟩
  · exact ⟨c, log, s, d, e, s'', _, halive.canonical, halive.sound, halive.store,
      .failed hmoved hcommits hfails, herr, hsame.height.trans hstory.heights.2.1, hopen, hchain,
      hstory.heights.2.2⟩
  · have hswitches := hstory.switches
    rw [hnil] at hswitches
    cases hswitches
  · cases hlands

/-- The call of a node of the small chain that applies the extension, with its commit failing after
all of it is in the log. -/
theorem sample_poisoned : ∃ c s d, openWith params true emptyStore = .ok c ∧ Story c ∧
    NodeLife params {h | h ∈ seenHeaders c} s c ∧
    Poisoned params {h | h ∈ seenHeaders c} d (apply params false c (extension c)).2 (extended c) ∧
    OpensChain params 0 d (extended c) := by
  obtain ⟨c, s, hopen, hstory, hlife⟩ := sample_life
  obtain ⟨log, halive⟩ := hlife.alive params_validate (no_collision hstory)
  have hheaders : ∀ h ∈ (Action.apply (extension c)).headers, h ∈ {h | h ∈ seenHeaders c} := by
    simp [Action.headers, seenHeaders]
  obtain ⟨call, s', hne, hcommits⟩ := sample_commits (a := .apply (extension c)) hstory hlife
    (hstory.small _ (by simp)) (hstory.small (extended c) (by simp)) hstory.grows.1
  obtain ⟨d, hfails, hopens⟩ := halive.fails_whole params_validate (no_collision hstory) hheaders
    hne hcommits
  exact ⟨c, s, d, hopen, hstory, hlife, .failed hlife hheaders hcommits hfails, hopens 0⟩

/-- A block, a switch whose commit fails and a rollback; the branch over the block; and a block
whose commit fails. -/
theorem sample_reload_eq_memory :
    ∃ c s d, openWith params true emptyStore = .ok c ∧
      Reloads params (runCalls params c
        [(.apply (extension c), true), (.considerBranch (rival c), false), (.rollback, true)]) ∧
      NodeLife params {h | h ∈ seenHeaders c} s (switched c) ∧
      OpensChain params 0 s.disk (switched c) ∧
      Poisoned params {h | h ∈ seenHeaders c} d (apply params false c (extension c)).2
        (extended c) ∧
      Reloads params (apply params false c (extension c)).2 := by
  obtain ⟨c, s₀, d, hopen, hstory, hlife₀, hpoisoned, -⟩ := sample_poisoned
  obtain ⟨s₁, hlife₁⟩ := sample_extended hstory hlife₀
  obtain ⟨-, s, -, -, hlife⟩ := sample_switch hstory hlife₁
  obtain ⟨hcalls, hlives, hfailed⟩ := reload_eq_memory params_validate (no_collision hstory)
  have hroom : s.memory.commitCounter.toNat + 1 < 2 ^ 64 := by
    obtain ⟨log, halive⟩ := hlife.alive params_validate (no_collision hstory)
    have hsmall := (hstory.small (switched c) (by simp)).2.1
    rw [halive.store] at hsmall
    omega
  refine ⟨c, s, d, hopen, hcalls _ c true emptyStore rfl hopen (by simp [seenHeaders]) ?_, hlife,
    (hlives s _ hlife hroom).2 0, hpoisoned, (hfailed d _ _ hpoisoned).1⟩
  intro call hcall
  simp only [mem_cons, not_mem_nil, or_false] at hcall
  rcases hcall with rfl | rfl | rfl
  · simp [Action.headers, seenHeaders]
  · exact rival_seen c
  · exact fun h hh => absurd hh not_mem_nil

/-- The last barrier of a block fails: memory stays at the genesis block, and the directory opens
with the block applied. -/
theorem failed_block_persists :
    ∃ c d s' c', openWith params true emptyStore = .ok c ∧
      Poisoned params {h | h ∈ seenHeaders c} d (apply params false c (extension c)).2
        (extended c) ∧
      (apply params false c (extension c)).2.height = 0 ∧
      openStore 0 d = .ok s' ∧ openWith params true s'.memory = .ok c' ∧ c'.height = 1 := by
  obtain ⟨c, s, d, hopen, hstory, hlife, hpoisoned, s', stats, hdisk, hchain⟩ := sample_poisoned
  obtain ⟨log, halive⟩ := hlife.alive params_validate (no_collision hstory)
  have hsame := step_not_landed (no_collision hstory) halive.canonical halive.headers
    (.apply (extension c)) params_validate
  exact ⟨c, d, s', _, hopen, hpoisoned, hsame.height.trans hstory.heights.1, hdisk, hchain,
    hstory.heights.2.1⟩

end

end Zycord.Chain
