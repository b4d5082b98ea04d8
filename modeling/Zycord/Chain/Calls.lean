import Zycord.Chain.Switch

/-!
# Sequences of calls

A chain is opened once and then called: blocks are applied, branches are considered, the tip is
rolled back, and any commit may fail. `Moves` says what one call can do to the canonical chain
(`step_moves`), and `run_invariant` is the induction over a sequence of calls: whatever every move
keeps holds after the sequence, and the chain is still canonical.
-/

namespace Zycord.Chain

open List
open Storage (Live applyBatch)
open Fold (ChainLog Run)

/-- A call on a chain. -/
inductive Action where
  | apply (b : Block)
  | considerBranch (br : List Block)
  | rollback
deriving DecidableEq

/-- The headers that a call brings in. -/
def Action.headers : Action → List Header
  | .apply b => [b.header]
  | .considerBranch br => Chain.headers br
  | .rollback => []

section

variable [Crypto]

/-- The chain after a call. The flag says whether a commit lands. -/
def step (p : Params) (c : Chain) (call : Action × Bool) : Chain :=
  match call.1 with
  | .apply b => (apply p call.2 c b).2
  | .considerBranch br => (considerBranch p call.2 c br).2
  | .rollback => (rollback p call.2 c).2

/-- A sequence of calls. -/
def runCalls (p : Params) (c : Chain) (calls : List (Action × Bool)) : Chain :=
  calls.foldl (step p) c

variable {p : Params} {log log' : ChainLog} {c c' : Chain} {hs : Set Header}

/-- What a call can do to a chain: nothing, one block more, a branch in the place of the newest
blocks, or one block less. -/
inductive Moves (p : Params) (log : ChainLog) (c : Chain) (call : Action × Bool) (c' : Chain) :
    ChainLog → Prop where
  | stays (h : Unchanged c c') : Moves p log c call c' log
  | grows {b : Block} {res : Fold.Result} (hcall : call.1 = .apply b)
      (h : Extends p c b res c') : Moves p log c call c' ((b, res) :: log)
  | switches {br : List Block} {undone base new : ChainLog} (hcall : call.1 = .considerBranch br)
      (h : Adopts p c log br undone base new c') : Moves p log c call c' (new ++ base)
  | shrinks {e : Block × Fold.Result} {base : ChainLog} (hcall : call.1 = .rollback)
      (hlog : log = e :: base)
      (hbook : undoPrunedThrough c'.store.live = undoPrunedThrough c.store.live)
      (hnetwork : c'.networkID = c.networkID) :
      Moves p log c call c' base

/-- A failed call leaves the chain canonical. -/
theorem Unchanged.canonical {damage : Prop} (h : Unchanged c c') (hc : Canonical p damage log c) :
    Canonical p damage log c' where
  run := h.state ▸ hc.run
  linked := hc.linked
  tip := h.tip ▸ hc.tip
  height := by rw [h.height, h.tip, hc.height]
  stored := by
    rw [h.store, h.state]
    exact hc.stored
  headed := by
    rw [h.networkID, h.state, h.tip, h.store]
    exact hc.headed

variable (hnc : NoCollision p hs) (hc : Canonical p False log c)
  (hlog : ∀ e ∈ log, e.1.header ∈ hs)

include hnc hc hlog

/-- A call moves a canonical chain to a canonical chain, among the same headers. -/
theorem step_moves (call : Action × Bool) (hcall : ∀ h ∈ call.1.headers, h ∈ hs)
    (hp : call.1 = .rollback → p.validate = .ok ()) :
    ∃ log', Moves p log c call (step p c call) log' ∧ Canonical p False log' (step p c call) ∧
      ∀ e ∈ log', e.1.header ∈ hs := by
  obtain ⟨action, lands⟩ := call
  cases action with
  | apply b =>
    have hb : b.header ∈ hs := hcall _ mem_cons_self
    rcases apply_cases lands b hc with ⟨e, -, hsame⟩ | ⟨-, res, -, hextends⟩
    · exact ⟨log, .stays hsame, hsame.canonical hc, hlog⟩
    · exact ⟨_, .grows rfl hextends, hextends.canonical hc hnc hlog hb,
        forall_mem_cons.mpr ⟨hb, hlog⟩⟩
  | considerBranch br =>
    have hbr : ∀ b ∈ br, b.header ∈ hs := fun b hb => hcall _ (mem_map_of_mem hb)
    rcases consider_branch_cases lands br hc with
      ⟨e, -, hsame⟩ | rfl | ⟨-, undone, base, new, -, h⟩
    · exact ⟨log, .stays hsame, hsame.canonical hc, hlog⟩
    · exact ⟨log, .stays ⟨rfl, rfl, rfl, rfl, rfl⟩, hc, hlog⟩
    · refine ⟨_, .switches rfl h, h.canonical hc hnc hlog hbr, fun e he => ?_⟩
      rcases mem_append.mp he with hnew | hbase
      · have hmem := mem_map_of_mem (f := Prod.fst) hnew
        rw [h.blocks] at hmem
        exact hbr _ (mem_reverse.mp hmem)
      · exact hlog e (h.split ▸ mem_append_right _ hbase)
  | rollback =>
    rcases rollback_cases lands (hp rfl) hc (Run.distinct hc.run hnc.ids hlog) with
      ⟨e, -, hsame⟩ | ⟨-, e, base, rfl, -, hcanonical, hbook, hnetwork⟩
    · exact ⟨log, .stays hsame, hsame.canonical hc, hlog⟩
    · exact ⟨base, .shrinks rfl rfl hbook hnetwork, hcanonical, (forall_mem_cons.mp hlog).2⟩

/-- A call whose commit does not land changes nothing in memory. -/
theorem step_not_landed (a : Action) (hp : p.validate = .ok ()) :
    Unchanged c (step p c (a, false)) := by
  cases a with
  | apply b =>
    rcases apply_cases false b hc with ⟨e, -, hsame⟩ | ⟨hlands, -⟩
    · exact hsame
    · cases hlands
  | considerBranch br =>
    rcases consider_branch_cases false br hc with ⟨e, -, hsame⟩ | rfl | ⟨hlands, -⟩
    · exact hsame
    · exact ⟨rfl, rfl, rfl, rfl, rfl⟩
    · cases hlands
  | rollback =>
    rcases rollback_cases false hp hc (Run.distinct hc.run hnc.ids hlog) with
      ⟨e, -, hsame⟩ | ⟨hlands, -⟩
    · exact hsame
    · cases hlands

/-- What every move keeps holds after a sequence of calls. -/
theorem run_invariant {I : ChainLog → Chain → Prop} {calls : List (Action × Bool)}
    (hcalls : ∀ call ∈ calls, ∀ h ∈ call.1.headers, h ∈ hs)
    (hp : ∀ call ∈ calls, call.1 = .rollback → p.validate = .ok ()) (hI : I log c)
    (hmove : ∀ call ∈ calls, ∀ {log c log' c'}, Canonical p False log c →
      Moves p log c call c' log' → Canonical p False log' c' → I log c → I log' c') :
    ∃ log', Canonical p False log' (runCalls p c calls) ∧ (∀ e ∈ log', e.1.header ∈ hs) ∧
      I log' (runCalls p c calls) := by
  induction calls generalizing log c with
  | nil => exact ⟨log, hc, hlog, hI⟩
  | cons call rest ih =>
    obtain ⟨hcall, hcalls'⟩ := forall_mem_cons.mp hcalls
    obtain ⟨hp₀, hp'⟩ := forall_mem_cons.mp hp
    obtain ⟨hmove₀, hmove'⟩ := forall_mem_cons.mp hmove
    obtain ⟨log', hmoves, hc', hlog'⟩ := step_moves hnc hc hlog call hcall hp₀
    exact ih hc' hlog' hcalls' hp' (hmove₀ hc hmoves hc' hI) hmove'

end

end Zycord.Chain
