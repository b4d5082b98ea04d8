import Zycord.Core.State
import Zycord.Core.SszTree
import Zycord.Lib.Merge

/-!
# The incremental state root

`state.State` with its root cache: the sorted leaf arrays, the sets of keys written since the
arrays were brought up to date, the two persistent trees and the root last computed. The cache
refines the plain state: `roots_from_scratch` says that under any sequence of calls on any number
of copies every `Root` returns the root the definition gives for the current cells and registry.
-/

namespace Zycord

open FinFun FinMap List Option State

variable [Crypto]

/-- The state with its root cache. The source's parallel arrays `cellKeys`/`cellLeaves` and
`spentKeys`/`spentLeaves` are maps from key to leaf, held in key order. -/
structure CachedState extends State where
  cellsPeak : ℕ
  seenPeak : ℕ
  cached : Bool
  cellLeaves : FinMap Slot Hash
  spentLeaves : FinMap Address Hash
  dirtyCells : FinMap Slot Unit
  dirtySpent : FinMap Address Unit
  cellTree : Ssz.Tree
  spentTree : Ssz.Tree
  root : Hash
  rootValid : Bool

namespace CachedState

/-- The empty state, with nothing cached. -/
def new : CachedState where
  toState := State.new
  cellsPeak := 0
  seenPeak := 0
  cached := false
  cellLeaves := FinMap.empty
  spentLeaves := FinMap.empty
  dirtyCells := FinMap.empty
  dirtySpent := FinMap.empty
  cellTree := Ssz.Tree.new
  spentTree := Ssz.Tree.new
  root := 0
  rootValid := false

/-! ## Writes -/

/-- The fraction of its high-water mark below which a map is rebuilt. -/
def shrinkDivisor : ℕ := 4

/-- The mark below which no map is rebuilt. -/
def shrinkFloor : ℕ := 1024

/-- Whether a map with a given mark and live count is left as it is. -/
def keepsBuckets (peak live : ℕ) : Bool :=
  decide (peak < shrinkFloor) || decide (peak / shrinkDivisor ≤ live)

/-- Raise the mark of the cells; rebuild their map if it has fallen far below the mark. -/
def maybeShrinkCells (c : CachedState) : CachedState :=
  let live := c.cells.entries.length
  let peak := max c.cellsPeak live
  if keepsBuckets peak live then { c with cellsPeak := peak }
  else { c with cells := FinFun.empty.setAll c.cells.entries, cellsPeak := live }

/-- Raise the mark of the seen set; rebuild its map if it has fallen far below the mark. -/
def maybeShrinkSeen (c : CachedState) : CachedState :=
  let live := c.seen.entries.length
  let peak := max c.seenPeak live
  if keepsBuckets peak live then { c with seenPeak := peak }
  else { c with seen := FinMap.empty.insertAll c.seen.entries, seenPeak := live }

/-- Write a cell. Writing zero deletes it, with the mark raised before the deletion. -/
def set (c : CachedState) (slot : Slot) (v : U256) : CachedState :=
  let c := { c with dirtyCells := c.dirtyCells.insert slot () }
  if v = 0 then
    maybeShrinkCells
      { c with
        cells := c.cells.set slot 0
        cellsPeak := max c.cellsPeak c.cells.entries.length }
  else { c with cells := c.cells.set slot v }

/-- Burn an address and note it. -/
def markSpent (c : CachedState) (a : Address) : CachedState :=
  { c with spent := c.spent.insert a (), dirtySpent := c.dirtySpent.insert a () }

/-- Record an id; no leaf is of it. -/
def markSeen (c : CachedState) (id : Hash) (ttl : UInt64) : CachedState :=
  { c with seen := c.seen.insert id ttl }

/-- Drop the ids that expire below a height, and return them in id order. -/
def pruneSeen (c : CachedState) (below : UInt64) : CachedState × List (Hash × UInt64) :=
  let pruned := (c.seen.filter fun _ ttl => ttl < below).entries
  (maybeShrinkSeen { c with
      seenPeak := max c.seenPeak c.seen.entries.length
      seen := c.seen.eraseAll (pruned.map Prod.fst) }, pruned)

/-- Take an address out of the registry. -/
def unmarkSpent (c : CachedState) (a : Address) : CachedState :=
  { c with spent := c.spent.erase a, dirtySpent := c.dirtySpent.insert a () }

/-- Reverse everything a log records: the cells newest first, then the registry, then the seen
set. -/
def undo (c : CachedState) (log : UndoLog) : CachedState :=
  let c := log.cells.reverse.foldl (fun c e => c.set e.slot e.old) c
  let c := log.spentAdded.foldl unmarkSpent c
  maybeShrinkSeen
    { c with
      seenPeak := max c.seenPeak c.seen.entries.length
      seen := (c.seen.eraseAll log.seenAdded).insertAll log.seenRemoved }

/-! ## The root -/

/-- The leaf of a cell, if it has one. -/
def liveCell (c : CachedState) (slot : Slot) : Option Hash :=
  (c.cells.find? slot).map (State.cellLeaf slot)

/-- The leaf of an address, if it is burned. -/
def liveSpent (c : CachedState) (a : Address) : Option Hash :=
  (c.spent.find? a).map fun _ => State.spentLeaf a

/-- Merge the cells that changed into the leaves. -/
def refreshCells (c : CachedState) : CachedState :=
  if c.dirtyCells.entries = [] then c
  else
    { c with
      cellLeaves := FinMap.merge c.liveCell c.cellLeaves c.dirtyCells
      dirtyCells := FinMap.empty }

/-- Merge the addresses burned or restored since into the registry leaves. -/
def refreshSpent (c : CachedState) : CachedState :=
  if c.dirtySpent.entries = [] then c
  else
    { c with
      spentLeaves := FinMap.merge c.liveSpent c.spentLeaves c.dirtySpent
      dirtySpent := FinMap.empty }

/-- Bring the leaf arrays up to date: a full build when nothing is cached, otherwise one merge
pass for each array with a key written since. -/
def refreshLeaves (c : CachedState) : CachedState :=
  if c.cached then c.refreshCells.refreshSpent
  else
    { c with
      cellLeaves := c.cells.map State.cellLeaf
      spentLeaves := c.spent.map fun a _ => State.spentLeaf a
      dirtyCells := FinMap.empty
      dirtySpent := FinMap.empty
      cached := true }

/-- The leaves in order. -/
def leavesOf {κ : Type} [LinearOrder κ] (m : FinMap κ Hash) : List Hash := m.entries.map Prod.snd

/-- Compute the root from the leaf arrays through the two trees. -/
def hashLeaves (c : CachedState) : CachedState :=
  let cells := leavesOf c.cellLeaves
  let spent := leavesOf c.spentLeaves
  let cellRoot := c.cellTree.root cells (State.nextPow2 cells.length)
  let spentRoot := c.spentTree.root spent (State.nextPow2 spent.length)
  { c with
    cellTree := cellRoot.1
    spentTree := spentRoot.1
    root := Crypto.sum .stateRoot (cellRoot.2.bytes ++ spentRoot.2.bytes)
    rootValid := true }

/-- Whether the root last computed can be returned as it is. -/
def rootCurrent (c : CachedState) : Bool :=
  c.rootValid && decide (c.dirtyCells.entries = []) && decide (c.dirtySpent.entries = [])

/-- The root, from the cache where it is current. -/
def computeRoot (c : CachedState) : CachedState × Hash :=
  if c.rootCurrent then (c, c.root)
  else
    let c := c.refreshLeaves.hashLeaves
    (c, c.root)

/-! ## The representation invariant -/

/-- A leaf array is right at every key not written since it was brought up to date. -/
def Tracks {κ ν : Type} [LinearOrder κ] (leaf : κ → ν → Hash) (m : FinMap κ ν)
    (leaves : FinMap κ Hash) (dirty : FinMap κ Unit) : Prop :=
  ∀ k, dirty.contains k = false → leaves.find? k = (m.find? k).map (leaf k)

/-- The cache is right: the arrays, once built, track the maps, and the root last computed is the
root over the arrays as they stand. -/
structure Coherent (c : CachedState) : Prop where
  cells : c.cached = true → Tracks State.cellLeaf c.cells.toFinMap c.cellLeaves c.dirtyCells
  spent : c.cached = true → Tracks (fun a _ => State.spentLeaf a) c.spent c.spentLeaves c.dirtySpent
  root : c.rootValid = true →
    c.cached = true ∧ c.root = State.rootOf (leavesOf c.cellLeaves) (leavesOf c.spentLeaves)

section Tracking

variable {κ ν : Type} [LinearOrder κ] {leaf : κ → ν → Hash} {m n : FinMap κ ν}
  {leaves : FinMap κ Hash} {dirty : FinMap κ Unit}

section

variable (h : Tracks leaf m leaves dirty)

include h

omit [Crypto] in
/-- A write is covered by its key becoming dirty. -/
theorem Tracks.write {k : κ} (hother : ∀ k', k ≠ k' → n.find? k' = m.find? k') :
    Tracks leaf n leaves (dirty.insert k ()) := by
  intro k' hclean
  rw [FinMap.contains_insert, Bool.or_eq_false_iff, decide_eq_false_iff_not] at hclean
  rw [hother k' hclean.1, h k' hclean.2]

omit [Crypto] in
theorem Tracks.eq_map (hclean : dirty.entries = []) : leaves = m.map leaf := by
  refine ext_find fun k => ?_
  rw [find_map]
  refine h k ?_
  simp [FinMap.contains, FinMap.find?, FinMap.findList, hclean]

omit [Crypto] in
/-- The merge pass gives the array of the definition. -/
theorem Tracks.merge : merge (fun k => (m.find? k).map (leaf k)) leaves dirty = m.map leaf :=
  merge_eq_map h

end

omit [Crypto] in
theorem tracks_map : Tracks leaf m (m.map leaf) dirty :=
  fun k _ => find_map leaf m k

end Tracking

theorem coherent_new : Coherent new := by
  constructor <;> intro h <;> cases h

/-! ## Every write refines the plain state and keeps the cache right -/

@[simp] theorem to_state_maybe_shrink_cells (c : CachedState) :
    c.maybeShrinkCells.toState = c.toState := by
  simp only [maybeShrinkCells]
  split
  · rfl
  · exact ext (set_all_entries c.cells) rfl rfl

@[simp] theorem to_state_maybe_shrink_seen (c : CachedState) :
    c.maybeShrinkSeen.toState = c.toState := by
  simp only [maybeShrinkSeen]
  split
  · rfl
  · exact ext rfl rfl (insert_all_entries c.seen)

variable {c : CachedState}

theorem Coherent.maybe_shrink_cells (h : Coherent c) : Coherent c.maybeShrinkCells := by
  simp only [maybeShrinkCells, set_all_entries]
  split <;> exact ⟨h.cells, h.spent, h.root⟩

theorem Coherent.maybe_shrink_seen (h : Coherent c) : Coherent c.maybeShrinkSeen := by
  simp only [maybeShrinkSeen]
  split <;> exact ⟨h.cells, h.spent, h.root⟩

theorem Coherent.write_cell (h : Coherent c) (slot : Slot) (v : U256) :
    Coherent { c with
      cells := c.cells.set slot v, dirtyCells := c.dirtyCells.insert slot () } := by
  refine ⟨fun hcached => ?_, h.spent, h.root⟩
  refine (h.cells hcached).write fun k' hne => ?_
  show (c.cells.set slot v).find? k' = c.cells.find? k'
  rw [FinFun.find_eq, FinFun.find_eq, FinFun.get_set_of_ne _ _ hne]

@[simp] theorem to_state_set (c : CachedState) (slot : Slot) (v : U256) :
    (c.set slot v).toState = c.toState.set slot v := by
  simp only [set]
  split_ifs with hv
  · rw [to_state_maybe_shrink_cells, hv]
    rfl
  · rfl

section

variable (h : Coherent c)

include h

theorem Coherent.set (slot : Slot) (v : U256) : Coherent (c.set slot v) := by
  simp only [CachedState.set]
  split
  · have hwrite := h.write_cell slot 0
    exact Coherent.maybe_shrink_cells ⟨hwrite.cells, hwrite.spent, hwrite.root⟩
  · exact h.write_cell slot v

theorem Coherent.mark_spent (a : Address) : Coherent (c.markSpent a) := by
  refine ⟨h.cells, fun hcached => ?_, h.root⟩
  refine (h.spent hcached).write fun k' hne => ?_
  show (c.spent.insert a ()).find? k' = c.spent.find? k'
  rw [find_insert, if_neg hne]

theorem Coherent.unmark_spent (a : Address) : Coherent (c.unmarkSpent a) := by
  refine ⟨h.cells, fun hcached => ?_, h.root⟩
  refine (h.spent hcached).write fun k' hne => ?_
  show (c.spent.erase a).find? k' = c.spent.find? k'
  rw [find_erase, if_neg hne]

theorem Coherent.mark_seen (id : Hash) (ttl : UInt64) : Coherent (c.markSeen id ttl) :=
  ⟨h.cells, h.spent, h.root⟩

end

omit [Crypto] in
theorem erase_all_expired (m : FinMap Hash UInt64) (below : UInt64) :
    m.eraseAll ((m.filter fun _ ttl => ttl < below).entries.map Prod.fst) =
      m.filter fun _ ttl => !(ttl < below) := by
  refine ext_find fun id => ?_
  have hmem : id ∈ (m.filter fun _ ttl => ttl < below).entries.map Prod.fst ↔
      ((m.find? id).filter fun ttl => ttl < below).isSome = true := by
    rw [← FinMap.contains_iff_mem_keys, FinMap.contains, FinMap.find_filter]
  simp only [find_erase_all, hmem, find_filter]
  cases m.find? id with
  | none => simp
  | some ttl => by_cases hlt : ttl < below <;> simp [Option.filter, hlt]

@[simp] theorem to_state_prune_seen (c : CachedState) (below : UInt64) :
    (c.pruneSeen below).1.toState = c.toState.pruneSeen below := by
  simp only [pruneSeen]
  rw [to_state_maybe_shrink_seen]
  exact ext rfl rfl (erase_all_expired c.seen below)

theorem Coherent.prune_seen (h : Coherent c) (below : UInt64) : Coherent (c.pruneSeen below).1 := by
  exact Coherent.maybe_shrink_seen ⟨h.cells, h.spent, h.root⟩

theorem to_state_undo_cells (c : CachedState) (log : List CellUndo) :
    (log.foldl (fun c e => c.set e.slot e.old) c).toState =
      ⟨log.foldl (fun m e => m.set e.slot e.old) c.cells, c.spent, c.seen⟩ := by
  induction log generalizing c with
  | nil => rfl
  | cons e rest ih =>
    rw [foldl_cons, ih, to_state_set]
    rfl

theorem Coherent.undo_cells (h : Coherent c) (log : List CellUndo) :
    Coherent (log.foldl (fun c e => c.set e.slot e.old) c) :=
  foldlRecOn log _ h fun _ hc e _ => hc.set e.slot e.old

theorem to_state_undo_spent (c : CachedState) (log : List Address) :
    (log.foldl unmarkSpent c).toState = ⟨c.cells, c.spent.eraseAll log, c.seen⟩ := by
  induction log generalizing c with
  | nil => rfl
  | cons a rest ih =>
    rw [foldl_cons, ih]
    rfl

theorem Coherent.undo_spent (h : Coherent c) (log : List Address) :
    Coherent (log.foldl unmarkSpent c) := foldlRecOn log _ h fun _ hc a _ => hc.unmark_spent a

@[simp] theorem to_state_undo (c : CachedState) (log : UndoLog) :
    (c.undo log).toState = c.toState.undo log := by
  simp only [undo]
  rw [to_state_maybe_shrink_seen, to_state_undo_spent, to_state_undo_cells]
  rfl

theorem Coherent.undo (h : Coherent c) (log : UndoLog) : Coherent (c.undo log) := by
  have hundo := (h.undo_cells log.cells.reverse).undo_spent log.spentAdded
  exact Coherent.maybe_shrink_seen ⟨hundo.cells, hundo.spent, hundo.root⟩

/-! ## The root call -/

theorem root_of_map (s : State) :
    rootOf (leavesOf (s.cells.map cellLeaf))
      (leavesOf (s.spent.map fun a _ => State.spentLeaf a)) = s.root := by
  simp [State.root, leavesOf, FinMap.map, Function.comp_def]

theorem refresh_cells (h : Tracks cellLeaf c.cells.toFinMap c.cellLeaves c.dirtyCells) :
    ∃ dirty, c.refreshCells =
      { c with cellLeaves := c.cells.map cellLeaf, dirtyCells := dirty } := by
  unfold refreshCells
  split_ifs with hclean
  · exact ⟨c.dirtyCells, by rw [← h.eq_map hclean]⟩
  · exact ⟨empty, by rw [← h.merge]; rfl⟩

theorem refresh_spent
    (h : Tracks (fun a _ => spentLeaf a) c.spent c.spentLeaves c.dirtySpent) :
    ∃ dirty, c.refreshSpent =
      { c with spentLeaves := c.spent.map fun a _ => spentLeaf a, dirtySpent := dirty } := by
  unfold refreshSpent
  split_ifs with hclean
  · exact ⟨c.dirtySpent, by rw [← h.eq_map hclean]⟩
  · exact ⟨empty, by rw [← h.merge]; rfl⟩

theorem Coherent.refresh (h : Coherent c) :
    c.refreshLeaves.toState = c.toState ∧ c.refreshLeaves.cached = true ∧
      c.refreshLeaves.cellLeaves = c.cells.map cellLeaf ∧
      c.refreshLeaves.spentLeaves = c.spent.map (fun a _ => spentLeaf a) := by
  unfold refreshLeaves
  split_ifs with hcached
  · obtain ⟨dirtyCells, hcells⟩ := refresh_cells (h.cells hcached)
    -- the registry is tracked still: the first pass did not touch it
    have htracks : Tracks (fun a _ => spentLeaf a) c.refreshCells.spent
        c.refreshCells.spentLeaves c.refreshCells.dirtySpent := by
      rw [hcells]
      exact h.spent hcached
    obtain ⟨dirtySpent, hspent⟩ := refresh_spent htracks
    rw [hspent, hcells]
    exact ⟨rfl, hcached, rfl, rfl⟩
  · exact ⟨rfl, rfl, rfl, rfl⟩

theorem root_hash_leaves (c : CachedState) :
    c.hashLeaves.root = rootOf (leavesOf c.cellLeaves) (leavesOf c.spentLeaves) := by
  simp only [hashLeaves, Ssz.Tree.root_eq_list_root, rootOf]

theorem Coherent.to_state_compute_root (h : Coherent c) : c.computeRoot.1.toState = c.toState := by
  simp only [computeRoot]
  split
  · rfl
  · exact h.refresh.1

/-- A coherent cache computes the root of its state. -/
theorem Coherent.compute_root (h : Coherent c) : c.computeRoot.2 = c.toState.root := by
  simp only [computeRoot]
  split
  · -- nothing was written since the root was computed
    rename_i hcurrent
    simp only [rootCurrent, Bool.and_eq_true, decide_eq_true_eq] at hcurrent
    obtain ⟨⟨hvalid, hdc⟩, hds⟩ := hcurrent
    obtain ⟨hcached, hroot⟩ := h.root hvalid
    show c.root = _
    rw [hroot, (h.cells hcached).eq_map hdc, (h.spent hcached).eq_map hds]
    exact root_of_map c.toState
  · obtain ⟨-, -, hcells, hspent⟩ := h.refresh
    show c.refreshLeaves.hashLeaves.root = _
    rw [root_hash_leaves, hcells, hspent]
    exact root_of_map c.toState

theorem Coherent.after_compute_root (h : Coherent c) : Coherent c.computeRoot.1 := by
  simp only [computeRoot]
  split
  · exact h
  · obtain ⟨hstate, hcached, hcells, hspent⟩ := h.refresh
    have hmaps : c.refreshLeaves.cells = c.cells ∧ c.refreshLeaves.spent = c.spent :=
      ⟨congrArg State.cells hstate, congrArg State.spent hstate⟩
    refine ⟨fun _ => ?_, fun _ => ?_, fun _ => ⟨hcached, root_hash_leaves c.refreshLeaves⟩⟩
    · show Tracks _ c.refreshLeaves.cells.toFinMap c.refreshLeaves.cellLeaves _
      rw [hcells, hmaps.1]
      exact tracks_map
    · show Tracks _ c.refreshLeaves.spent c.refreshLeaves.spentLeaves _
      rw [hspent, hmaps.2]
      exact tracks_map

end CachedState

/-! ## Any sequence of calls on any number of copies -/

/-- A call on one state. -/
inductive StateCall where
  | set (slot : Slot) (v : U256)
  | markSpent (a : Address)
  | markSeen (id : Hash) (ttl : UInt64)
  | pruneSeen (below : UInt64)
  | undo (log : UndoLog)
  | root

/-- A step of a program over the states it holds: a call on one of them, or a copy of one, which
is kept behind the others. -/
inductive StateStep where
  | call (handle : ℕ) (op : StateCall)
  | clone (handle : ℕ)

/-- A call on the state with its cache, and the root if the call returns one. -/
def CachedState.apply (c : CachedState) : StateCall → CachedState × Option Hash
  | .set slot v => (c.set slot v, none)
  | .markSpent a => (c.markSpent a, none)
  | .markSeen id ttl => (c.markSeen id ttl, none)
  | .pruneSeen below => ((c.pruneSeen below).1, none)
  | .undo log => (c.undo log, none)
  | .root => (c.computeRoot.1, some c.computeRoot.2)

/-- The same call on the plain state, with the root computed from scratch. -/
def State.apply (s : State) : StateCall → State × Option Hash
  | .set slot v => (s.set slot v, none)
  | .markSpent a => (s.markSpent a, none)
  | .markSeen id ttl => (s.markSeen id ttl, none)
  | .pruneSeen below => (s.pruneSeen below, none)
  | .undo log => (s.undo log, none)
  | .root => (s, some s.root)

/-- One step over the states held, and the root if the step returns one. A copy shares nothing
with its original. -/
def stepStates {σ : Type} (apply : σ → StateCall → σ × Option Hash) (held : List σ) :
    StateStep → List σ × Option Hash
  | .call handle op =>
    match held[handle]? with
    | some s => (held.set handle (apply s op).1, (apply s op).2)
    | none => (held, none)
  | .clone handle => (held ++ held[handle]?.toList, none)

/-- A whole program: the states held at the end and every root returned, in order. -/
def runStates {σ : Type} (apply : σ → StateCall → σ × Option Hash) (held : List σ) :
    List StateStep → List σ × List Hash
  | [] => (held, [])
  | step :: rest =>
    let next := stepStates apply held step
    let final := runStates apply next.1 rest
    (final.1, next.2.toList ++ final.2)

/-- Cached states and plain ones go in step. -/
def Refines (cached : List CachedState) (plain : List State) : Prop :=
  List.Forall₂ (fun c s => c.toState = s ∧ c.Coherent) cached plain

variable {c : CachedState} {cached : List CachedState} {plain : List State}

/-- One call refines the call on the plain state. -/
theorem CachedState.Coherent.apply (h : c.Coherent) (op : StateCall) :
    (c.apply op).1.toState = (c.toState.apply op).1 ∧ (c.apply op).1.Coherent ∧
      (c.apply op).2 = (c.toState.apply op).2 := by
  cases op with
  | set slot v => exact ⟨CachedState.to_state_set c slot v, h.set slot v, rfl⟩
  | markSpent a => exact ⟨rfl, h.mark_spent a, rfl⟩
  | markSeen id ttl => exact ⟨rfl, h.mark_seen id ttl, rfl⟩
  | pruneSeen below => exact ⟨CachedState.to_state_prune_seen c below, h.prune_seen below, rfl⟩
  | undo log => exact ⟨CachedState.to_state_undo c log, h.undo log, rfl⟩
  | root => exact ⟨h.to_state_compute_root, h.after_compute_root, congrArg some h.compute_root⟩

section

variable (h : Refines cached plain)

include h

theorem Refines.to_state : cached.map CachedState.toState = plain := by
  induction h with
  | nil => rfl
  | cons hhead htail ih => rw [map_cons, ih, hhead.1]

theorem Refines.lookup (handle : ℕ) :
    (cached[handle]? = none ∧ plain[handle]? = none) ∨
      ∃ c, cached[handle]? = some c ∧ plain[handle]? = some c.toState ∧ c.Coherent := by
  induction h generalizing handle with
  | nil => exact Or.inl ⟨rfl, rfl⟩
  | @cons c s cached plain hhead htail ih =>
    cases handle with
    | zero => exact Or.inr ⟨c, rfl, congrArg some hhead.1.symm, hhead.2⟩
    | succ handle => exact ih handle

theorem Refines.store (handle : ℕ) {s : State} (hcs : c.toState = s ∧ c.Coherent) :
    Refines (cached.set handle c) (plain.set handle s) := by
  induction h generalizing handle with
  | nil => exact List.Forall₂.nil
  | cons hhead htail ih =>
    cases handle with
    | zero => exact List.Forall₂.cons hcs htail
    | succ handle => exact List.Forall₂.cons hhead (ih handle)

/-- A step keeps cached and plain states in step, with equal answers. -/
theorem Refines.step (step : StateStep) :
    Refines (stepStates CachedState.apply cached step).1 (stepStates apply plain step).1 ∧
      (stepStates CachedState.apply cached step).2 = (stepStates apply plain step).2 := by
  cases step with
  | call handle op =>
    rcases h.lookup handle with ⟨hc, hs⟩ | ⟨c, hc, hs, hcoherent⟩
    · simp only [stepStates, hc, hs, and_true]
      exact h
    · obtain ⟨hstate, hnext, hroot⟩ := hcoherent.apply op
      simp only [stepStates, hc, hs]
      exact ⟨h.store handle ⟨hstate, hnext⟩, hroot⟩
  | clone handle =>
    rcases h.lookup handle with ⟨hc, hs⟩ | ⟨c, hc, hs, hcoherent⟩
    · simp only [stepStates, hc, hs, toList_none, append_nil, and_true]
      exact h
    · simp only [stepStates, hc, hs, toList_some, and_true]
      exact rel_append h (List.Forall₂.cons ⟨rfl, hcoherent⟩ List.Forall₂.nil)

/-- A program refines the same program on the plain states. -/
theorem Refines.run (steps : List StateStep) :
    Refines (runStates CachedState.apply cached steps).1 (runStates apply plain steps).1 ∧
      (runStates CachedState.apply cached steps).2 = (runStates apply plain steps).2 := by
  induction steps generalizing cached plain with
  | nil => exact ⟨h, rfl⟩
  | cons step rest ih =>
    obtain ⟨hnext, hroot⟩ := h.step step
    obtain ⟨hfinal, hroots⟩ := ih hnext
    refine ⟨hfinal, ?_⟩
    simp only [runStates, hroot, hroots]

end

/-- Every `Root` call of every program over states made from the empty one returns the root that
the definition gives for the cells and the registry at that point. -/
theorem roots_from_scratch (steps : List StateStep) :
    (runStates CachedState.apply [CachedState.new] steps).2 =
        (runStates State.apply [State.new] steps).2 ∧
      (runStates CachedState.apply [CachedState.new] steps).1.map CachedState.toState =
        (runStates State.apply [State.new] steps).1 := by
  have hnew : Refines [CachedState.new] [new] :=
    List.Forall₂.cons ⟨rfl, CachedState.coherent_new⟩ List.Forall₂.nil
  obtain ⟨hheld, hroots⟩ := hnew.run steps
  exact ⟨hroots, hheld.to_state⟩

end Zycord
