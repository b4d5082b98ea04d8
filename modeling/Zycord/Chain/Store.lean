import Zycord.Chain.Records
import Zycord.Chain.Work
import Zycord.Core.Difficulty
import Zycord.Fold.Apply

/-!
# The chain store

A persisted chain and the state in memory that the fold runs against (`node/chain/store.go`). A
call reads the store, computes in memory, and commits everything it changed in one transaction;
whether the transaction lands is the caller's parameter, so every failure of the disk is a value of
it. A commit that lands goes through the store of `Zycord.Storage`, which refuses a record that is
too large.
-/

namespace Zycord

open Storage (Live Batch applyBatch)

namespace Chain

/-! ## Counters -/

/-- The counters a chain keeps of what it did. -/
structure Stats where
  blocksApplied : UInt64
  certsApplied : UInt64
  certsSkipped : UInt64
  certsDropped : UInt64
  reorgEvents : UInt64
  deepestReorg : UInt64
  blocksUndone : UInt64
  blocksRejected : UInt64
deriving DecidableEq

namespace Stats

/-- No block yet. -/
def zero : Stats := ⟨0, 0, 0, 0, 0, 0, 0, 0⟩

/-- Count the outcome of one certificate. -/
def withOutcome (s : Stats) : Fold.Outcome → Stats
  | .applied => { s with certsApplied := s.certsApplied + 1 }
  | .skippedStale => { s with certsSkipped := s.certsSkipped + 1 }
  | .skippedOverflow => { s with certsSkipped := s.certsSkipped + 1 }
  | .dropped => { s with certsDropped := s.certsDropped + 1 }

/-- Count an applied block and its outcomes. -/
def withBlock (s : Stats) (res : Fold.Result) : Stats :=
  res.outcomes.foldl (fun s o => s.withOutcome o.outcome)
    { s with blocksApplied := s.blocksApplied + 1 }

/-- The counters after a branch switch; a branch that extends the tip is not a reorg. -/
def withReorg (s : Stats) (undone : ℕ) : Stats :=
  if undone = 0 then s
  else
    let d := UInt64.ofNat undone
    { s with
      reorgEvents := s.reorgEvents + 1
      blocksUndone := s.blocksUndone + d
      deepestReorg := if d > s.deepestReorg then d else s.deepestReorg }

/-- The counters after a block that the fold refused. -/
def recordRejection (s : Stats) : Stats := { s with blocksRejected := s.blocksRejected + 1 }

/-- The counters in their order on disk. -/
def fields (s : Stats) : List UInt64 :=
  [s.blocksApplied, s.certsApplied, s.certsSkipped, s.certsDropped, s.reorgEvents, s.deepestReorg,
   s.blocksUndone, s.blocksRejected]

/-- The stored form of the counters. -/
def encode (s : Stats) : Bytes := s.fields.flatMap Ssz.uint64

end Stats

/-- Read counters; those that a shorter record does not hold are zero. -/
def decodeStats (raw : Bytes) : Stats :=
  let field := fun i : ℕ =>
    if (i + 1) * 8 > raw.length then 0 else Ssz.readUint64 (raw.drop (i * 8))
  ⟨field 0, field 1, field 2, field 3, field 4, field 5, field 6, field 7⟩

/-! ## Reading the store -/

/-- The header without a value, as Go has it. -/
def zeroHeader : Header := ⟨0, 0, 0, 0, 0, 0, 0, 0, ⟨0, 0, 0⟩, 0, 0⟩

/-- The block without a value. -/
def zeroBlock : Block := ⟨zeroHeader, [], []⟩

/-- A hash from as many bytes as there are. -/
def copyHash (raw : Bytes) : Hash := .ofBytes (raw.takeD 32 0)

/-- Read a header by its id. -/
def headerLocked (live : Live) (id : Hash) : Except ChainError Header :=
  match get live (.header id) with
  | none => .error (.notFound (.header id))
  | some raw => (unmarshalHeader raw).mapError fun e => .localFault (.undecodable (.header id) e)

/-- A stored block with its bodies. -/
def blockLocked (p : Params) (live : Live) (id : Hash) : Except ChainError Block :=
  match get live (.block id) with
  | none => .error (.notFound (.block id))
  | some raw => (unmarshalBlock raw p).mapError fun e => .localFault (.undecodable (.block id) e)

/-- The block id committed at a height. -/
def canonicalIDAt (live : Live) (height : UInt64) : Option Hash :=
  (get live (.index height)).map copyHash

/-- The header of the canonical block at a height. -/
def canonicalHeaderAt (live : Live) (height : UInt64) : Except ChainError Header :=
  match canonicalIDAt live height with
  | none => .error (.notFound (.index height))
  | some id => headerLocked live id

/-- The numbers from one height to another, both included. -/
def heightsUpTo (first last : UInt64) : List UInt64 :=
  (List.range' first.toNat (last.toNat + 1 - first.toNat)).map UInt64.ofNat

/-- Up to `n` canonical headers ending at a height, oldest first. A height that cannot be read is
passed over. -/
def headersEndingAtHeight (live : Live) (height : UInt64) (n : ℤ) : List Header :=
  if n ≤ 0 then []
  else
    let start : UInt64 := if (height.toNat : ℤ) ≥ n then height - UInt64.ofNat n.toNat + 1 else 0
    (heightsUpTo start height).filterMap fun h => (canonicalHeaderAt live h).toOption

/-- The accumulated work of the chain up to and including the tip. -/
def totalWork (live : Live) : U256 :=
  match get live (.metadata .work) with
  | some raw => if raw.length = 32 then .fromBytes (.ofBytes raw) else 0
  | none => 0

/-- The highest height whose undo log is already deleted. -/
def undoPrunedThrough (live : Live) : Option UInt64 :=
  match get live (.metadata .undoPruned) with
  | some raw => if raw.length = 8 then some (Ssz.readUint64 raw) else none
  | none => none

/-! ## Staging -/

/-- The state keys that a transition changed. -/
structure Touched where
  cells : List Slot
  spent : List Address
  seen : List Hash

/-- Nothing changed. -/
def Touched.empty : Touched := ⟨[], [], []⟩

/-- Touch what an undo log names. -/
def Touched.record (t : Touched) (log : UndoLog) : Touched where
  cells := t.cells ∪ log.cells.map CellUndo.slot
  spent := t.spent ∪ log.spentAdded
  seen := t.seen ∪ (log.seenAdded ∪ log.seenRemoved.map Prod.fst)

/-- The keys touched. -/
def Touched.keys (t : Touched) : List Key :=
  t.cells.map Key.cell ++ t.spent.map Key.spent ++ t.seen.map Key.seen

/-- The record of a part of the state. -/
def stateRecord (s : State) : Key → Option Bytes
  | .cell slot => if (s.get slot).isZero then none else some (s.get slot).bytes32.bytes
  | .spent addr => if s.isSpent addr then some [1] else none
  | .seen id => (s.seenTTL id).map Ssz.uint64
  | _ => none

/-- Stage the touched parts of the state. -/
def writeState (s : State) (t : Touched) : List Change := t.keys.map fun k => ⟨k, stateRecord s k⟩

/-- The on-disk layout version. -/
def storeVersion : UInt64 := 2

/-- Stage the records of a block. -/
def writeBlock [Crypto] (b : Block) (undo : UndoLog) : List Change :=
  let id := b.header.id
  [⟨.header id, some b.header.marshal⟩, ⟨.block id, some b.marshal⟩,
   ⟨.index b.header.height, some id.bytes⟩, ⟨.undo id, some (encodeUndo undo)⟩]

/-- Stage the removal of a block. -/
def removeBlock (id : Hash) (height : UInt64) : List Change :=
  [⟨.undo id, none⟩, ⟨.block id, none⟩, ⟨.index height, none⟩]

/-- Stage the metadata that names the tip. -/
def writeHead [Crypto] (networkID : Hash) (s : State) (tip : Header) (work : U256) (stats : Stats) :
    List Change :=
  [⟨.metadata .network, some networkID.bytes⟩, ⟨.metadata .version, some (Ssz.uint64 storeVersion)⟩,
   ⟨.metadata .height, some (Ssz.uint64 tip.height)⟩,
   ⟨.metadata .tip, some tip.id.bytes⟩,
   ⟨.metadata .stateRoot, some s.root.bytes⟩,
   ⟨.metadata .work, some work.bytes32.bytes⟩,
   ⟨.metadata .stats, some stats.encode⟩]

/-- The heights with their ids up to the first one that has none. -/
def prunable (idAt : UInt64 → Option Hash) : List UInt64 → List (UInt64 × Hash)
  | [] => []
  | h :: rest =>
    match idAt h with
    | none => []
    | some id => (h, id) :: prunable idAt rest

/-- The first height whose undo log is not deleted yet. -/
def pruneStart (live : Live) : UInt64 :=
  match undoPrunedThrough live with
  | none => 0
  | some through => through + 1

/-- The heights whose undo logs fall behind the horizon when the tip moves to a new height, with
their ids. `pending` names the ids of the heights that the same transaction writes. -/
def fallingBehind (p : Params) (live : Live) (newHeight : UInt64)
    (pending : UInt64 → Option Hash) : List (UInt64 × Hash) :=
  if newHeight ≤ p.undoDepth then []
  else
    let horizon := newHeight - p.undoDepth - 1
    if pruneStart live > horizon then []
    else
      prunable (fun h => (pending h).or (canonicalIDAt live h))
        (heightsUpTo (pruneStart live) horizon)

/-- Stage the deletion of the undo logs that fall behind the horizon, and the bookmark. -/
def pruneUndo (p : Params) (live : Live) (newHeight : UInt64) (pending : UInt64 → Option Hash) :
    List Change :=
  let found := fallingBehind p live newHeight pending
  found.map (fun e => ⟨.undo e.2, none⟩) ++
    (found.getLast?.map fun e => ⟨.metadata .undoPruned, some (Ssz.uint64 e.1)⟩).toList

/-- A commit on the open store. It is refused when a record cannot be encoded, and it fails when a
write or a barrier does: either way the view in memory stays. What a failed commit leaves in the
files is `Storage.Session.FailsIn`. -/
def commitStore (lands : Bool) (m : Storage.Memory) (call : Storage.Call) :
    Except ChainError Storage.Memory :=
  if lands then
    match m.plan call with
    | .error e => .error (.storage e)
    | .ok (_, m') => .ok m'
  else .error .commitFailed

end Chain

/-! ## The chain -/

/-- A persisted chain and the state in memory. -/
structure Chain where
  state : State
  height : UInt64
  tip : Header
  stats : Chain.Stats
  networkID : Hash
  store : Storage.Memory

namespace Chain

variable [Crypto]

/-- Everything one block changes. -/
def commitChanges (p : Params) (c : Chain) (b : Block) (res : Fold.Result) : List Change :=
  writeState c.state (Touched.empty.record res.undo) ++ writeBlock b res.undo ++
    pruneUndo p c.store.live b.header.height (fun _ => none) ++
    writeHead c.networkID c.state b.header
      ((totalWork c.store.live).satAdd (blockWork b.header.target)) (c.stats.withBlock res)

/-- Write everything one block changed, and move the tip. -/
def commit (p : Params) (lands : Bool) (c : Chain) (b : Block) (res : Fold.Result) :
    Except ChainError Chain := do
  let store ← commitStore lands c.store (.commit (batchOf (commitChanges p c b res)))
  return { c with store, height := b.header.height, tip := b.header }

/-- Fold a block onto the tip and commit it. -/
def apply (p : Params) (lands : Bool) (c : Chain) (b : Block) :
    Except ChainError Fold.Result × Chain :=
  if b.header.height ≠ c.height + 1 ∨ b.header.parentID ≠ c.tip.id then
    (.error (.wrongParent b.header.height b.header.parentID c.height c.tip.id), c)
  else
    match Fold.applyBlock c.state b p with
    | (.error e, s) => (.error (.fold e), { c with state := s, stats := c.stats.recordRejection })
    | (.ok res, s) =>
      match commit p lands { c with state := s } b res with
      | .error e => (.error (.localFault e), { c with state := Fold.undoBlock s res.undo })
      | .ok c' => (.ok res, { c' with stats := c.stats.withBlock res })

/-! ## Rolling back -/

/-- The state keys of a rollback: the cells at the value they have now, the rest from the log. -/
def rollbackState (s : State) (undo : UndoLog) : List Change :=
  undo.cells.map (fun e => ⟨.cell e.slot, stateRecord s (.cell e.slot)⟩) ++
    undo.spentAdded.map (fun addr => ⟨.spent addr, none⟩) ++
    undo.seenAdded.map (fun id => ⟨.seen id, none⟩) ++
    undo.seenRemoved.map (fun e => ⟨.seen e.1, some (Ssz.uint64 e.2)⟩)

/-- The metadata of a rollback. The network and the version stay, and so do the counters. -/
def rollbackHead (c : Chain) (s : State) (parent : Header) : List Change :=
  [⟨.metadata .height, some (Ssz.uint64 parent.height)⟩,
   ⟨.metadata .tip, some c.tip.parentID.bytes⟩,
   ⟨.metadata .stateRoot, some s.root.bytes⟩,
   ⟨.metadata .work, some ((totalWork c.store.live).satSub (blockWork c.tip.target)).bytes32.bytes⟩]

/-- What a rollback stages. -/
def rollbackChanges (c : Chain) (s : State) (undo : UndoLog) (parent : Header) : List Change :=
  rollbackState s undo ++ removeBlock c.tip.id c.height ++ rollbackHead c s parent

/-- The undo log of the tip and the header of its parent. -/
def rollbackReads (c : Chain) : Except ChainError (UndoLog × Header) := do
  rejectIf (c.height = 0) .rollbackGenesis
  let raw ← (get c.store.live (.undo c.tip.id)).elim (.error .undoUnavailable) .ok
  let undo ← decodeUndo raw
  let parent ← headerLocked c.store.live c.tip.parentID
  return (undo, parent)

/-- Read a block that has to be there; a failure reads as no block. -/
def mustBlock (p : Params) (live : Live) (id : Hash) : Block :=
  match blockLocked p live id with
  | .ok b => b
  | .error _ => zeroBlock

/-- Undo the tip block, restoring state and storage together. -/
def rollback (p : Params) (lands : Bool) (c : Chain) : Except ChainError Unit × Chain :=
  match c.rollbackReads with
  | .error e => (.error e, c)
  | .ok (undo, parent) =>
    let s := Fold.undoBlock c.state undo
    match commitStore lands c.store (.commit (batchOf (c.rollbackChanges s undo parent))) with
    | .ok store => (.ok (), { c with state := s, store, height := parent.height, tip := parent })
    | .error e =>
      -- memory moved and disk did not; put memory back
      match Fold.applyBlock s (mustBlock p c.store.live c.tip.id) p with
      | (.ok _, s') => (.error e, { c with state := s' })
      | (.error _, s') => (.error (.notUndone e), { c with state := s' })

/-! ## Opening -/

/-- The records under a prefix: what follows the prefix in their keys, and their values. -/
def scanPrefix (live : Live) (letter : UInt8) : List (Bytes × Bytes) :=
  (live.entries.filter fun e => e.1.take 2 = Key.tag letter).map fun e => (e.1.drop 2, e.2)

/-- Put one stored cell into a state. -/
def loadCell (s : State) (record : Bytes × Bytes) : Except ChainError State := do
  rejectIf (record.1.length ≠ 64) (.corruptState (.cellKey record.1.length))
  rejectIf (record.2.length ≠ 32) (.corruptState (.cellValue record.2.length))
  return s.set ⟨.ofBytes (record.1.extract 0 32), .ofBytes (record.1.extract 32 64)⟩
    (.fromBytes (.ofBytes record.2))

/-- Put one stored burned address into a state. -/
def loadSpent (s : State) (record : Bytes × Bytes) : Except ChainError State := do
  rejectIf (record.1.length ≠ 32) (.corruptState (.spentKey record.1.length))
  return s.markSpent (.ofBytes record.1)

/-- Put one stored certificate id into a state. -/
def loadSeen (s : State) (record : Bytes × Bytes) : Except ChainError State := do
  rejectIf (record.1.length ≠ 32) (.corruptState (.seenKey record.1.length))
  rejectIf (record.2.length ≠ 8) (.corruptState (.seenTTL record.2.length))
  return s.markSeen (.ofBytes record.1) (Ssz.readUint64 record.2)

/-- The state that the records of a store describe. -/
def loadState (live : Live) : Except ChainError State := do
  let s ← (scanPrefix live 0x63).foldlM loadCell State.new
  let s ← (scanPrefix live 0x73).foldlM loadSpent s
  (scanPrefix live 0x6e).foldlM loadSeen s

/-- Rebuild a chain from its store and verify it. -/
def load (p : Params) (networkID : Hash) (store : Storage.Memory) : Except ChainError Chain := do
  let live := store.live
  let state ← loadState live
  let rawHeight ← (get live (.metadata .height)).elim (.error (.corruptState .noHeight)) .ok
  rejectIf (rawHeight.length ≠ 8) (.corruptState .noHeight)
  let height := Ssz.readUint64 rawHeight
  let rawTip ← (get live (.metadata .tip)).elim (.error (.corruptState .noTip)) .ok
  let tip ← headerLocked live (copyHash rawTip)
  let stats := ((get live (.metadata .stats)).map decodeStats).getD .zero
  let rawRoot ← (get live (.metadata .stateRoot)).elim (.error (.corruptState .noStateRoot)) .ok
  rejectIf (rawRoot.length ≠ 32) (.corruptState .noStateRoot)
  let want := copyHash rawRoot
  rejectIf (state.root ≠ want) (.corruptState (.root state.root want))
  -- on an epoch boundary the header carries a root that consensus has verified
  rejectIf (p.isEpochBoundary height = true ∧ tip.stateRoot ≠ want)
    (.corruptState (.headerRoot tip.stateRoot want))
  return { state, height, tip, stats, networkID, store }

/-- The genesis header of a parameter set, before its state root. Its parent is the root of the
parameters. -/
def genesisHeader (p : Params) : Header where
  version := headerVersion
  height := 0
  parentID := p.consensusRoot
  time := p.genesisTime
  certRoot := zeroBlock.computeCertRoot p
  citesRoot := zeroBlock.computeCitesRoot p
  stateRoot := 0
  emissionAddr := 0
  pow := ⟨0, 0, 0⟩
  target := p.genesisTarget
  powHash := 0

/-- Build block 0: the root is sealed on a copy of the state, and the block must then apply. -/
def buildGenesis (p : Params) : Except ChainError Block := do
  let b : Block := ⟨genesisHeader p, [], []⟩
  let sealed ← (Fold.apply State.new b p false).1.mapError ChainError.fold
  let b : Block := { b with header := { b.header with stateRoot := sealed.stateRoot } }
  let _ ← (Fold.applyBlock State.new b p).1.mapError ChainError.fold
  return b

/-- Apply and commit the genesis block. -/
def initGenesis (p : Params) (lands : Bool) (c : Chain) (b : Block) : Except ChainError Chain :=
  match Fold.applyBlock c.state b p with
  | (.error e, _) => .error (.fold e)
  | (.ok res, s) => commit p lands { c with state := s } b res

/-- Load a chain from its store, folding genesis if the store is empty. -/
def openWith (p : Params) (lands : Bool) (store : Storage.Memory) : Except ChainError Chain := do
  let genesis ← buildGenesis p
  let networkID := genesis.header.id
  let fresh : Chain := ⟨State.new, 0, zeroHeader, .zero, networkID, store⟩
  rejectIf (∃ raw ∈ get store.live (.metadata .version),
    raw.length ≠ 8 ∨ Ssz.readUint64 raw ≠ storeVersion) .wrongVersion
  match get store.live (.metadata .network) with
  | some raw => do
      rejectIf (copyHash raw ≠ networkID) (.wrongNetwork (copyHash raw) networkID)
      load p networkID store
  | none => initGenesis p lands fresh genesis

end Chain

end Zycord
