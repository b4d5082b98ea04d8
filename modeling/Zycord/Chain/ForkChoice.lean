import Zycord.Chain.Store
import Zycord.Fold.Undo

/-!
# Fork choice

The greatest accumulated work wins (`node/chain/forkchoice.go`). `considerBranch` judges a branch
and `switchTo` performs the reorganisation: it unwinds to the common ancestor in memory, applies
the branch in memory, and commits the outcome as one transaction. Whatever fails, `restore` puts
memory back by undoing what was applied and applying again what was unwound.
-/

namespace Zycord.Chain

open Storage (Live Batch Mutation)

/-! ## Parts of a transaction -/

/-- How large a part of a transaction may grow. -/
def mutationBudget : ℕ := Storage.maxRecordLen * 3 / 4

/-- Distribute mutations over parts: a new part starts where the current one would grow past the
budget. -/
def groupParts : Batch → ℕ → List Mutation → List Batch
  | current, _, [] => [current]
  | current, size, m :: rest =>
    if current ≠ [] ∧ size + m.size > mutationBudget then current :: groupParts [m] m.size rest
    else groupParts (current ++ [m]) (size + m.size) rest

/-- The parts into which a batch is split. -/
def batchGroup (b : Batch) : List Batch := groupParts [] 0 b

/-! ## Branches -/

/-- What a branch switch did: whether the branch was adopted, and the blocks that were removed. -/
structure Reorg where
  adopted : Bool
  undone : List Block
deriving DecidableEq

/-- The width of the window that the difficulty rule reads, as the source computes it. -/
def windowWidth (p : Params) : ℤ := (p.difficultyWindow.toInt64 + 1).toInt

/-- Move the difficulty window on by a header. -/
def slideWindow (p : Params) (window : List Header) (h : Header) : Option (List Header) :=
  let window := window ++ [h]
  if (window.length : ℤ) > windowWidth p then Pow.sliceFrom window (window.length - windowWidth p)
  else some window

/-- Re-derive the target and the median time of every block of a branch, the first of them with
index `i`, against the window it would have been mined under. -/
def validateDifficulty (p : Params) : ℕ → List Header → List Block → Except ChainError Unit
  | _, _, [] => .ok ()
  | i, window, b :: rest => do
      let want ← (Pow.nextTarget window p).elim (.error .panics) .ok
      rejectIf (b.header.target ≠ want) (.forgedTarget i b.header.target want)
      let late ← (Pow.checkMedianTime b.header window p).elim (.error .panics) .ok
      rejectIf (late = false) (.badTime i)
      let window ← (slideWindow p window b.header).elim (.error .panics) .ok
      validateDifficulty p (i + 1) window rest

/-- The headers of blocks. -/
def headers (blocks : List Block) : List Header := blocks.map Block.header

/-- What unwinding has reached: the state, the blocks removed so far, their work, the keys they
touched, and the header it stands at. -/
structure Unwound where
  state : State
  undone : List Block
  work : U256
  touched : Touched
  cursor : Header

variable [Crypto]

/-- Every block of a branch names the one before it as its parent, at the next height. `i` is the
index of the first block of the list. -/
def checkLinks : ℕ → Header → List Block → Except ChainError Unit
  | _, _, [] => .ok ()
  | i, prev, b :: rest => do
      rejectIf (b.header.parentID ≠ prev.id) (.unlinked i)
      rejectIf (b.header.height ≠ prev.height + 1) (.misHeighted i b.header.height prev.height)
      checkLinks (i + 1) b.header rest

/-- How many blocks separate the tip from an ancestor. -/
def depthOf (c : Chain) (ancestor : Hash) : Except ChainError UInt64 :=
  if ancestor = c.tip.id then .ok 0
  else
    match headerLocked c.store.live ancestor with
    | .error _ => .error .unknownAncestor
    | .ok hdr =>
      if hdr.height > c.height then .error .unknownAncestor
      else if canonicalIDAt c.store.live hdr.height ≠ some ancestor then .error .unknownAncestor
      else .ok (c.height - hdr.height)

/-- The work of the blocks after an ancestor, up to the tip. -/
def workSince (c : Chain) (ancestor : Hash) : Except ChainError U256 :=
  match headerLocked c.store.live ancestor with
  | .error _ => .error .unknownAncestor
  | .ok hdr => do
      let above ← (heightsUpTo (hdr.height + 1) c.height).mapM (canonicalHeaderAt c.store.live)
      return sumWork above

/-- Re-derive what the headers of a branch declare, from the window that ends at its ancestor. -/
def validateBranchDifficulty (p : Params) (c : Chain) (ancestor : Hash) (br : List Block) :
    Except ChainError Unit :=
  match headerLocked c.store.live ancestor with
  | .error _ => .error .unknownAncestor
  | .ok hdr =>
    validateDifficulty p 0 (headersEndingAtHeight c.store.live hdr.height (windowWidth p)) br

/-! ## Switching -/

/-- Why an undo log that is needed is not there: deleted on purpose, or lost. -/
def missingUndoCause (live : Live) (h : UInt64) : ChainError :=
  match undoPrunedThrough live with
  | some through => if h ≤ through then .prunedUndoHorizon else .undoUnavailable
  | none => .undoUnavailable

/-- The body and the undo log of the block at the cursor. -/
def readUnwind (p : Params) (live : Live) (cursor : Header) :
    Except ChainError (Block × UndoLog) := do
  let blk ← blockLocked p live cursor.id
  let raw ← (get live (.undo cursor.id)).elim (.error (missingUndoCause live cursor.height)) .ok
  let log ← decodeUndo raw
  return (blk, log)

/-- One block less. -/
def Unwound.undo (u : Unwound) (blk : Block) (log : UndoLog) : Unwound where
  state := Fold.undoBlock u.state log
  undone := u.undone ++ [blk]
  work := u.work.satAdd (blockWork u.cursor.target)
  touched := u.touched.record log
  cursor := u.cursor

/-- Unwind in memory to an ancestor. A failure carries what was unwound before it. -/
def unwind (p : Params) (live : Live) (ancestor : Hash) :
    ℕ → Unwound → Except (ChainError × Unwound) Unwound
  | fuel, u =>
    if u.cursor.id = ancestor then .ok u
    else
      match fuel with
      | 0 => .error (.stalled, u)
      | fuel + 1 =>
        match readUnwind p live u.cursor with
        | .error e => .error (e, u)
        | .ok (blk, log) =>
          match headerLocked live u.cursor.parentID with
          | .error e => .error (e, u.undo blk log)
          | .ok parent => unwind p live ancestor fuel { u.undo blk log with cursor := parent }

/-- Apply blocks in memory until one is refused: the results, the refusal if there is one, and the
state reached. -/
def applyBranch (p : Params) : State → List Block → List Fold.Result × Option Fold.FoldError × State
  | s, [] => ([], none, s)
  | s, b :: rest =>
    match Fold.applyBlock s b p with
    | (.error e, s') => ([], some e, s')
    | (.ok res, s') =>
      let (applied, refused, final) := applyBranch p s' rest
      (res :: applied, refused, final)

/-- Apply again what was unwound, the lowest block first. -/
def redo (p : Params) : State → List Block → Option Fold.FoldError × State
  | s, [] => (none, s)
  | s, b :: rest =>
    match Fold.applyBlock s b p with
    | (.error e, s') => (some e, s')
    | (.ok _, s') => redo p s' rest

/-- Put memory back after a failure that has written nothing. -/
def restore (p : Params) (s : State) (undone : List Block) (applied : List Fold.Result) :
    Option Fold.FoldError × State :=
  redo p (Fold.undoBlocks s (applied.reverse.map Fold.Result.undo)) undone.reverse

/-- Report a failure of a switch after putting memory back. `moved` is the chain in memory when it
failed; its tip stays where it is if memory cannot be put back. -/
def restored (p : Params) (c moved : Chain) (undone : List Block) (applied : List Fold.Result)
    (cause : ChainError) : Except ChainError Reorg × Chain :=
  match restore p moved.state undone applied with
  | (none, s) => (.error cause, { c with state := s })
  | (some e, s) => (.error (.localFault (.notUndone (.fold e))), { moved with state := s })

/-- The ids that a branch will give to its heights. -/
def pendingIDs (br : List Block) : UInt64 → Option Hash :=
  br.foldl (fun pending b => Function.update pending b.header.height (some b.header.id))
    fun _ => none

/-- Everything a branch switch changes. -/
def switchChanges (p : Params) (c : Chain) (u : Unwound) (br : List Block)
    (applied : List Fold.Result) (s : State) (tip : Header) (stats : Stats) : List Change :=
  writeState s (applied.foldl (fun t res => t.record res.undo) u.touched) ++
    u.undone.flatMap (fun b => removeBlock b.header.id b.header.height) ++
    (br.zip applied).flatMap (fun e => writeBlock e.1 e.2.undo) ++
    pruneUndo p c.store.live tip.height (pendingIDs br) ++
    writeHead c.networkID s tip
      (((totalWork c.store.live).satSub u.work).satAdd (sumWork (headers br))) stats

/-- The chain in memory at another tip. -/
def moveTip (c : Chain) (s : State) (tip : Header) : Chain :=
  { c with state := s, tip, height := tip.height }

/-- Unwind to the ancestor, apply the branch, and commit the outcome as one transaction. -/
def switchTo (p : Params) (lands : Bool) (c : Chain) (ancestor : Hash) (br : List Block) :
    Except ChainError Reorg × Chain :=
  match unwind p c.store.live ancestor (c.height.toNat + 1) ⟨c.state, [], 0, .empty, c.tip⟩ with
  | .error (cause, u) => restored p c { c with state := u.state } u.undone [] (.localFault cause)
  | .ok u =>
    let (applied, refused, s) := applyBranch p u.state br
    let tip := ((headers (br.take applied.length)).getLast?).getD u.cursor
    let moved := moveTip c s tip
    match refused with
    | some e =>
      restored p { c with stats := c.stats.recordRejection } moved u.undone applied
        (.invalidBranchBlock applied.length e)
    | none =>
      let next := applied.foldl Stats.withBlock (c.stats.withReorg u.undone.length)
      let changes := switchChanges p c u br applied s tip next
      match commitStore lands c.store (.commitGroup (batchGroup (batchOf changes))) with
      | .ok store => (.ok ⟨true, u.undone⟩, { moved with store, stats := next })
      | .error e => restored p c moved u.undone applied (.localFault e)

/-- What a branch has to pass before it is switched to: it attaches within the undo horizon, it is
a chain, its headers obey the rules, and it outweighs what it would replace. -/
def judgeBranch (p : Params) (c : Chain) (first : Block) (br : List Block) :
    Except ChainError Unit := do
  let ancestor := first.header.parentID
  let depth ← depthOf c ancestor
  rejectIf (depth = 0 ∧ ancestor ≠ c.tip.id) .unknownAncestor
  rejectIf (depth > p.undoDepth) (.beyondUndoHorizon depth p.undoDepth)
  let ancestorHeight := c.height - depth
  rejectIf (first.header.height ≠ ancestorHeight + 1)
    (.firstHeight first.header.height ancestor ancestorHeight)
  checkLinks 1 first.header br.tail
  validateBranchDifficulty p c ancestor br
  let replaced ← workSince c ancestor
  rejectIf (¬ sumWork (headers br) > replaced) .notBetter

/-- Apply a branch if it beats the current tip on accumulated work. -/
def considerBranch (p : Params) (lands : Bool) (c : Chain) (br : List Block) :
    Except ChainError Reorg × Chain :=
  match br with
  | [] => (.ok ⟨false, []⟩, c)
  | first :: _ =>
    match judgeBranch p c first br with
    | .error e => (.error e, c)
    | .ok () => switchTo p lands c first.header.parentID br

end Zycord.Chain
