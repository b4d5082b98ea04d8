import Zycord.Core.Slots
import Zycord.Lib.FinMap

/-!
# The consensus state

The state the fold works on (`core/state`): the cells, the registry of burned addresses and the
set of certificate ids seen, with the undo log that restores a state exactly. The root is the
from-scratch definition; `Zycord.Core.RootCache` adds the source's root cache and the rebuilding
of its maps, and shows that they compute the same.
-/

namespace Zycord

/-- The consensus state. A cell that holds zero has no entry. -/
structure State where
  cells : FinFun Slot U256
  spent : FinMap Address Unit
  seen : FinMap Hash UInt64

/-- One cell as it was before a write. -/
structure CellUndo where
  slot : Slot
  old : U256
deriving DecidableEq

/-- Everything needed to reverse the application of a block. -/
structure UndoLog where
  cells : List CellUndo
  spentAdded : List Address
  seenAdded : List Hash
  seenRemoved : List (Hash × UInt64)
deriving DecidableEq

/-- The log that reverses nothing. -/
def UndoLog.empty : UndoLog := ⟨[], [], [], []⟩

namespace State

@[ext] theorem ext {s t : State} (hc : s.cells = t.cells) (hp : s.spent = t.spent)
    (hn : s.seen = t.seen) : s = t := by
  cases s; cases t; simp_all

/-- The state before genesis. -/
def new : State := ⟨FinFun.empty, FinMap.empty, FinMap.empty⟩

/-- Read a cell; what is not there is zero. -/
def get (s : State) (slot : Slot) : U256 := s.cells.get slot

/-- Write a cell; writing zero deletes it. -/
def set (s : State) (slot : Slot) (v : U256) : State := { s with cells := s.cells.set slot v }

/-- Whether an address is burned. -/
def isSpent (s : State) (a : Address) : Bool := s.spent.contains a

/-- Burn an address. -/
def markSpent (s : State) (a : Address) : State := { s with spent := s.spent.insert a () }

/-- The TTL under which an id was seen. -/
def seenTTL (s : State) (id : Hash) : Option UInt64 := s.seen.find? id

/-- Record an id. -/
def markSeen (s : State) (id : Hash) (ttl : UInt64) : State :=
  { s with seen := s.seen.insert id ttl }

/-- The ids whose TTL has passed. -/
def expired (s : State) (below : UInt64) : List (Hash × UInt64) :=
  (s.seen.filter fun _ ttl => ttl < below).entries

theorem sorted_expired (s : State) (below : UInt64) : FinMap.Sorted (s.expired below) :=
  (s.seen.filter _).sorted

/-- Drop the ids that expire below a height. -/
def pruneSeen (s : State) (below : UInt64) : State :=
  { s with seen := s.seen.filter fun _ ttl => !(ttl < below) }

/-- Write the old values back, the newest first. -/
def undoCells (cells : FinFun Slot U256) (log : List CellUndo) : FinFun Slot U256 :=
  log.reverse.foldl (fun m e => m.set e.slot e.old) cells

/-- Reverse everything a log records. -/
def undo (s : State) (log : UndoLog) : State where
  cells := undoCells s.cells log.cells
  spent := s.spent.eraseAll log.spentAdded
  seen := (s.seen.eraseAll log.seenAdded).insertAll log.seenRemoved

/-! ## The state root -/

/-- The smallest power of two that is at least `n`: the loop `for p < n`. -/
def nextPow2 (n : ℕ) : ℕ := 2 ^ Ssz.depthLoop n 63 0

/-- The leaf of a cell. -/
def cellLeaf [Crypto] (slot : Slot) (v : U256) : Hash :=
  Crypto.sum .stateCell (slot.addr.bytes ++ slot.word.bytes ++ v.bytes32.bytes)

/-- The leaf of a burned address. -/
def spentLeaf [Crypto] (a : Address) : Hash := Crypto.sum .stateSpent a.bytes

/-- The root over both lists of leaves. -/
def rootOf [Crypto] (cellLeaves spentLeaves : List Hash) : Hash :=
  Crypto.sum .stateRoot
    ((Ssz.listRoot cellLeaves (nextPow2 cellLeaves.length)).bytes ++
      (Ssz.listRoot spentLeaves (nextPow2 spentLeaves.length)).bytes)

/-- The epoch state root. The seen set is not part of it. -/
def root [Crypto] (s : State) : Hash :=
  rootOf (s.cells.entries.map fun e => cellLeaf e.1 e.2)
    (s.spent.entries.map fun e => spentLeaf e.1)

/-! ## Reading after writing -/

variable (s : State)

theorem get_set (slot slot' : Slot) (v : U256) :
    (s.set slot v).get slot' = if slot = slot' then v else s.get slot' :=
  s.cells.get_set slot slot' v

@[simp] theorem get_set_self (slot : Slot) (v : U256) : (s.set slot v).get slot = v :=
  s.cells.get_set_self slot v

theorem get_set_of_ne {slot slot' : Slot} (v : U256) (h : slot ≠ slot') :
    (s.set slot v).get slot' = s.get slot' := s.cells.get_set_of_ne v h

@[simp] theorem set_get (slot : Slot) : s.set slot (s.get slot) = s :=
  State.ext (s.cells.set_get slot) rfl rfl

variable (id : Hash) (ttl : UInt64) (slot : Slot) (v : U256) (a : Address)

@[simp] theorem spent_set : (s.set slot v).spent = s.spent := rfl

@[simp] theorem seen_set : (s.set slot v).seen = s.seen := rfl

@[simp] theorem get_mark_spent (slot : Slot) : (s.markSpent a).get slot = s.get slot := rfl

theorem is_spent_mark_spent (a' : Address) :
    (s.markSpent a).isSpent a' = (decide (a = a') || s.isSpent a') :=
  s.spent.contains_insert a a' ()

@[simp] theorem is_spent_set : (s.set slot v).isSpent a = s.isSpent a := rfl

@[simp] theorem get_mark_seen : (s.markSeen id ttl).get slot = s.get slot := rfl

@[simp] theorem is_spent_mark_seen : (s.markSeen id ttl).isSpent a = s.isSpent a := rfl

theorem seen_ttl_mark_seen (id' : Hash) (ttl : UInt64) :
    (s.markSeen id ttl).seenTTL id' = if id = id' then some ttl else s.seenTTL id' :=
  s.seen.find_insert id id' ttl

@[simp] theorem seen_ttl_set (id : Hash) : (s.set slot v).seenTTL id = s.seenTTL id := rfl

@[simp] theorem seen_ttl_mark_spent (id : Hash) : (s.markSpent a).seenTTL id = s.seenTTL id := rfl

theorem seen_ttl_prune_seen (below : UInt64) (id : Hash) :
    (s.pruneSeen below).seenTTL id = (s.seenTTL id).filter fun ttl => !decide (ttl < below) :=
  s.seen.find_filter _ id

@[simp] theorem get_new : new.get slot = 0 := rfl

end State

end Zycord
