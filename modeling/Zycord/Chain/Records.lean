import Zycord.Core.Decode
import Zycord.Fold.BlockRules
import Zycord.Storage.Store

/-!
# The records of a chain

The keys under which package `node/chain` keeps a chain in its store, the encodings of the values
it keeps there, and the errors it reports. Every kind of record has a key prefix of its own and
keys are encoded injectively (`Key.bytes_injective`), so a list of changes is read key by key
(`get_apply_changes`). An undo log that was written is read back (`decode_encode_undo`).
-/

namespace Zycord.Chain

open List
open Storage (Live Batch Mutation applyBatch)

/-! ## Keys -/

/-- The fixed metadata keys. -/
inductive MetaKey where
  | network | height | tip | stateRoot | work | version | stats | undoPruned
deriving DecidableEq

/-- The text behind the metadata prefix. -/
def MetaKey.name : MetaKey → String
  | network => "network"
  | height => "height"
  | tip => "tip"
  | stateRoot => "stateroot"
  | work => "work"
  | version => "version"
  | stats => "stats"
  | undoPruned => "undopruned"

/-- What a record is kept under: a slot, an address, a certificate id, a block id or a height. -/
inductive Key where
  | cell (slot : Slot)
  | spent (addr : Address)
  | seen (id : Hash)
  | header (id : Hash)
  | block (id : Hash)
  | index (height : UInt64)
  | undo (id : Hash)
  | metadata (key : MetaKey)
deriving DecidableEq

namespace Key

/-- The first byte of a key. -/
def letter : Key → UInt8
  | cell _ => 0x63
  | spent _ => 0x73
  | seen _ => 0x6e
  | header _ => 0x68
  | block _ => 0x62
  | index _ => 0x69
  | undo _ => 0x75
  | metadata _ => 0x6d

/-- What follows the prefix. A height is big-endian, so that a scan is in height order. -/
def body : Key → Bytes
  | cell slot => slot.marshal
  | spent addr => addr.bytes
  | seen id => id.bytes
  | header id => id.bytes
  | block id => id.bytes
  | index height => (Ssz.uint64 height).reverse
  | undo id => id.bytes
  | metadata key => textBytes key.name

/-- The prefix of a kind of record: its letter and a slash. -/
def tag (letter : UInt8) : Bytes := [letter, 0x2f]

/-- A key as the store has it. -/
def bytes (k : Key) : Bytes := tag k.letter ++ k.body

-- the prefixes of the source
example : tag 0x63 = textBytes "c/" ∧ tag 0x73 = textBytes "s/" ∧ tag 0x6e = textBytes "n/" ∧
    tag 0x68 = textBytes "h/" ∧ tag 0x62 = textBytes "b/" ∧ tag 0x69 = textBytes "i/" ∧
    tag 0x75 = textBytes "u/" ∧ tag 0x6d = textBytes "m/" := by decide

theorem name_injective {a b : MetaKey} (h : textBytes a.name = textBytes b.name) : a = b := by
  revert h
  cases a <;> cases b <;> decide

theorem uint64_injective {a b : UInt64} (h : Ssz.uint64 a = Ssz.uint64 b) : a = b := by
  rw [← Ssz.read_uint64_uint64 a, h, Ssz.read_uint64_uint64]

theorem marshal_injective {a b : Slot} (h : a.marshal = b.marshal) : a = b := by
  have ha := unmarshal_slot_eq_ok.mpr (rfl : a.marshal = a.marshal)
  rw [h] at ha
  exact Except.ok.inj (ha.symm.trans (unmarshal_slot_eq_ok.mpr rfl))

/-- Different records are kept under different keys. -/
theorem bytes_injective : Function.Injective bytes := by
  intro k k' h
  obtain ⟨hletter, hbody⟩ : k.letter = k'.letter ∧ k.body = k'.body := by
    simpa [bytes, tag] using h
  cases k <;> cases k' <;> simp only [letter] at hletter <;> first
    | exact absurd hletter (by decide)
    | exact congrArg _ (Bytes32.bytes_injective hbody)
    | exact congrArg _ (marshal_injective hbody)
    | exact congrArg _ (uint64_injective (reverse_injective hbody))
    | exact congrArg _ (name_injective hbody)

end Key

/-! ## Changes -/

/-- Read a record. -/
def get (live : Live) (k : Key) : Option Bytes := live.find? k.bytes

/-- A change of a batch: a put, or a delete where there is no value. -/
structure Change where
  key : Key
  value : Option Bytes

/-- A change as the store takes it. -/
def Change.mutation : Change → Mutation
  | ⟨key, some v⟩ => .put key.bytes v
  | ⟨key, none⟩ => .delete key.bytes

/-- Staged changes as a batch. -/
def batchOf (changes : List Change) : Batch := changes.map Change.mutation

/-- What the last change to a key leaves under it. -/
def lastChange (k : Key) : List Change → Option (Option Bytes)
  | [] => none
  | c :: rest => (lastChange k rest).or (if c.key = k then some c.value else none)

/-- A changed key holds what its last change gives it; every other key is untouched. -/
theorem get_apply_changes (live : Live) (changes : List Change) (k : Key) :
    get (applyBatch live (batchOf changes)) k = (lastChange k changes).getD (get live k) := by
  unfold get applyBatch batchOf
  induction changes generalizing live with
  | nil => rfl
  | cons c rest ih =>
    obtain ⟨key, value⟩ := c
    rw [map_cons, foldl_cons, ih, lastChange]
    have hkey : (key.bytes = k.bytes) = (key = k) := propext Key.bytes_injective.eq_iff
    cases value with
    | some v =>
      simp only [Change.mutation, Mutation.apply, FinMap.find_insert, hkey]
      cases lastChange k rest <;> by_cases hk : key = k <;> simp [hk]
    | none =>
      simp only [Change.mutation, Mutation.apply, FinMap.find_erase, hkey]
      cases lastChange k rest <;> by_cases hk : key = k <;> simp [hk]

theorem last_change_append (k : Key) (cs cs' : List Change) :
    lastChange k (cs ++ cs') = (lastChange k cs').or (lastChange k cs) := by
  induction cs with
  | nil => rw [nil_append, lastChange, Option.or_none]
  | cons c rest ih => rw [cons_append, lastChange, ih, lastChange, Option.or_assoc]

variable {k : Key} {changes : List Change} {v : Option Bytes} {α : Type} {size : ℕ} {raw : Bytes}
  {e : ChainError} {log : UndoLog}

theorem last_change_eq_none : lastChange k changes = none ↔ ∀ c ∈ changes, c.key ≠ k := by
  induction changes with
  | nil => simp [lastChange]
  | cons c rest ih => by_cases hk : c.key = k <;> simp [lastChange, ih, hk]

theorem mem_of_last_change (h : lastChange k changes = some v) : (⟨k, v⟩ : Change) ∈ changes := by
  induction changes with
  | nil => simp [lastChange] at h
  | cons c rest ih =>
    rw [lastChange, Option.or_eq_some_iff] at h
    rcases h with h | ⟨-, h⟩
    · exact mem_cons_of_mem _ (ih h)
    · split at h
      · rename_i hk
        obtain rfl : c.value = v := Option.some.inj h
        subst hk
        exact mem_cons_self
      · simp at h

theorem last_change_of_mem (hmem : ∃ c ∈ changes, c.key = k)
    (hall : ∀ c ∈ changes, c.key = k → c.value = v) : lastChange k changes = some v := by
  cases h : lastChange k changes with
  | none =>
    obtain ⟨c, hc, hk⟩ := hmem
    exact absurd hk (last_change_eq_none.mp h c hc)
  | some w => exact congrArg some (hall _ (mem_of_last_change h) rfl)

theorem last_change_map (xs : List α) (key : α → Key) (value : Key → Option Bytes) (k : Key) :
    lastChange k (xs.map fun a => ⟨key a, value (key a)⟩) =
      if k ∈ xs.map key then some (value k) else none := by
  split_ifs with hmem
  · obtain ⟨a, ha, rfl⟩ := mem_map.mp hmem
    refine last_change_of_mem ⟨_, mem_map_of_mem ha, rfl⟩ fun c hc heq => ?_
    obtain ⟨a', -, rfl⟩ := mem_map.mp hc
    exact congrArg value heq
  · refine last_change_eq_none.mpr fun c hc heq => hmem ?_
    obtain ⟨a, ha, rfl⟩ := mem_map.mp hc
    exact mem_map.mpr ⟨a, ha, heq⟩

/-- The store holds nothing under other keys. -/
def WellKeyed (live : Live) : Prop := ∀ e ∈ live.entries, ∃ k : Key, e.1 = k.bytes

theorem well_keyed_empty : WellKeyed FinMap.empty := by
  intro e he
  simp [FinMap.empty] at he

/-- Changes are made under the keys of records. -/
theorem WellKeyed.apply {live : Live} (h : WellKeyed live) (changes : List Change) :
    WellKeyed (applyBatch live (batchOf changes)) := by
  induction changes generalizing live with
  | nil => exact h
  | cons c rest ih =>
    refine ih ?_
    intro e he
    obtain ⟨key, value⟩ := c
    cases value with
    | some v =>
      rcases FinMap.mem_insert_list he with rfl | he
      · exact ⟨key, rfl⟩
      · exact h e he
    | none => exact h e (mem_of_mem_filter he)

/-! ## Errors -/

/-- How stored state fails its checks on loading. -/
inductive Corruption where
  | cellKey (len : ℕ)
  | cellValue (len : ℕ)
  | spentKey (len : ℕ)
  | seenKey (len : ℕ)
  | seenTTL (len : ℕ)
  | noHeight
  | noTip
  | noStateRoot
  | root (rebuilt committed : Hash)
  | headerRoot (header stored : Hash)
  | truncatedUndo
deriving DecidableEq

/-- What the chain reports. `localFault` marks a failure that is the node's own; `panics` stands for
a panic of the source, and `stalled` for a walk over parents that does not end. -/
inductive ChainError where
  | wrongNetwork (stored build : Hash)
  | wrongVersion
  | corruptState (why : Corruption)
  | localFault (cause : ChainError)
  | notFound (key : Key)
  | undecodable (key : Key) (why : DecodeError)
  | wrongParent (height : UInt64) (parent : Hash) (tipHeight : UInt64) (tip : Hash)
  | undoUnavailable
  | beyondUndoHorizon (depth horizon : UInt64)
  | prunedUndoHorizon
  | notBetter
  | unknownAncestor
  | forgedTarget (i : ℕ) (declared want : U256)
  | badTime (i : ℕ)
  | firstHeight (height : UInt64) (ancestor : Hash) (ancestorHeight : UInt64)
  | unlinked (i : ℕ)
  | misHeighted (i : ℕ) (height previous : UInt64)
  | fold (why : Fold.FoldError)
  | invalidBranchBlock (i : ℕ) (why : Fold.FoldError)
  | rollbackGenesis
  | storage (why : Storage.StoreError)
  | commitFailed
  | notUndone (cause : ChainError)
  | panics
  | stalled
deriving DecidableEq

/-! ## Undo logs -/

/-- The elements of a list behind their number. -/
def encodeCounted {α : Type} (enc : α → Bytes) (xs : List α) : Bytes :=
  Ssz.uint64 (UInt64.ofNat xs.length) ++ xs.flatMap enc

/-- The stored form of an undo log. -/
def encodeUndo (log : UndoLog) : Bytes :=
  encodeCounted (fun c : CellUndo => c.slot.marshal ++ c.old.bytes32.bytes) log.cells ++
    encodeCounted Bytes32.bytes log.spentAdded ++
    encodeCounted Bytes32.bytes log.seenAdded ++
    encodeCounted (fun e : Hash × UInt64 => e.1.bytes ++ Ssz.uint64 e.2) log.seenRemoved

/-- Read elements of a fixed size, one after another. -/
def readElements {α : Type} (size : ℕ) (dec : Bytes → α) :
    ℕ → Bytes → Except ChainError (List α × Bytes)
  | 0, raw => .ok ([], raw)
  | n + 1, raw => do
      rejectIf (raw.length < size) (.corruptState .truncatedUndo)
      let (xs, rest) ← readElements size dec n (raw.drop size)
      return (dec (raw.take size) :: xs, rest)

/-- Read a list with its length in front. -/
def readCounted {α : Type} (size : ℕ) (dec : Bytes → α) (raw : Bytes) :
    Except ChainError (List α × Bytes) := do
  rejectIf (raw.length < 8) (.corruptState .truncatedUndo)
  readElements size dec (Ssz.readUint64 raw).toNat (raw.drop 8)

/-- Read an undo log. What stands behind the last list is ignored. -/
def decodeUndo (raw : Bytes) : Except ChainError UndoLog := do
  let (cells, raw) ← readCounted 96 (fun b =>
    (⟨⟨.ofBytes (b.extract 0 32), .ofBytes (b.extract 32 64)⟩,
      .fromBytes (.ofBytes (b.extract 64 96))⟩ : CellUndo)) raw
  let (spentAdded, raw) ← readCounted 32 Bytes32.ofBytes raw
  let (seenAdded, raw) ← readCounted 32 Bytes32.ofBytes raw
  let (seenRemoved, _) ← readCounted 40 (fun b =>
    (Bytes32.ofBytes (b.extract 0 32), Ssz.readUint64 (b.extract 32 40))) raw
  return ⟨cells, spentAdded, seenAdded, seenRemoved⟩

variable {dec : Bytes → α} {enc : α → Bytes}

theorem read_elements_error {n : ℕ} (h : readElements size dec n raw = .error e) :
    e = .corruptState .truncatedUndo := by
  induction n generalizing raw with
  | zero => cases h
  | succ n ih =>
    simp only [readElements, Except.bind_eq_error, reject_if_eq_error] at h
    rcases h with ⟨-, rfl⟩ | ⟨-, -, hrest | ⟨x, -, hret⟩⟩
    · rfl
    · exact ih hrest
    · cases hret

theorem read_counted_error (h : readCounted size dec raw = .error e) :
    e = .corruptState .truncatedUndo := by
  simp only [readCounted, Except.bind_eq_error, reject_if_eq_error] at h
  rcases h with ⟨-, rfl⟩ | ⟨-, -, hrest⟩
  · rfl
  · exact read_elements_error hrest

theorem decode_undo_error (h : decodeUndo raw = .error e) : e = .corruptState .truncatedUndo := by
  simp only [decodeUndo, Except.bind_eq_error] at h
  rcases h with hread | ⟨_, -, hread | ⟨_, -, hread | ⟨_, -, hread | ⟨_, -, hret⟩⟩⟩⟩
  · exact read_counted_error hread
  · exact read_counted_error hread
  · exact read_counted_error hread
  · exact read_counted_error hread
  · cases hret

theorem read_elements_flat_map (hlen : ∀ x, (enc x).length = size) (hdec : ∀ x, dec (enc x) = x)
    (xs : List α) (rest : Bytes) :
    readElements size dec xs.length (xs.flatMap enc ++ rest) = .ok (xs, rest) := by
  induction xs with
  | nil => rfl
  | cons x xs ih =>
    have hassoc : (x :: xs).flatMap enc ++ rest = enc x ++ (xs.flatMap enc ++ rest) := by simp
    have htake : (enc x ++ (xs.flatMap enc ++ rest)).take size = enc x := take_left' (hlen x)
    have hdrop : (enc x ++ (xs.flatMap enc ++ rest)).drop size = xs.flatMap enc ++ rest :=
      drop_left' (hlen x)
    have hlong : ¬ (enc x ++ (xs.flatMap enc ++ rest)).length < size := by
      rw [length_append, hlen]
      omega
    rw [length_cons, readElements, hassoc, htake, hdrop, ih, hdec, rejectIf, if_neg hlong]
    rfl

theorem read_encode_counted (hlen : ∀ x, (enc x).length = size) (hdec : ∀ x, dec (enc x) = x)
    {xs : List α} (hxs : xs.length < 2 ^ 64) (rest : Bytes) :
    readCounted size dec (encodeCounted enc xs ++ rest) = .ok (xs, rest) := by
  have hassoc : encodeCounted enc xs ++ rest =
      Ssz.uint64 (UInt64.ofNat xs.length) ++ (xs.flatMap enc ++ rest) := by
    rw [encodeCounted, append_assoc]
  have hcount : (Ssz.readUint64 (encodeCounted enc xs ++ rest)).toNat = xs.length := by
    rw [hassoc, Storage.read_uint64_append]
    exact UInt64.toNat_ofNat_of_lt' hxs
  rw [readCounted, hcount]
  exact read_elements_flat_map hlen hdec xs rest

/-- The lists of a log are short enough for their length fields. -/
def Fits (log : UndoLog) : Prop :=
  log.cells.length < 2 ^ 64 ∧ log.spentAdded.length < 2 ^ 64 ∧ log.seenAdded.length < 2 ^ 64 ∧
    log.seenRemoved.length < 2 ^ 64

theorem read_cell_undo (c : CellUndo) :
    (⟨⟨.ofBytes ((c.slot.marshal ++ c.old.bytes32.bytes).extract 0 32),
        .ofBytes ((c.slot.marshal ++ c.old.bytes32.bytes).extract 32 64)⟩,
      .fromBytes (.ofBytes ((c.slot.marshal ++ c.old.bytes32.bytes).extract 64 96))⟩ : CellUndo) =
      c := by
  have hfront : (c.slot.marshal ++ c.old.bytes32.bytes).extract 64 96 = c.old.bytes32.bytes := by
    exact take_of_length_le (by simp)
  rw [hfront]
  simp [List.extract, Slot.marshal]

/-- An undo log that was written is read back. -/
theorem decode_encode_undo (h : Fits log) : decodeUndo (encodeUndo log) = .ok log := by
  obtain ⟨hcells, hspent, hadded, hremoved⟩ := h
  have hentry : ∀ e : Hash × UInt64, (Bytes32.ofBytes ((e.1.bytes ++ Ssz.uint64 e.2).extract 0 32),
        Ssz.readUint64 ((e.1.bytes ++ Ssz.uint64 e.2).extract 32 40)) = e := by
    intro e
    have hall : (Ssz.uint64 e.2).take 8 = Ssz.uint64 e.2 := take_of_length_le (by simp)
    simp [List.extract, hall]
  unfold decodeUndo encodeUndo
  rw [append_assoc, append_assoc, read_encode_counted (by simp) read_cell_undo hcells]
  simp only [bind, Except.bind]
  rw [read_encode_counted (by simp) (by simp) hspent]
  simp only
  rw [read_encode_counted (by simp) (by simp) hadded]
  simp only
  rw [← append_nil (encodeCounted _ log.seenRemoved), read_encode_counted (by simp) hentry hremoved]
  rfl

theorem length_flat_map_ge (enc : α → Bytes) (hlen : ∀ x, 0 < (enc x).length) (xs : List α) :
    xs.length ≤ (xs.flatMap enc).length := by
  induction xs with
  | nil => simp
  | cons x xs ih =>
    have := hlen x
    simp only [flatMap_cons, length_append, length_cons]
    omega

theorem fits_of_length (h : (encodeUndo log).length < 2 ^ 64) : Fits log := by
  have hcells := length_flat_map_ge
    (fun c : CellUndo => c.slot.marshal ++ c.old.bytes32.bytes) (by simp) log.cells
  have hspent := length_flat_map_ge Bytes32.bytes (by simp) log.spentAdded
  have hadded := length_flat_map_ge Bytes32.bytes (by simp) log.seenAdded
  have hremoved := length_flat_map_ge
    (fun e : Hash × UInt64 => e.1.bytes ++ Ssz.uint64 e.2) (by simp) log.seenRemoved
  simp only [encodeUndo, encodeCounted, length_append, Ssz.length_uint64] at h
  exact ⟨by omega, by omega, by omega, by omega⟩

end Zycord.Chain
