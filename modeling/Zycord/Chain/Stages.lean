import Mathlib.Data.List.Pairwise
import Zycord.Chain.Canonical

/-!
# The parts of a transaction

What each part of a transaction of the chain does to the records of a store: the state keys
(`Stored.write_state`), the removed blocks (`Stored.remove_blocks`), the new blocks
(`Stored.write_blocks`), the undo logs that fall behind the horizon (`Stored.prune`) and the
metadata (`Stored.frame`). `Stored.advance` puts them together: replacing the newest blocks of a
chain by others leaves exactly the records of the new chain.
-/

namespace Zycord.Chain

open Fold UInt64 List
open Storage (Live applyBatch)

/-! ## The keys a transition touches -/

section

variable {k : Key} {t : Touched}

theorem mem_keys_record {log : UndoLog} :
    k ∈ (t.record log).keys ↔ k ∈ t.keys ∨ k ∈ (Touched.empty.record log).keys := by
  cases k <;> simp [Touched.keys, Touched.record, Touched.empty]

theorem get_undo_cells {cells : FinFun Slot U256} {log : List CellUndo} {slot : Slot}
    (h : slot ∉ log.map CellUndo.slot) : (State.undoCells cells log).get slot = cells.get slot := by
  induction log using reverseRecOn generalizing cells with
  | nil => rfl
  | append_singleton rest e ih =>
    rw [map_append, mem_append, not_or] at h
    have hne : e.slot ≠ slot := fun heq => h.2 (by simp [heq])
    rw [Fold.Journal.undo_cells_concat, ih h.1, FinFun.get_set, if_neg hne]

/-- Undoing a block leaves the records it did not touch. -/
theorem state_record_undo {s : State} {log : UndoLog} (h : k ∉ (Touched.empty.record log).keys) :
    stateRecord (s.undo log) k = stateRecord s k := by
  cases k with
  | cell slot =>
    have hget : (s.undo log).get slot = s.get slot := by
      refine get_undo_cells fun hmem => h ?_
      simpa [Touched.keys, Touched.record, Touched.empty] using hmem
    simp only [stateRecord, hget]
  | spent addr =>
    have hmem : addr ∉ log.spentAdded := fun hmem =>
      h (by simpa [Touched.keys, Touched.record, Touched.empty] using hmem)
    have hspent : (s.undo log).isSpent addr = s.isSpent addr := by
      show ((s.spent.eraseAll log.spentAdded).find? addr).isSome = (s.spent.find? addr).isSome
      rw [FinMap.find_erase_all, if_neg hmem]
    simp only [stateRecord, hspent]
  | seen id =>
    have hmem : id ∉ log.seenAdded ∧ ∀ e ∈ log.seenRemoved, e.1 ≠ id := by
      refine ⟨fun hmem => h ?_, fun e he heq => h ?_⟩
      · simp [Touched.keys, Touched.record, hmem]
      · simp only [Touched.keys, Touched.record, Touched.empty]
        simpa using Or.inr ⟨e.2, heq ▸ he⟩
    have hseen : (s.undo log).seenTTL id = s.seenTTL id := by
      show (((s.seen.eraseAll log.seenAdded).insertAll log.seenRemoved).find? id) = _
      rw [FinMap.find_insert_all_of_not_mem hmem.2, FinMap.find_erase_all, if_neg hmem.1]
      rfl
    simp only [stateRecord, hseen]
  | header _ | block _ | index _ | undo _ | metadata _ => rfl

/-- The states differ only under keys that were touched. -/
def Touched.Covers (t : Touched) (s s' : State) : Prop :=
  ∀ k, k ∉ t.keys → stateRecord s' k = stateRecord s k

theorem Touched.covers_refl (t : Touched) (s : State) : t.Covers s s := fun _ _ => rfl

theorem Touched.Covers.undo {s s' : State} (h : t.Covers s s') (log : UndoLog) :
    (t.record log).Covers s (undoBlock s' log) := by
  intro k hk
  rw [mem_keys_record, not_or] at hk
  rw [undoBlock, state_record_undo hk.2, h k hk.1]

/-- A block changes only the keys that its own log names. -/
theorem Touched.Covers.apply [Crypto] {p : Params} {s s' s'' : State} {b : Block}
    {r : Result} (h : t.Covers s s') (happly : applyBlock s' b p = (.ok r, s'')) :
    (t.record r.undo).Covers s s'' := by
  intro k hk
  rw [mem_keys_record, not_or] at hk
  rw [← h k hk.1, ← undo_apply_eq happly]
  exact (state_record_undo hk.2).symm

end

/-! ## One part at a time -/

section

variable [Crypto] {p : Params} {damage : Prop} {pruned : Option UInt64} {log : ChainLog}
  {s s' : State} {live live' : Live} {t : Touched}

/-- The blocks of a chain have different ids and different heights. -/
def Distinct (log : ChainLog) : Prop :=
  log.Pairwise fun e e' =>
    e.1.header.id ≠ e'.1.header.id ∧ e.1.header.height ≠ e'.1.header.height

variable {e e' : Block × Result} {cs : List Change} {k : Key}

section

variable (h : Distinct log) (he : e ∈ log) (he' : e' ∈ log)

include h he he'

theorem Distinct.ne (hne : e ≠ e') :
    e.1.header.id ≠ e'.1.header.id ∧ e.1.header.height ≠ e'.1.header.height := by
  have : Std.Symm fun e e' : Block × Result =>
      e.1.header.id ≠ e'.1.header.id ∧ e.1.header.height ≠ e'.1.header.height :=
    ⟨fun _ _ hab => ⟨hab.1.symm, hab.2.symm⟩⟩
  exact List.Pairwise.forall h he he' hne

theorem Distinct.eq_of_id (hid : e.1.header.id = e'.1.header.id) : e = e' := by
  by_contra hne
  exact (h.ne he he' hne).1 hid

theorem Distinct.eq_of_height (hheight : e.1.header.height = e'.1.header.height) : e = e' := by
  by_contra hne
  exact (h.ne he he' hne).2 hheight

end

omit [Crypto] in
theorem get_apply_of_not_changed (h : ∀ c ∈ cs, c.key ≠ k) :
    get (applyBatch live (batchOf cs)) k = get live k := by
  rw [get_apply_changes, last_change_eq_none.mpr h]
  rfl

omit [Crypto] in
theorem Keeps.congr {want : Option Bytes} (h : Keeps p damage live k want)
    (hget : get live' k = get live k) : Keeps p damage live' k want := by
  unfold Keeps
  rw [hget]
  exact h

section

variable (h : Stored p damage pruned log s live)

include h

/-- A store with the records of another state, and with the undo logs of another height. -/
theorem Stored.of_get {pruned' : Option UInt64} (hkeyed : WellKeyed live')
    (hstate : ∀ k, k.OfState → get live' k = stateRecord s' k)
    (hget : ∀ k, ¬ k.OfState → (∀ id, k ≠ .undo id) → (∀ m, k ≠ .metadata m) →
      get live' k = get live k)
    (hundos : ∀ e ∈ log, Keeps p damage live' (.undo e.1.header.id) (undoRecord pruned' e))
    (hnoUndo : ∀ id, (∀ e ∈ log, e.1.header.id ≠ id) → Keeps p damage live' (.undo id) none) :
    Stored p damage pruned' log s' live' where
  keyed := hkeyed
  state := hstate
  headers e he := (h.headers e he).congr (hget _ id nofun nofun)
  blocks e he := (h.blocks e he).congr (hget _ id nofun nofun)
  noBlock _ hid := (h.noBlock _ hid).congr (hget _ id nofun nofun)
  index e he := (h.index e he).congr (hget _ id nofun nofun)
  noIndex _ hheight := (h.noIndex _ hheight).congr (hget _ id nofun nofun)
  undos := hundos
  noUndo := hnoUndo
  short := h.short

/-- Changes under metadata keys touch no other record. -/
theorem Stored.frame (hcs : ∀ c ∈ cs, ∃ m, c.key = .metadata m) :
    Stored p damage pruned log s (applyBatch live (batchOf cs)) := by
  have hget : ∀ k : Key, (∀ m, k ≠ .metadata m) →
      get (applyBatch live (batchOf cs)) k = get live k := by
    intro k hk
    refine get_apply_of_not_changed fun c hc heq => ?_
    obtain ⟨m, hm⟩ := hcs c hc
    exact hk m (heq ▸ hm)
  refine h.of_get (h.keyed.apply cs) (fun k hk => ?_) (fun k _ _ => hget k)
    (fun e he => (h.undos e he).congr (hget _ nofun))
    fun id hid => (h.noUndo id hid).congr (hget _ nofun)
  rw [hget k (by rintro m rfl; exact hk), h.state k hk]

theorem Stored.state_changes (hcs : ∀ c ∈ cs, c.key.OfState)
    (hlast : ∀ k, k.OfState → (lastChange k cs).getD (stateRecord s k) = stateRecord s' k) :
    Stored p damage pruned log s' (applyBatch live (batchOf cs)) := by
  have hget : ∀ k : Key, ¬ k.OfState → get (applyBatch live (batchOf cs)) k = get live k := by
    intro k hk
    exact get_apply_of_not_changed fun c hc heq => hk (heq ▸ hcs c hc)
  refine h.of_get (h.keyed.apply cs) (fun k hk => ?_) (fun k hk _ _ => hget k hk)
    (fun e he => (h.undos e he).congr (hget _ id)) fun _ hid => (h.noUndo _ hid).congr (hget _ id)
  rw [get_apply_changes, h.state k hk, hlast k hk]

end

omit [Crypto] in
theorem of_state_of_mem_keys (h : k ∈ t.keys) : k.OfState := by
  simp only [Touched.keys, mem_append, mem_map] at h
  rcases h with (⟨_, -, rfl⟩ | ⟨_, -, rfl⟩) | ⟨_, -, rfl⟩ <;> trivial

/-- Staging every touched key at its value leads to the records of the new state. -/
theorem Stored.write_state (h : Stored p damage pruned log s live)
    (hcovers : t.Covers s s') :
    Stored p damage pruned log s' (applyBatch live (batchOf (writeState s' t))) := by
  refine h.state_changes ?_ fun k _ => ?_
  · intro c hc
    obtain ⟨k, hk, rfl⟩ := mem_map.mp hc
    exact of_state_of_mem_keys hk
  · rw [writeState, last_change_map t.keys (fun k => k) (stateRecord s'), map_id']
    split_ifs with hmem
    · rfl
    · exact (hcovers k hmem).symm

omit [Crypto] in
theorem get_remove_block (live : Live) (id : Hash) (height : UInt64) (k : Key) :
    get (applyBatch live (batchOf (removeBlock id height))) k =
      if k = .undo id ∨ k = .block id ∨ k = .index height then none else get live k := by
  rw [get_apply_changes]
  simp only [removeBlock, lastChange]
  grind

omit [Crypto] in
theorem Keeps.remove_block (id : Hash) (height : UInt64) (h : Keeps p damage live k none) :
    Keeps p damage (applyBatch live (batchOf (removeBlock id height))) k none := by
  by_cases hk : k = .undo id ∨ k = .block id ∨ k = .index height
  · left
    rw [get_remove_block, if_pos hk]
  · exact h.congr (by rw [get_remove_block, if_neg hk])

/-- Removing the top block leaves the records of those below. -/
theorem Stored.remove_block (h : Stored p damage pruned (e :: log) s live)
    (hdistinct : Distinct (e :: log)) :
    Stored p damage pruned log s
      (applyBatch live (batchOf (removeBlock e.1.header.id e.1.header.height))) where
  keyed := h.keyed.apply _
  state k hk := by
    cases k <;> first | exact hk.elim | simpa [get_remove_block] using h.state _ hk
  headers e' he' := (h.headers e' (.tail _ he')).congr (by simp [get_remove_block])
  blocks e' he' := (h.blocks e' (.tail _ he')).congr (by
    simp [get_remove_block, ((pairwise_cons.mp hdistinct).1 e' he').1.symm])
  noBlock id hid := by
    by_cases heq : e.1.header.id = id
    · left
      rw [get_remove_block, if_pos (by simp [heq])]
    · exact Keeps.remove_block _ _ (h.noBlock id (forall_mem_cons.mpr ⟨heq, hid⟩))
  index e' he' := (h.index e' (.tail _ he')).congr (by
    simp [get_remove_block, ((pairwise_cons.mp hdistinct).1 e' he').2.symm])
  noIndex height hheight := by
    by_cases heq : e.1.header.height = height
    · left
      rw [get_remove_block, if_pos (by simp [heq])]
    · exact Keeps.remove_block _ _ (h.noIndex height (forall_mem_cons.mpr ⟨heq, hheight⟩))
  undos e' he' := (h.undos e' (.tail _ he')).congr (by
    simp [get_remove_block, ((pairwise_cons.mp hdistinct).1 e' he').1.symm])
  noUndo id hid := by
    by_cases heq : e.1.header.id = id
    · left
      rw [get_remove_block, if_pos (by simp [heq])]
    · exact Keeps.remove_block _ _ (h.noUndo id (forall_mem_cons.mpr ⟨heq, hid⟩))
  short e' he' := h.short e' (.tail _ he')

/-- Removing the newest blocks one after another. -/
theorem Stored.remove_blocks {undone : ChainLog}
    (h : Stored p damage pruned (undone ++ log) s live) (hdistinct : Distinct (undone ++ log)) :
    Stored p damage pruned log s (applyBatch live (batchOf
      ((undone.map Prod.fst).flatMap fun b => removeBlock b.header.id b.header.height))) := by
  induction undone generalizing live with
  | nil => exact h
  | cons e rest ih => exact ih (h.remove_block hdistinct) hdistinct.of_cons

theorem get_write_block (live : Live) (b : Block) (undo : UndoLog) (k : Key) :
    get (applyBatch live (batchOf (writeBlock b undo))) k =
      if k = .header b.header.id then some b.header.marshal
      else if k = .block b.header.id then some b.marshal
      else if k = .index b.header.height then some b.header.id.bytes
      else if k = .undo b.header.id then some (encodeUndo undo)
      else get live k := by
  rw [get_apply_changes]
  simp only [writeBlock, lastChange]
  grind

/-- Writing a block adds its records to those of the log. -/
theorem Stored.write_block (h : Stored p damage pruned log s live)
    (hdistinct : Distinct (e :: log)) (hpruned : ∀ through ∈ pruned, through < e.1.header.height)
    (hshort : e.1.marshal.length < 2 ^ 32 ∧ (encodeUndo e.2.undo).length < 2 ^ 32) :
    Stored p damage pruned (e :: log) s (applyBatch live (batchOf (writeBlock e.1 e.2.undo))) := by
  have hid := fun e' he' => ((pairwise_cons.mp hdistinct).1 e' he').1.symm
  have hheight := fun e' he' => ((pairwise_cons.mp hdistinct).1 e' he').2.symm
  exact {
    keyed := h.keyed.apply _
    state := fun k hk => by
      cases k <;> first | exact hk.elim | simpa [get_write_block] using h.state _ hk
    headers := forall_mem_cons.mpr ⟨.inl (by simp [get_write_block]), fun e' he' =>
      (h.headers e' he').congr (by simp [get_write_block, hid e' he'])⟩
    blocks := forall_mem_cons.mpr ⟨.inl (by simp [get_write_block]), fun e' he' =>
      (h.blocks e' he').congr (by simp [get_write_block, hid e' he'])⟩
    noBlock := fun id hno => by
      obtain ⟨hne, hno⟩ := forall_mem_cons.mp hno
      exact (h.noBlock id hno).congr (by simp [get_write_block, hne.symm])
    index := forall_mem_cons.mpr ⟨.inl (by simp [get_write_block]), fun e' he' =>
      (h.index e' he').congr (by simp [get_write_block, hheight e' he'])⟩
    noIndex := fun height hno => by
      obtain ⟨hne, hno⟩ := forall_mem_cons.mp hno
      exact (h.noIndex height hno).congr (by simp [get_write_block, hne.symm])
    undos := forall_mem_cons.mpr
      ⟨.inl (by simpa [get_write_block, undoRecord] using hpruned), fun e' he' =>
        (h.undos e' he').congr (by simp [get_write_block, hid e' he'])⟩
    noUndo := fun id hno => by
      obtain ⟨hne, hno⟩ := forall_mem_cons.mp hno
      exact (h.noUndo id hno).congr (by simp [get_write_block, hne.symm])
    short := forall_mem_cons.mpr ⟨hshort, h.short⟩ }

/-- Writing blocks one after another, the lowest first. -/
theorem Stored.write_blocks {new : ChainLog} (h : Stored p damage pruned log s live)
    (hdistinct : Distinct (new ++ log))
    (hpruned : ∀ e ∈ new, ∀ through ∈ pruned, through < e.1.header.height)
    (hshort : ∀ e ∈ new, e.1.marshal.length < 2 ^ 32 ∧ (encodeUndo e.2.undo).length < 2 ^ 32) :
    Stored p damage pruned (new ++ log) s
      (applyBatch live (batchOf (new.reverse.flatMap fun e => writeBlock e.1 e.2.undo))) := by
  induction new with
  | nil => exact h
  | cons e rest ih =>
    rw [reverse_cons, flatMap_append, apply_batch_append]
    refine (ih hdistinct.of_cons ?_ ?_).write_block hdistinct ?_ ?_
    · exact (forall_mem_cons.mp hpruned).2
    · exact (forall_mem_cons.mp hshort).2
    · exact (forall_mem_cons.mp hpruned).1
    · exact (forall_mem_cons.mp hshort).1

/-! ## Pruning -/

section

omit [Crypto]

theorem mem_heights_up_to {first last h : UInt64} :
    h ∈ heightsUpTo first last ↔ first ≤ h ∧ h ≤ last := by
  simp only [heightsUpTo, mem_map, mem_range'_1, UInt64.le_iff_toNat_le]
  constructor
  · rintro ⟨n, hn, rfl⟩
    have hlt := last.toNat_lt
    rw [UInt64.toNat_ofNat_of_lt' (show n < 2 ^ 64 by omega)]
    omega
  · rintro ⟨hfirst, hlast⟩
    exact ⟨h.toNat, by omega, UInt64.ofNat_toNat⟩

theorem heights_up_to_sorted (first last : UInt64) : (heightsUpTo first last).Pairwise (· < ·) := by
  have hlt := last.toNat_lt
  unfold heightsUpTo
  rw [pairwise_map]
  refine (pairwise_lt_range' _ (by omega)).imp_of_mem fun {a b} ha hb hab => ?_
  rw [mem_range'_1] at ha hb
  rw [lt_iff_toNat_lt, toNat_ofNat_of_lt' (show a < 2 ^ 64 by omega),
    toNat_ofNat_of_lt' (show b < 2 ^ 64 by omega)]
  exact hab

theorem mem_prunable {idAt : UInt64 → Option Hash} {heights : List UInt64} {x : UInt64 × Hash}
    (h : x ∈ prunable idAt heights) : idAt x.1 = some x.2 := by
  induction heights with
  | nil => cases h
  | cons height rest ih =>
    unfold prunable at h
    split at h
    · cases h
    · rename_i id hid
      rcases mem_cons.mp h with rfl | hmem
      · exact hid
      · exact ih hmem

theorem prunable_heights (idAt : UInt64 → Option Hash) (heights : List UInt64) :
    (prunable idAt heights).map Prod.fst <+: heights := by
  induction heights with
  | nil => exact prefix_rfl
  | cons height rest ih =>
    unfold prunable
    split
    · exact nil_prefix
    · exact (prefix_cons_inj height).mpr ih

variable {newHeight : UInt64} {pending : UInt64 → Option Hash} {x : UInt64 × Hash}

theorem falling_behind_cases (p : Params) (live : Live) (newHeight : UInt64)
    (pending : UInt64 → Option Hash) :
    fallingBehind p live newHeight pending = [] ∨ p.undoDepth < newHeight ∧
      fallingBehind p live newHeight pending =
        prunable (fun h => (pending h).or (canonicalIDAt live h))
          (heightsUpTo (pruneStart live) (newHeight - p.undoDepth - 1)) := by
  unfold fallingBehind
  dsimp only
  split_ifs with hdeep hbehind
  · exact .inl rfl
  · exact .inl rfl
  · exact .inr ⟨UInt64.not_le.mp hdeep, rfl⟩

theorem falling_behind_range (h : x ∈ fallingBehind p live newHeight pending) :
    pruneStart live ≤ x.1 ∧ p.undoDepth < newHeight ∧ x.1 ≤ newHeight - p.undoDepth - 1 := by
  obtain heq | ⟨hdeep, heq⟩ := falling_behind_cases p live newHeight pending <;> rw [heq] at h
  · cases h
  · have hmem := (prunable_heights _ _).subset (mem_map_of_mem h)
    obtain ⟨hstart, hhorizon⟩ := mem_heights_up_to.mp hmem
    exact ⟨hstart, hdeep, hhorizon⟩

variable {through : UInt64} {last : UInt64 × Hash}

theorem behind_of_le_horizon {depth : UInt64} (hdeep : depth < newHeight)
    (hle : through ≤ newHeight - depth - 1) :
    through.toNat + depth.toNat + 1 ≤ newHeight.toNat := by
  have hdeep' := UInt64.lt_iff_toNat_lt.mp hdeep
  have hsub := UInt64.toNat_sub_of_le _ _ (UInt64.le_of_lt hdeep)
  have hone : (1 : UInt64).toNat = 1 := rfl
  rw [UInt64.le_iff_toNat_le,
    UInt64.toNat_sub_of_le _ _ (by rw [UInt64.le_iff_toNat_le]; omega), hsub] at hle
  omega

theorem lt_of_le_horizon (hdeep : p.undoDepth < newHeight)
    (hle : through ≤ newHeight - p.undoDepth - 1) : through < newHeight := by
  have hbehind := behind_of_le_horizon hdeep hle
  rw [UInt64.lt_iff_toNat_lt]
  omega

theorem falling_behind_sorted :
    ((fallingBehind p live newHeight pending).map Prod.fst).Pairwise (· < ·) := by
  obtain heq | ⟨-, heq⟩ := falling_behind_cases p live newHeight pending <;> rw [heq]
  · exact .nil
  · exact (heights_up_to_sorted _ _).sublist (prunable_heights _ _).sublist

theorem falling_behind_le_last
    (hlast : (fallingBehind p live newHeight pending).getLast? = some last)
    (h : x ∈ fallingBehind p live newHeight pending) : x.1 ≤ last.1 := by
  obtain ⟨front, hfront⟩ := getLast?_eq_some_iff.mp hlast
  have hsorted : ((fallingBehind p live newHeight pending).map Prod.fst).Pairwise (· < ·) :=
    falling_behind_sorted
  rw [hfront, map_append] at hsorted
  rw [hfront, mem_append, mem_singleton] at h
  rcases h with hfront | rfl
  · exact UInt64.le_of_lt ((pairwise_append.mp hsorted).2.2 x.1
      (mem_map_of_mem hfront) last.1 (by simp))
  · exact UInt64.le_refl _

theorem falling_behind_id (h : x ∈ fallingBehind p live newHeight pending) :
    (pending x.1).or (canonicalIDAt live x.1) = some x.2 := by
  obtain heq | ⟨-, heq⟩ := falling_behind_cases p live newHeight pending <;> rw [heq] at h
  · cases h
  · exact mem_prunable h

/-- The heights to prune have no gap up to the last one. -/
theorem falling_behind_closed {h : UInt64}
    (hlast : (fallingBehind p live newHeight pending).getLast? = some last)
    (hstart : pruneStart live ≤ h) (hle : h ≤ last.1) :
    ∃ id, (h, id) ∈ fallingBehind p live newHeight pending := by
  have hrange := falling_behind_range (mem_of_getLast? hlast)
  obtain heq | ⟨-, heq⟩ := falling_behind_cases p live newHeight pending <;> rw [heq] at hlast ⊢
  · simp at hlast
  · obtain ⟨rest, hrest⟩ := prunable_heights (fun h => (pending h).or (canonicalIDAt live h))
      (heightsUpTo (pruneStart live) (newHeight - p.undoDepth - 1))
    have hmem := mem_heights_up_to.mpr ⟨hstart, UInt64.le_trans hle hrange.2.2⟩
    have hsorted := heights_up_to_sorted (pruneStart live) (newHeight - p.undoDepth - 1)
    rw [← hrest] at hmem hsorted
    rcases mem_append.mp hmem with hfound | hlater
    · obtain ⟨⟨h', id⟩, hx, rfl⟩ := mem_map.mp hfound
      exact ⟨id, hx⟩
    · -- the heights after the last one found are above it
      have hlt := (pairwise_append.mp hsorted).2.2 last.1
        (mem_map_of_mem (mem_of_getLast? hlast)) h hlater
      exact absurd hle (UInt64.not_le.mpr hlt)

theorem get_prune_of_ne {k : Key} (hundo : ∀ id, k ≠ .undo id)
    (hbook : k ≠ .metadata .undoPruned) :
    get (applyBatch live' (batchOf (pruneUndo p live newHeight pending))) k = get live' k := by
  refine get_apply_of_not_changed fun c hc heq => ?_
  rcases mem_append.mp hc with hdel | hmark
  · obtain ⟨x, -, rfl⟩ := mem_map.mp hdel
    exact hundo _ heq.symm
  · obtain ⟨x, -, rfl⟩ := Option.map_eq_some_iff.mp (Option.mem_toList.mp hmark)
    exact hbook heq.symm

theorem get_prune_undo (id : Hash) :
    get (applyBatch live' (batchOf (pruneUndo p live newHeight pending))) (.undo id) =
      if id ∈ (fallingBehind p live newHeight pending).map Prod.snd then none
      else get live' (.undo id) := by
  have hmark : lastChange (.undo id) ((fallingBehind p live newHeight pending).getLast?.map
      fun e => ⟨.metadata .undoPruned, some (Ssz.uint64 e.1)⟩).toList = none := by
    refine last_change_eq_none.mpr fun c hc heq => ?_
    obtain ⟨x, -, rfl⟩ := Option.map_eq_some_iff.mp (Option.mem_toList.mp hc)
    cases heq
  have hmem : Key.undo id ∈ (fallingBehind p live newHeight pending).map (fun e => Key.undo e.2) ↔
      id ∈ (fallingBehind p live newHeight pending).map Prod.snd := by
    simp only [mem_map, Key.undo.injEq]
  rw [get_apply_changes, pruneUndo, last_change_append, hmark, Option.none_or,
    last_change_map _ (fun e : UInt64 × Hash => Key.undo e.2) fun _ => none, if_congr hmem rfl rfl]
  split <;> rfl

theorem undo_pruned_through_prune :
    undoPrunedThrough (applyBatch live' (batchOf (pruneUndo p live newHeight pending))) =
      ((fallingBehind p live newHeight pending).getLast?.map Prod.fst).or
        (undoPrunedThrough live') := by
  have hdel : lastChange (.metadata .undoPruned)
      ((fallingBehind p live newHeight pending).map fun e => ⟨.undo e.2, none⟩) = none := by
    refine last_change_eq_none.mpr fun c hc heq => ?_
    obtain ⟨x, -, rfl⟩ := mem_map.mp hc
    cases heq
  unfold undoPrunedThrough
  rw [get_apply_changes, pruneUndo, last_change_append, hdel]
  cases (fallingBehind p live newHeight pending).getLast? <;> simp [lastChange]

theorem pruned_through_cases
    (h : through ∈ undoPrunedThrough
      (applyBatch live' (batchOf (pruneUndo p live newHeight pending)))) :
    through ∈ undoPrunedThrough live' ∨
      p.undoDepth < newHeight ∧ through ≤ newHeight - p.undoDepth - 1 := by
  rw [undo_pruned_through_prune] at h
  cases hlast : (fallingBehind p live newHeight pending).getLast? with
  | none =>
    rw [hlast] at h
    exact .inl h
  | some last =>
    rw [hlast] at h
    obtain rfl : last.1 = through := Option.some.inj h
    exact .inr (falling_behind_range (mem_of_getLast? hlast)).2

theorem le_pruned_of_lt_start {h : UInt64} (hlt : h < pruneStart live)
    (hroom : ∀ through ∈ undoPrunedThrough live, through < newHeight) :
    ∃ through ∈ undoPrunedThrough live, h ≤ through := by
  unfold pruneStart at hlt
  split at hlt
  · exact absurd hlt (UInt64.not_lt.mpr UInt64.zero_le)
  · rename_i through hthrough
    have hroom' := hroom through hthrough
    refine ⟨through, hthrough, ?_⟩
    rw [lt_iff_toNat_lt] at hlt hroom'
    rw [le_iff_toNat_le]
    have hadd := UInt64.toNat_add through 1
    have hsize := newHeight.toNat_lt
    have hone : (1 : UInt64).toNat = 1 := rfl
    omega

theorem lt_start_of_pruned (h : through ∈ undoPrunedThrough live) (hroom : through < newHeight) :
    through < pruneStart live := by
  unfold pruneStart
  rw [show undoPrunedThrough live = some through from h]
  rw [UInt64.lt_iff_toNat_lt] at hroom ⊢
  have hadd := UInt64.toNat_add through 1
  have hsize := newHeight.toNat_lt
  have hone : (1 : UInt64).toNat = 1 := rfl
  dsimp only
  omega

theorem Keeps.prune_undo {id : Hash} (h : Keeps p damage live' (.undo id) none) :
    Keeps p damage (applyBatch live' (batchOf (pruneUndo p live newHeight pending)))
      (.undo id) none := by
  by_cases hmem : id ∈ (fallingBehind p live newHeight pending).map Prod.snd
  · exact .inl (by rw [get_prune_undo, if_pos hmem])
  · exact h.congr (by rw [get_prune_undo, if_neg hmem])

end

section

variable {live₀ : Live} {newHeight : UInt64} {pending : UInt64 → Option Hash}
  (h : Stored p damage (undoPrunedThrough live₀) log s live)
  (hdistinct : Distinct log)
  (hids : ∀ x ∈ fallingBehind p live₀ newHeight pending,
    ∃ e ∈ log, e.1.header.height = x.1 ∧ e.1.header.id = x.2)
  (hroom : ∀ through ∈ undoPrunedThrough live₀, through < newHeight)

include h hdistinct hids hroom

variable {e : Block × Result} {last : UInt64 × Hash}

theorem Stored.undo_behind (he : e ∈ log)
    (hlast : (fallingBehind p live₀ newHeight pending).getLast? = some last)
    (hle : e.1.header.height ≤ last.1) :
    Keeps p damage (applyBatch live (batchOf (pruneUndo p live₀ newHeight pending)))
      (.undo e.1.header.id) none := by
  by_cases hstart : pruneStart live₀ ≤ e.1.header.height
  · obtain ⟨id, hid⟩ := falling_behind_closed hlast hstart hle
    obtain ⟨e', he', hheight, hid'⟩ := hids _ hid
    obtain rfl := hdistinct.eq_of_height he' he hheight
    refine .inl ?_
    rw [get_prune_undo, if_pos (mem_map.mpr ⟨_, hid, hid'.symm⟩)]
  · obtain ⟨through, hthrough, hle'⟩ := le_pruned_of_lt_start (UInt64.not_le.mp hstart) hroom
    have hbefore := h.undos e he
    rw [undoRecord, if_neg fun hall =>
      absurd hle' (UInt64.not_le.mpr (hall through hthrough))] at hbefore
    exact hbefore.prune_undo

/-- Pruning keeps the undo logs above the last pruned height. -/
theorem Stored.undo_above (he : e ∈ log)
    (hlast : (fallingBehind p live₀ newHeight pending).getLast? = some last)
    (hlt : last.1 < e.1.header.height) :
    Keeps p damage (applyBatch live (batchOf (pruneUndo p live₀ newHeight pending)))
      (.undo e.1.header.id) (some (encodeUndo e.2.undo)) := by
  obtain ⟨hfirst, -⟩ := falling_behind_range (mem_of_getLast? hlast)
  have hold : ∀ through ∈ undoPrunedThrough live₀, through < e.1.header.height := by
    intro through hthrough
    have hstart := lt_start_of_pruned hthrough (hroom through hthrough)
    exact UInt64.lt_trans (UInt64.lt_of_lt_of_le hstart hfirst) hlt
  have hbefore := h.undos e he
  rw [undoRecord, if_pos hold] at hbefore
  refine hbefore.congr ?_
  rw [get_prune_undo, if_neg]
  intro hmem
  -- what falls behind is at most as high as the bookmark
  obtain ⟨x, hx, hxid⟩ := mem_map.mp hmem
  obtain ⟨e', he', hheight, hid'⟩ := hids x hx
  obtain rfl := hdistinct.eq_of_id he' he (hid'.trans hxid)
  rw [hheight] at hlt
  exact absurd (falling_behind_le_last hlast hx) (UInt64.not_le.mpr hlt)

/-- Pruning keeps the logs above the new bookmark and no others. -/
theorem Stored.prune (hbook : undoPrunedThrough live = undoPrunedThrough live₀) :
    Stored p damage
      (undoPrunedThrough (applyBatch live (batchOf (pruneUndo p live₀ newHeight pending)))) log s
      (applyBatch live (batchOf (pruneUndo p live₀ newHeight pending))) := by
  refine h.of_get (h.keyed.apply _) (fun k hk => ?_) (fun k _ hk hm => get_prune_of_ne hk (hm _))
    (fun e he => ?_) fun id hid => (h.noUndo id hid).prune_undo
  · rw [get_prune_of_ne (by rintro id rfl; exact hk) (by rintro rfl; exact hk), h.state k hk]
  · rw [undo_pruned_through_prune, hbook]
    cases hlast : (fallingBehind p live₀ newHeight pending).getLast? with
    | none =>
      rw [getLast?_eq_none_iff] at hlast
      exact (h.undos e he).congr (by rw [get_prune_undo, hlast, if_neg (by simp)])
    | some last =>
      show Keeps p damage _ (.undo e.1.header.id) (undoRecord (some last.1) e)
      by_cases hle : e.1.header.height ≤ last.1
      · rw [undoRecord, if_neg fun hall => absurd hle (UInt64.not_le.mpr (hall _ rfl))]
        exact h.undo_behind hdistinct hids hroom he hlast hle
      · rw [undoRecord, if_pos (by rintro through ⟨⟩; exact UInt64.not_le.mp hle)]
        exact h.undo_above hdistinct hids hroom he hlast (UInt64.not_le.mp hle)

end

/-! ## A whole transaction -/

omit [Crypto] in
theorem undo_pruned_through_of_not_changed {cs : List Change}
    (h : ∀ c ∈ cs, c.key ≠ .metadata .undoPruned) :
    undoPrunedThrough (applyBatch live (batchOf cs)) = undoPrunedThrough live := by
  unfold undoPrunedThrough
  rw [get_apply_of_not_changed h]

/-- What is staged when blocks take the place of others. -/
def exchangeChanges (t : Touched) (s : State) (undone new : ChainLog) : List Change :=
  writeState s t ++
    (undone.map Prod.fst).flatMap (fun b => removeBlock b.header.id b.header.height) ++
    new.reverse.flatMap (fun e => writeBlock e.1 e.2.undo)

/-- The whole transaction: also what falls behind, and the metadata. -/
def advanceChanges (p : Params) (live : Live) (networkID : Hash) (t : Touched) (s : State)
    (undone new : ChainLog) (tip : Header) (pending : UInt64 → Option Hash) (work : U256)
    (stats : Stats) : List Change :=
  exchangeChanges t s undone new ++ pruneUndo p live tip.height pending ++
    writeHead networkID s tip work stats

section

variable {undone base new : ChainLog} {tip : Header} {pending : UInt64 → Option Hash}
  {networkID : Hash} {work : U256} {stats : Stats} {c : Change}

theorem key_of_mem_exchange (h : c ∈ exchangeChanges t s undone new) :
    ∀ m, c.key ≠ .metadata m := by
  simp only [exchangeChanges, mem_append, mem_flatMap, writeState, mem_map,
    removeBlock, writeBlock, mem_cons, not_mem_nil, or_false] at h
  rcases h with (⟨k, hk, rfl⟩ | ⟨b, -, rfl | rfl | rfl⟩) | ⟨e, -, rfl | rfl | rfl | rfl⟩
  · rintro m rfl
    exact of_state_of_mem_keys hk
  all_goals nofun

theorem key_of_mem_write_head (h : c ∈ writeHead networkID s tip work stats) :
    ∃ m, c.key = .metadata m ∧ m ≠ .undoPruned := by
  simp only [writeHead, mem_cons, not_mem_nil, or_false] at h
  rcases h with rfl | rfl | rfl | rfl | rfl | rfl | rfl <;> exact ⟨_, rfl, nofun⟩

theorem undo_pruned_through_exchange :
    undoPrunedThrough (applyBatch live (batchOf (exchangeChanges t s undone new))) =
      undoPrunedThrough live :=
  undo_pruned_through_of_not_changed fun _ hc => key_of_mem_exchange hc _

theorem undo_pruned_through_write_head :
    undoPrunedThrough (applyBatch live (batchOf (writeHead networkID s tip work stats))) =
      undoPrunedThrough live := by
  refine undo_pruned_through_of_not_changed fun c hc heq => ?_
  obtain ⟨m, hkey, hm⟩ := key_of_mem_write_head hc
  exact hm (Key.metadata.inj (hkey.symm.trans heq))

theorem Lands.short_blocks {changes : List Change} (h : Lands live changes live')
    (hsub : ∀ c ∈ exchangeChanges t s undone new, c ∈ changes) :
    ∀ e ∈ new, e.1.marshal.length < 2 ^ 32 ∧ (encodeUndo e.2.undo).length < 2 ^ 32 := by
  intro e he
  have hmem : ∀ c ∈ writeBlock e.1 e.2.undo, c ∈ changes := by
    intro c hc
    have hflat : c ∈ new.reverse.flatMap fun e => writeBlock e.1 e.2.undo :=
      mem_flatMap.mpr ⟨e, mem_reverse.mpr he, hc⟩
    exact hsub c (mem_append_right _ hflat)
  exact ⟨h.short ⟨.block e.1.header.id, _⟩ (hmem _ (by simp [writeBlock])) _ rfl,
    h.short ⟨.undo e.1.header.id, _⟩ (hmem _ (by simp [writeBlock])) _ rfl⟩

/-- Replacing the newest blocks of a chain leaves exactly the records of the new chain. -/
theorem Stored.advance (h : Stored p damage (undoPrunedThrough live) (undone ++ base) s live)
    (hlands : Lands live (advanceChanges p live networkID t s' undone new tip pending work stats)
      live')
    (hcovers : t.Covers s s') (hdistinct : Distinct (undone ++ base))
    (hdistinct' : Distinct (new ++ base))
    (hnew : ∀ e ∈ new, ∀ through ∈ undoPrunedThrough live, through < e.1.header.height)
    (hroom : ∀ through ∈ undoPrunedThrough live, through < tip.height)
    (hids : ∀ x ∈ fallingBehind p live tip.height pending,
      ∃ e ∈ new ++ base, e.1.header.height = x.1 ∧ e.1.header.id = x.2) :
    Stored p damage (undoPrunedThrough live') (new ++ base) s' live' := by
  have hsub : ∀ c ∈ exchangeChanges t s' undone new,
      c ∈ advanceChanges p live networkID t s' undone new tip pending work stats := fun c hc =>
    mem_append_left _ (mem_append_left _ hc)
  have hshort := hlands.short_blocks hsub
  -- the parts in the order of the transaction
  have hremoved := (h.write_state hcovers).remove_blocks hdistinct
  have hwritten := hremoved.write_blocks hdistinct' hnew hshort
  rw [← apply_batch_append, ← apply_batch_append, ← append_assoc] at hwritten
  have hexchanged : Stored p damage (undoPrunedThrough live) (new ++ base) s'
      (applyBatch live (batchOf (exchangeChanges t s' undone new))) := hwritten
  have hpruned := hexchanged.prune hdistinct' hids hroom undo_pruned_through_exchange
  have hhead : ∀ c ∈ writeHead networkID s' tip work stats, ∃ m, c.key = .metadata m :=
    fun c hc => (key_of_mem_write_head hc).imp fun _ hm => hm.1
  have hheaded := hpruned.frame hhead
  rw [hlands.applied, advanceChanges, apply_batch_append, undo_pruned_through_write_head,
    apply_batch_append]
  exact hheaded

theorem last_change_write_head (networkID : Hash) (s : State) (tip : Header) (work : U256)
    (stats : Stats) :
    lastChange (.metadata .network) (writeHead networkID s tip work stats) =
        some (some networkID.bytes) ∧
      lastChange (.metadata .version) (writeHead networkID s tip work stats) =
        some (some (Ssz.uint64 storeVersion)) ∧
      lastChange (.metadata .height) (writeHead networkID s tip work stats) =
        some (some (Ssz.uint64 tip.height)) ∧
      lastChange (.metadata .tip) (writeHead networkID s tip work stats) =
        some (some tip.id.bytes) ∧
      lastChange (.metadata .stateRoot) (writeHead networkID s tip work stats) =
        some (some s.root.bytes) ∧
      lastChange (.metadata .work) (writeHead networkID s tip work stats) =
        some (some work.bytes32.bytes) := by
  simp [writeHead, lastChange]

section

variable (hlands :
  Lands live (advanceChanges p live networkID t s' undone new tip pending work stats) live')

include hlands

theorem pruned_through_advance {through : UInt64} (hthrough : through ∈ undoPrunedThrough live') :
    through ∈ undoPrunedThrough live ∨
      p.undoDepth < tip.height ∧ through ≤ tip.height - p.undoDepth - 1 := by
  rw [hlands.applied, advanceChanges, apply_batch_append, undo_pruned_through_write_head,
    apply_batch_append] at hthrough
  rcases pruned_through_cases hthrough with hold | hbehind
  · rw [undo_pruned_through_exchange] at hold
    exact .inl hold
  · exact .inr hbehind

/-- The metadata afterwards names the new tip. -/
theorem Headed.advance (hroom : ∀ through ∈ undoPrunedThrough live, through < tip.height) :
    Headed networkID s' tip live' := by
  have hget : ∀ (m : MetaKey) (v : Option Bytes),
      lastChange (.metadata m) (writeHead networkID s' tip work stats) = some v →
      get live' (.metadata m) = v := by
    intro m v hlast
    rw [hlands.applied, get_apply_changes, advanceChanges, last_change_append, hlast]
    rfl
  obtain ⟨hnetwork, hversion, hheight, htip, hroot, -⟩ :=
    last_change_write_head networkID s' tip work stats
  refine ⟨hget _ _ hnetwork, hget _ _ hversion, hget _ _ hheight, hget _ _ htip, hget _ _ hroot, ?_⟩
  intro through hthrough
  rcases pruned_through_advance hlands hthrough with hold | ⟨hdeep, hle⟩
  · exact UInt64.le_of_lt (hroom through hold)
  · exact UInt64.le_of_lt (lt_of_le_horizon hdeep hle)

end

end

/-! ## The chain after a transaction -/

/-- No two headers of a set have the same id, and none has the id that stands for the parent of
genesis. -/
structure NoCollision (p : Params) (hs : Set Header) : Prop where
  ids : Set.InjOn Header.id hs
  root : ∀ h ∈ hs, h.id ≠ p.consensusRoot

/-- Where ids do not collide, the blocks of a run are distinct. -/
theorem Run.distinct {hs : Set Header} (hrun : Run p log s) (hids : Set.InjOn Header.id hs)
    (hmem : ∀ e ∈ log, e.1.header ∈ hs) : Distinct log := by
  induction log generalizing s with
  | nil => exact .nil
  | cons e rest ih =>
    obtain ⟨s₀, hrest, hheight, -⟩ := hrun.of_cons
    obtain ⟨he, hmem'⟩ := forall_mem_cons.mp hmem
    refine pairwise_cons.mpr ⟨fun e' he' => ?_, ih hrest hmem'⟩
    have hne : e.1.header.height ≠ e'.1.header.height := by
      intro heq
      have hlt := hrest.height_lt he'
      rw [← heq, hheight] at hlt
      exact lt_irrefl _ hlt
    exact ⟨fun hid => hne (congrArg Header.height (hids he (hmem' e' he') hid)), hne⟩

theorem Run.exists_height {n : ℕ} (hrun : Run p log s) (hn : n < log.length) :
    ∃ e ∈ log, e.1.header.height.toNat = n := by
  induction log generalizing s with
  | nil => cases hn
  | cons e rest ih =>
    obtain ⟨s₀, hrest, hheight, -⟩ := hrun.of_cons
    by_cases heq : n = rest.length
    · exact ⟨e, mem_cons_self, heq ▸ hheight⟩
    · rw [length_cons] at hn
      obtain ⟨e', he', hn'⟩ := ih hrest (by omega)
      exact ⟨e', mem_cons_of_mem _ he', hn'⟩

/-- Every indexed id is a block of the log at that height. -/
theorem Stored.mem_of_index {h : UInt64} {id : Hash} (hstored : Stored p damage pruned log s live)
    (hid : canonicalIDAt live h = some id) :
    ∃ e ∈ log, e.1.header.height = h ∧ e.1.header.id = id := by
  by_cases hmem : ∃ e ∈ log, e.1.header.height = h
  · obtain ⟨e, he, rfl⟩ := hmem
    exact ⟨e, he, rfl, ((hstored.index e he).index_eq hid).symm⟩
  · rw [(hstored.noIndex h fun e he heq => hmem ⟨e, he, heq⟩).no_index] at hid
    cases hid

/-- An advance that lands is canonical for the new log. -/
theorem canonical_advance {c' : Chain} {undone base new : ChainLog}
    {pending : UInt64 → Option Hash} {work : U256} {stats : Stats}
    (hstored : Stored p damage (undoPrunedThrough live) (undone ++ base) s live)
    (hlands : Lands live (advanceChanges p live c'.networkID t c'.state undone new c'.tip pending
      work stats) c'.store.live)
    (hcovers : t.Covers s c'.state) (hrun : Run p (new ++ base) c'.state)
    (hlinked : Linked (new ++ base))
    (htip : (new ++ base).head?.map (fun e => e.1.header) = some c'.tip)
    (hheight : c'.height = c'.tip.height) (hne : new ≠ []) (hdistinct : Distinct (undone ++ base))
    (hdistinct' : Distinct (new ++ base))
    (hbook : ∀ through ∈ undoPrunedThrough live, through.toNat < base.length)
    (hids : ∀ h id, h < c'.tip.height → (pending h).or (canonicalIDAt live h) = some id →
      ∃ e ∈ new ++ base, e.1.header.height = h ∧ e.1.header.id = id) :
    Canonical p damage (new ++ base) c' := by
  have hnew : ∀ e ∈ new, ∀ through ∈ undoPrunedThrough live, through < e.1.header.height := by
    intro e he through hthrough
    exact lt_of_lt_of_le (hbook through hthrough) (hrun.le_height he)
  have hroom : ∀ through ∈ undoPrunedThrough live, through < c'.tip.height := by
    cases new with
    | nil => exact absurd rfl hne
    | cons e rest =>
      have hhead : e.1.header = c'.tip := Option.some.inj htip
      rw [← hhead]
      exact hnew e mem_cons_self
  have hfalling : ∀ x ∈ fallingBehind p live c'.tip.height pending,
      ∃ e ∈ new ++ base, e.1.header.height = x.1 ∧ e.1.header.id = x.2 := by
    intro x hx
    obtain ⟨-, hdeep, hle⟩ := falling_behind_range hx
    exact hids x.1 x.2 (lt_of_le_horizon hdeep hle) (falling_behind_id hx)
  exact ⟨hrun, hlinked, htip, hheight,
    hstored.advance hlands hcovers hdistinct hdistinct' hnew hroom hfalling,
    Headed.advance hlands hroom⟩

end

end Zycord.Chain
