import Zycord.Fold.Apply

/-!
# What journal writes can do

`Writes F j j'` says that `j'` came out of `j` by journal operations inside a footprint `F`: cells
of `F.cells` written, addresses of `F.burns` burned, entries of `F.ids` recorded. Everything the
fold does between its checks is such a sequence, so what a sequence leaves alone
(`Writes.get_eq`, `Writes.spent_new`, `Writes.seen_new`) and that undoing it is exact
(`Writes.undo_eq`) is proved once, here.
-/

namespace Zycord.Fold.Journal

open Bool FinMap Option State

/-- The cells a computation may write, the addresses it may burn and the entries it may record. -/
structure Footprint where
  cells : Slot → Prop
  burns : Address → Prop
  ids : Hash → UInt64 → Prop

/-- A sequence of journal operations inside a footprint. -/
inductive Writes (F : Footprint) : Journal → Journal → Prop where
  | refl (j : Journal) : Writes F j j
  | set {j j' : Journal} (slot : Slot) (v : U256) (h : Writes F j j') (hs : F.cells slot) :
      Writes F j (j'.set slot v)
  | markSpent {j j' : Journal} (a : Address) (h : Writes F j j') (ha : F.burns a) :
      Writes F j (j'.markSpent a)
  | markSeen {j j' : Journal} (id : Hash) (ttl : UInt64) (h : Writes F j j') (hid : F.ids id ttl) :
      Writes F j (j'.markSeen id ttl)

variable {F G : Footprint} {j j' j'' : Journal}

/-- Footprints compose. -/
theorem Writes.trans (h : Writes F j j') (h' : Writes F j' j'') : Writes F j j'' := by
  induction h' with
  | refl => exact h
  | set slot v _ hs ih => exact ih.set slot v hs
  | markSpent a _ ha ih => exact ih.markSpent a ha
  | markSeen id ttl _ hid ih => exact ih.markSeen id ttl hid

/-- A footprint that another one includes. -/
structure Footprint.Within (F G : Footprint) : Prop where
  cells : ∀ slot, F.cells slot → G.cells slot
  burns : ∀ a, F.burns a → G.burns a
  ids : ∀ id ttl, F.ids id ttl → G.ids id ttl

theorem Writes.mono (h : Writes F j j') (hFG : F.Within G) : Writes G j j' := by
  induction h with
  | refl => exact .refl _
  | set slot v _ hs ih => exact ih.set slot v (hFG.cells slot hs)
  | markSpent a _ ha ih => exact ih.markSpent a (hFG.burns a ha)
  | markSeen id ttl _ hid ih => exact ih.markSeen id ttl (hFG.ids id ttl hid)

/-! ## Reading after one operation -/

@[simp] theorem s_set (slot : Slot) (v : U256) : (j.set slot v).s = j.s.set slot v := rfl

@[simp] theorem get_mark_spent (a : Address) (slot : Slot) :
    (j.markSpent a).s.get slot = j.s.get slot := by
  unfold markSpent
  split <;> simp

theorem is_spent_mark_spent (a a' : Address) :
    (j.markSpent a).s.isSpent a' = (decide (a = a') || j.s.isSpent a') := by
  unfold markSpent
  split_ifs with h
  · by_cases ha : a = a'
    · subst ha; simp [h]
    · simp [ha]
  · exact j.s.is_spent_mark_spent a a'

@[simp] theorem seen_ttl_mark_spent (a : Address) (id : Hash) :
    (j.markSpent a).s.seenTTL id = j.s.seenTTL id := by
  unfold markSpent
  split <;> simp

@[simp] theorem get_mark_seen (id : Hash) (ttl : UInt64) (slot : Slot) :
    (j.markSeen id ttl).s.get slot = j.s.get slot := by
  unfold markSeen
  split <;> simp

@[simp] theorem is_spent_mark_seen (id : Hash) (ttl : UInt64) (a : Address) :
    (j.markSeen id ttl).s.isSpent a = j.s.isSpent a := by
  unfold markSeen
  split <;> simp

theorem seen_ttl_mark_seen (id id' : Hash) (ttl : UInt64) :
    (j.markSeen id ttl).s.seenTTL id' =
      if id = id' then some ((j.s.seenTTL id).getD ttl) else j.s.seenTTL id' := by
  unfold markSeen
  split
  · rename_i h
    by_cases hid : id = id'
    · subst hid
      obtain ⟨t, ht⟩ := isSome_iff_exists.mp h
      simp [ht]
    · simp [hid]
  · rw [j.s.seen_ttl_mark_seen]
    by_cases hid : id = id' <;> simp_all

/-! ## What a sequence leaves alone -/

/-- Cells outside the footprint keep their values. -/
theorem Writes.get_eq {k : Slot} (h : Writes F j j') (hk : ¬ F.cells k) :
    j'.s.get k = j.s.get k := by
  induction h with
  | refl => rfl
  | set slot v _ hs ih =>
    have hne : slot ≠ k := fun heq => hk (heq ▸ hs)
    simp [get_set_of_ne _ v hne, ih]
  | markSpent a _ _ ih | markSeen id ttl _ _ ih => simpa using ih

variable {a : Address} {id : Hash} {ttl : UInt64}

section

variable (h : Writes F j j')

include h

theorem Writes.spent_mono (ha : j.s.isSpent a = true) : j'.s.isSpent a = true := by
  induction h with
  | refl => exact ha
  | set slot v _ _ ih => simpa using ih
  | markSpent a' _ _ ih => simp [is_spent_mark_spent, ih]
  | markSeen id ttl _ _ ih => simpa using ih

/-- Only addresses of the footprint are burned. -/
theorem Writes.spent_new (ha : j'.s.isSpent a = true) : j.s.isSpent a = true ∨ F.burns a := by
  induction h with
  | refl => exact Or.inl ha
  | set slot v _ _ ih => exact ih (by simpa using ha)
  | markSpent a' _ hb ih =>
    rw [is_spent_mark_spent, or_eq_true, decide_eq_true_iff] at ha
    rcases ha with rfl | ha
    · exact Or.inr hb
    · exact ih ha
  | markSeen id ttl _ _ ih => exact ih (by simpa using ha)

theorem Writes.seen_mono (hid : j.s.seenTTL id = some ttl) : j'.s.seenTTL id = some ttl := by
  induction h with
  | refl => exact hid
  | set slot v _ _ ih | markSpent a _ _ ih => simpa using ih
  | markSeen id' ttl' _ _ ih =>
    rw [seen_ttl_mark_seen]
    split_ifs with heq
    · subst heq
      simp [ih]
    · exact ih

/-- Only entries of the footprint are recorded. -/
theorem Writes.seen_new (hid : j'.s.seenTTL id = some ttl) :
    j.s.seenTTL id = some ttl ∨ F.ids id ttl := by
  induction h with
  | refl => exact Or.inl hid
  | set slot v _ _ ih | markSpent a _ _ ih => exact ih (by simpa using hid)
  | @markSeen j' id' ttl' _ hF ih =>
    rw [seen_ttl_mark_seen] at hid
    split_ifs at hid with heq
    · subst heq
      cases hold : j'.s.seenTTL id' with
      | none =>
        simp only [hold, getD_none, some.injEq] at hid
        exact Or.inr (hid ▸ hF)
      | some t => exact ih (by simpa [hold] using hid)
    · exact ih hid

theorem Writes.is_spent_eq (hb : ∀ a, ¬ F.burns a) (a : Address) :
    j'.s.isSpent a = j.s.isSpent a := by
  rw [Bool.eq_iff_iff]
  exact ⟨fun ha => (h.spent_new ha).resolve_right (hb a), h.spent_mono⟩

theorem Writes.seen_eq (hi : ∀ id ttl, ¬ F.ids id ttl) (id : Hash) :
    j'.s.seenTTL id = j.s.seenTTL id :=
  ext fun ttl => ⟨fun ht => (h.seen_new ht).resolve_right (hi id ttl), h.seen_mono⟩

end

@[simp] theorem seen_removed_mark_spent (a : Address) :
    (j.markSpent a).log.seenRemoved = j.log.seenRemoved := by
  unfold markSpent
  split <;> rfl

@[simp] theorem seen_removed_mark_seen (id : Hash) (ttl : UInt64) :
    (j.markSeen id ttl).log.seenRemoved = j.log.seenRemoved := by
  unfold markSeen
  split <;> rfl

theorem Writes.seen_removed (h : Writes F j j') : j'.log.seenRemoved = j.log.seenRemoved := by
  induction h with
  | refl => rfl
  | set slot v _ _ ih => exact ih
  | markSpent a _ _ ih => rw [seen_removed_mark_spent, ih]
  | markSeen id ttl _ _ ih => rw [seen_removed_mark_seen, ih]

/-- The ids a journal adds are those of its footprint. -/
theorem Writes.seen_added (h : Writes F j j') (hid : id ∈ j'.log.seenAdded) :
    id ∈ j.log.seenAdded ∨ ∃ ttl, F.ids id ttl ∧ j'.s.seenTTL id = some ttl := by
  induction h with
  | refl => exact Or.inl hid
  | set slot v _ _ ih => simpa using ih hid
  | @markSpent j' a _ _ ih =>
    have hlog : (j'.markSpent a).log.seenAdded = j'.log.seenAdded := by
      unfold Journal.markSpent
      split <;> rfl
    simpa using ih (hlog ▸ hid)
  | @markSeen j' id' ttl' _ hF ih =>
    by_cases hseen : (j'.s.seenTTL id').isSome = true
    · simp only [Journal.markSeen, hseen, if_true] at hid ⊢
      exact ih hid
    · simp only [Journal.markSeen, hseen, Bool.false_eq_true, if_false, List.mem_append,
        List.mem_singleton] at hid ⊢
      have hnone : j'.s.seenTTL id' = none := by simpa using hseen
      rcases hid with hid | rfl
      · refine (ih hid).imp_right fun ⟨ttl, hFt, ht⟩ => ⟨ttl, hFt, ?_⟩
        have hne : id' ≠ id := fun heq => by simp [← heq, hnone] at ht
        rw [State.seen_ttl_mark_seen, if_neg hne, ht]
      · exact Or.inr ⟨ttl', hF, by simp [State.seen_ttl_mark_seen]⟩

/-! ## Undoing -/

theorem undo_cells_concat (cells : FinFun Slot U256) (log : List CellUndo) (e : CellUndo) :
    State.undoCells cells (log ++ [e]) = State.undoCells (cells.set e.slot e.old) log := by
  simp [undoCells]

@[simp] theorem undo_set (slot : Slot) (v : U256) : (j.set slot v).undo.s = j.undo.s := by
  refine ext ?_ rfl rfl
  show undoCells (j.s.cells.set slot v) (j.log.cells ++ [⟨slot, j.s.get slot⟩]) = _
  rw [undo_cells_concat]
  exact congrArg (undoCells · j.log.cells) (j.s.cells.set_set_get slot v)

@[simp] theorem undo_mark_spent (a : Address) : (j.markSpent a).undo.s = j.undo.s := by
  by_cases ha : j.s.isSpent a = true
  · simp [markSpent, ha]
  · have hnone : j.s.spent.find? a = none := by
      simpa [isSpent, contains] using ha
    simp only [markSpent, ha, false_eq_true, if_false]
    refine ext rfl ?_ rfl
    show (j.s.spent.insert a ()).eraseAll (j.log.spentAdded ++ [a]) = j.s.spent.eraseAll _
    refine ext_find fun k => ?_
    rw [find_erase_all, find_erase_all, find_insert]
    by_cases hk : a = k
    · subst hk; simp [hnone]
    · simp [hk, Ne.symm hk]

@[simp] theorem undo_mark_seen (id : Hash) (ttl : UInt64) :
    (j.markSeen id ttl).undo.s = j.undo.s := by
  by_cases hid : (j.s.seenTTL id).isSome = true
  · simp [markSeen, hid]
  · have hnone : j.s.seen.find? id = none := by simpa [seenTTL] using hid
    simp only [markSeen, hid, false_eq_true, if_false]
    refine ext rfl rfl ?_
    show ((j.s.seen.insert id ttl).eraseAll (j.log.seenAdded ++ [id])).insertAll _ =
      (j.s.seen.eraseAll _).insertAll _
    congr 1
    refine ext_find fun k => ?_
    rw [find_erase_all, find_erase_all, find_insert]
    by_cases hk : id = k
    · subst hk; simp [hnone]
    · simp [hk, Ne.symm hk]

/-- A sequence of journal operations does not change what undoing leads back to. -/
theorem Writes.undo_eq (h : Writes F j j') : j'.undo.s = j.undo.s := by
  induction h with
  | refl => rfl
  | set slot v _ _ ih => rw [undo_set, ih]
  | markSpent a _ _ ih => rw [undo_mark_spent, ih]
  | markSeen id ttl _ _ ih => rw [undo_mark_seen, ih]

/-- Pruning the replay set is undone with the rest. -/
theorem undo_prune_seen {below : UInt64} (hnone : j.log.seenRemoved = [])
    (hlive : ∀ id ∈ j.log.seenAdded, ∀ ttl, j.s.seenTTL id = some ttl → ¬ ttl < below) :
    (j.pruneSeen below).undo.s = j.undo.s := by
  refine ext rfl rfl ?_
  show ((j.s.seen.filter fun _ ttl => !(ttl < below)).eraseAll j.log.seenAdded).insertAll
      (j.s.expired below) = (j.s.seen.eraseAll j.log.seenAdded).insertAll j.log.seenRemoved
  rw [hnone]
  refine ext_find fun id => ?_
  show _ = (j.s.seen.eraseAll j.log.seenAdded).find? id
  have hmem : ∀ ttl, (id, ttl) ∈ j.s.expired below ↔ j.s.seen.find? id = some ttl ∧
      ttl < below := by
    intro ttl
    rw [expired, ← find_eq_some, find_filter]
    simp
  by_cases hexp : ∃ ttl, (id, ttl) ∈ j.s.expired below
  · -- an expired entry was not added by this block, so it is put back where it was
    obtain ⟨ttl, httl⟩ := hexp
    obtain ⟨hfind, hlt⟩ := (hmem ttl).mp httl
    have hold : id ∉ j.log.seenAdded := fun hin => hlive id hin ttl hfind hlt
    rw [find_insert_all_of_mem (j.s.sorted_expired below) httl, find_erase_all, if_neg hold, hfind]
  · rw [find_insert_all_of_not_mem fun e he heq => hexp ⟨e.2, by rw [← heq]; exact he⟩,
      find_erase_all, find_erase_all, find_filter]
    split
    · rfl
    · cases hfind : j.s.seen.find? id with
      | none => rfl
      | some ttl =>
        have hge : ¬ ttl < below := fun hlt => hexp ⟨ttl, (hmem ttl).mpr ⟨hfind, hlt⟩⟩
        simp [hge]

end Zycord.Fold.Journal
