import Zycord.Mempool.Pool

/-!
# Entering and leaving the book

Who is pooled after an entry was made or taken out, and how a sum over the pooled entries moves
(`Book.total_insert`, `Book.total_take`). Every removal of the pool is a sequence of `Book.take`,
so what `take` keeps is kept by all of them (`book_remove_locked`, `book_evict_all`).
-/

namespace Zycord.Mempool

open Book FinMap List Option

namespace Book

variable {b : Book} {e f : Entry} {id : Hash}

theorem mem_residents : e ∈ b.residents ↔ b.byID.find? e.id = some e := by
  rw [find_eq_some]
  constructor
  · intro he
    obtain ⟨x, hx, rfl⟩ := mem_map.mp he
    rw [b.keyed x hx]
    exact hx
  · intro he
    exact mem_map.mpr ⟨(e.id, e), he, rfl⟩

theorem mem_of_find (hfind : b.byID.find? id = some e) : e ∈ b.residents ∧ e.id = id := by
  have hid : e.id = id := b.keyed (id, e) (find_eq_some.mp hfind)
  exact ⟨mem_residents.mpr (hid ▸ hfind), hid⟩

/-- The index knows an id when a resident has it. -/
theorem has_iff : b.has id = true ↔ ∃ e ∈ b.residents, e.id = id := by
  show (b.byID.find? id).isSome = true ↔ _
  constructor
  · intro h
    obtain ⟨e, he⟩ := isSome_iff_exists.mp h
    exact ⟨e, mem_of_find he⟩
  · rintro ⟨e, he, rfl⟩
    rw [mem_residents.mp he]
    rfl

theorem has_eq_false : b.has id = false ↔ ∀ e ∈ b.residents, e.id ≠ id := by
  rw [← Bool.not_eq_true, has_iff]
  simp

theorem eq_of_id (he : e ∈ b.residents) (hf : f ∈ b.residents) (hid : e.id = f.id) : e = f := by
  have hfind := mem_residents.mp he
  rw [hid, mem_residents.mp hf] at hfind
  exact (some.inj hfind).symm

theorem nodup_ids (b : Book) : (b.residents.map Entry.id).Nodup := by
  have hids : b.residents.map Entry.id = b.byID.entries.map Prod.fst := by
    rw [residents, List.map_map]
    exact map_congr_left fun x hx => b.keyed x hx
  rw [hids]
  exact b.byID.nodup_keys

theorem nodup_residents (b : Book) : b.residents.Nodup := List.Nodup.of_map _ b.nodup_ids

/-- The residents after a fresh insertion. -/
theorem mem_insert (hfresh : b.has e.id = false) :
    f ∈ (b.insert e).residents ↔ f = e ∨ f ∈ b.residents := by
  rw [mem_residents, mem_residents]
  show (b.byID.insert e.id e).find? f.id = some f ↔ _
  rw [find_insert]
  split_ifs with hid
  · constructor
    · intro h
      exact .inl (some.inj h).symm
    · rintro (rfl | hf)
      · rfl
      · exact absurd hid (Ne.symm (has_eq_false.mp hfresh f (mem_residents.mpr hf)))
  · constructor
    · exact .inr
    · rintro (rfl | hf)
      · exact absurd rfl hid
      · exact hf

theorem mem_take : f ∈ (b.take e).residents ↔ f ∈ b.residents ∧ f.id ≠ e.id := by
  rw [mem_residents, mem_residents]
  show (b.byID.erase e.id).find? f.id = some f ↔ _
  rw [find_erase]
  split_ifs with hid
  · simp [hid]
  · simp [Ne.symm hid]

/-! ## Sums over the pooled entries -/

/-- A sum over the pooled entries. -/
def total (b : Book) (w : Entry → ℕ) : ℕ := (b.residents.map w).sum

theorem total_eq (b : Book) (w : Entry → ℕ) : b.total w = b.byID.sum fun _ e => w e := by
  rw [total, residents, List.map_map]
  rfl

theorem total_insert (hfresh : b.has e.id = false) (w : Entry → ℕ) :
    (b.insert e).total w = b.total w + w e := by
  have hsum := sum_insert_list (k := e.id) (v := e) (fun _ e => w e) b.byID.sorted
  have hnone : findList e.id b.byID.entries = none :=
    isSome_eq_false_iff.mp hfresh |> isNone_iff_eq_none.mp
  rw [hnone] at hsum
  rw [total_eq, total_eq]
  exact hsum

theorem total_take (he : e ∈ b.residents) (w : Entry → ℕ) :
    (b.take e).total w + w e = b.total w := by
  have hsum := sum_filter_ne (k := e.id) (fun _ e => w e) b.byID.sorted
  have hsome : findList e.id b.byID.entries = some e := mem_residents.mp he
  rw [hsome] at hsum
  rw [total_eq, total_eq]
  exact hsum

theorem length_eq_total (b : Book) : b.residents.length = b.total fun _ => 1 := by
  rw [total, map_const', sum_replicate_nat, Nat.mul_one]

theorem length_insert (hfresh : b.has e.id = false) :
    (b.insert e).residents.length = b.residents.length + 1 := by
  rw [length_eq_total, length_eq_total, total_insert hfresh]

theorem length_take (he : e ∈ b.residents) :
    (b.take e).residents.length + 1 = b.residents.length := by
  rw [length_eq_total, length_eq_total]
  exact total_take he fun _ => 1

theorem total_eq_zero {w : Entry → ℕ} : b.total w = 0 ↔ ∀ e ∈ b.residents, w e = 0 := by
  rw [total, sum_eq_zero_iff]
  simp

end Book

/-! ## Removals -/

section Removal

variable {pool : Pool} {id : Hash} {ids : List Hash} {f : Entry}

theorem remove_locked_cases (pool : Pool) (id : Hash) :
    pool.removeLocked id = pool ∧ pool.book.has id = false ∨
    ∃ e ∈ pool.book.residents, e.id = id ∧ pool.removeLocked id =
      { pool with book := pool.book.take e, hint := { pool.hint with stale := true } } := by
  unfold Pool.removeLocked
  split
  · rename_i hnone
    left
    refine ⟨rfl, ?_⟩
    show (pool.book.byID.find? id).isSome = false
    rw [hnone]
    rfl
  · rename_i e hsome
    obtain ⟨he, hid⟩ := mem_of_find hsome
    exact .inr ⟨e, he, hid, rfl⟩

@[simp] theorem policy_remove_locked : (pool.removeLocked id).policy = pool.policy := by
  rcases remove_locked_cases pool id with ⟨h, -⟩ | ⟨e, -, -, h⟩ <;> rw [h]

variable {P : Book → Prop}

/-- What taking one entry out keeps, dropping an id keeps. -/
theorem book_remove_locked (htake : ∀ b e, e ∈ b.residents → P b → P (b.take e)) (h : P pool.book) :
    P (pool.removeLocked id).book := by
  rcases remove_locked_cases pool id with ⟨heq, -⟩ | ⟨e, he, -, heq⟩ <;> rw [heq]
  · exact h
  · exact htake _ e he h

theorem mem_remove_locked :
    f ∈ (pool.removeLocked id).book.residents ↔ f ∈ pool.book.residents ∧ f.id ≠ id := by
  rcases remove_locked_cases pool id with ⟨heq, hno⟩ | ⟨e, -, rfl, heq⟩ <;> rw [heq]
  · constructor
    · intro hf
      exact ⟨hf, has_eq_false.mp hno f hf⟩
    · exact And.left
  · exact mem_take

@[simp] theorem book_count_evicted : pool.countEvicted.book = pool.book := rfl

@[simp] theorem policy_count_evicted : pool.countEvicted.policy = pool.policy := rfl

@[simp] theorem policy_count_rejected : pool.countRejected.policy = pool.policy := rfl

section

variable (htake : ∀ b e, e ∈ b.residents → P b → P (b.take e))

include htake

theorem book_remove (h : P pool.book) : P (pool.remove ids).book :=
  ids.foldlRecOn (motive := fun pool : Pool => P pool.book) _ h fun _ h _ _ =>
    book_remove_locked htake h

/-- What taking one entry out keeps, evicting a list of ids keeps. -/
theorem book_evict_all (h : P pool.book) : P (pool.evictAll ids).book :=
  ids.foldlRecOn (motive := fun pool : Pool => P pool.book) _ h fun _ h _ _ =>
    book_remove_locked htake h

end

theorem mem_remove :
    f ∈ (pool.remove ids).book.residents ↔ f ∈ pool.book.residents ∧ f.id ∉ ids := by
  induction ids generalizing pool with
  | nil => simp [Pool.remove]
  | cons id rest ih =>
    show f ∈ ((pool.removeLocked id).remove rest).book.residents ↔ _
    rw [ih, mem_remove_locked, mem_cons, not_or, and_assoc]

theorem mem_evict_all :
    f ∈ (pool.evictAll ids).book.residents ↔ f ∈ pool.book.residents ∧ f.id ∉ ids := by
  induction ids generalizing pool with
  | nil => simp [Pool.evictAll]
  | cons id rest ih =>
    show f ∈ ((pool.removeLocked id).countEvicted.evictAll rest).book.residents ↔ _
    rw [ih, book_count_evicted, mem_remove_locked, mem_cons, not_or, and_assoc]

@[simp] theorem policy_remove : (pool.remove ids).policy = pool.policy := by
  induction ids generalizing pool with
  | nil => rfl
  | cons id rest ih => exact ih.trans policy_remove_locked

@[simp] theorem policy_evict_all : (pool.evictAll ids).policy = pool.policy := by
  induction ids generalizing pool with
  | nil => rfl
  | cons id rest ih => exact (@ih (pool.removeLocked id).countEvicted).trans policy_remove_locked

end Removal

end Zycord.Mempool
