import Zycord.Chain.ForkChoice
import Zycord.Storage.Crash
import Zycord.Validity.Decodable

/-!
# The canonical chain of a store

`Canonical p damage log c` says that the blocks of `log`, newest first, are the chain that `c` is
on: memory holds the state they fold to, and the store holds their records and no others. Where
`damage` is admitted, a record of a block may be gone or no longer decode; nothing that still
reads is wrong.

A transaction of the chain is staged in parts, and each part has a lemma of its own about the
records (`Stored`): the state keys, the records of the removed blocks, those of the new blocks, the
undo logs that fall behind the horizon, and the metadata.
-/

namespace Zycord.Chain

open Except List Option Storage Validity
open Fold (ChainLog Run)

/-! ## Commits -/

theorem apply_batch_append (live : Live) (cs cs' : List Change) :
    applyBatch live (batchOf (cs ++ cs')) =
      applyBatch (applyBatch live (batchOf cs)) (batchOf cs') := by
  rw [batchOf, map_append]
  exact foldl_append

theorem flatten_group_parts (current : Batch) (size : ℕ) (ms : List Mutation) :
    (groupParts current size ms).flatten = current ++ ms := by
  induction ms generalizing current size with
  | nil => simp [groupParts]
  | cons m rest ih =>
    rw [groupParts]
    split
    · rw [flatten_cons, ih]
      rfl
    · rw [ih, append_assoc]
      rfl

theorem flatten_batch_group (b : Batch) : (batchGroup b).flatten = b := flatten_group_parts [] 0 b

/-- A part grows past the budget only when it holds one mutation. -/
theorem group_parts_within {current : Batch} {size : ℕ} (ms : List Mutation)
    (hsize : size = batchSize current)
    (hfits : current.length ≤ 1 ∨ size ≤ mutationBudget) :
    ∀ part ∈ groupParts current size ms, part.length ≤ 1 ∨ batchSize part ≤ mutationBudget := by
  fun_induction groupParts current size ms with
  | case1 current size => exact forall_mem_singleton.mpr (hsize ▸ hfits)
  | case2 current size m rest hroll ih =>
    exact forall_mem_cons.mpr ⟨hsize ▸ hfits, ih (by simp [batchSize]) (.inl le_rfl)⟩
  | case3 current size m rest hroll ih =>
    refine ih (by simp [batchSize, hsize]) ?_
    by_cases hempty : current = []
    · exact .inl (by simp [hempty])
    · exact .inr (not_lt.mp fun hlt => hroll ⟨hempty, hlt⟩)

theorem group_parts_ne_nil {current : Batch} {size : ℕ} (ms : List Mutation)
    (hcurrent : current ≠ []) : ∀ part ∈ groupParts current size ms, part ≠ [] := by
  fun_induction groupParts current size ms with
  | case1 => exact forall_mem_singleton.mpr hcurrent
  | case2 current size m rest hroll ih => exact forall_mem_cons.mpr ⟨hcurrent, ih (by simp)⟩
  | case3 current size m rest hroll ih => exact ih (by simp)

/-- The parts of a transaction are its mutations in order. None is empty beside another, a part of
several mutations stays within the budget and, escaped, within a record, and the store refuses the
parts only when a mutation by itself is too large for a record. -/
theorem batch_group_fits (b : Batch) :
    (batchGroup b).flatten = b ∧ ((∀ part ∈ batchGroup b, part ≠ []) ∨ batchGroup b = [[]]) ∧
      (∀ part ∈ batchGroup b, 1 < part.length →
        (part.flatMap Mutation.encode).length ≤ mutationBudget ∧
          (Storage.escapePayload (part.flatMap Mutation.encode)).length ≤ Storage.maxRecordLen) ∧
      ((∀ m ∈ b, Storage.Recordable [m]) →
        ∀ memory : Storage.Memory, ∃ plan, memory.commitGroup (batchGroup b) = .ok plan) := by
  have hparts : ∀ part ∈ batchGroup b, 1 < part.length →
      (part.flatMap Mutation.encode).length ≤ mutationBudget ∧
        (Storage.escapePayload (part.flatMap Mutation.encode)).length ≤ Storage.maxRecordLen := by
    intro part hpart hmany
    have hwithin := (group_parts_within b rfl (.inl (by simp)) part hpart).resolve_left
      (not_le.mpr hmany)
    have hescape := Storage.length_escape_payload_le (part.flatMap Mutation.encode)
    rw [Storage.length_flat_map_encode] at hescape ⊢
    refine ⟨hwithin, hescape.trans ?_⟩
    unfold mutationBudget at hwithin
    omega
  refine ⟨flatten_batch_group b, ?_, hparts, fun hsingle memory => ?_⟩
  · cases b with
    | nil => exact .inr rfl
    | cons m rest =>
      refine .inl ?_
      rw [batchGroup, groupParts, if_neg (by simp)]
      exact group_parts_ne_nil rest (by simp)
  · refine Storage.commit_group_recordable memory fun part hpart => ?_
    obtain ⟨hpart, hne⟩ := mem_filter.mp hpart
    rcases part with _ | ⟨m, _ | ⟨m', rest⟩⟩
    · simp at hne
    · exact hsingle m (flatten_batch_group b ▸ mem_flatten.mpr ⟨_, hpart, mem_singleton_self m⟩)
    · obtain ⟨hbudget, hescape⟩ := hparts _ hpart (by simp)
      rw [Storage.length_flat_map_encode] at hbudget
      exact ⟨hbudget.trans (by decide), hescape⟩

variable {lands : Bool} {m m' : Memory} {changes : List Change}

theorem plan_of_commit_store {call : Call} (h : commitStore lands m call = .ok m') :
    ∃ steps, m.plan call = .ok (steps, m') := by
  unfold commitStore at h
  split_ifs at h
  split at h
  · cases h
  · rename_i steps plan hplan
    cases h
    exact ⟨steps, hplan⟩

theorem lands_of_commit_store {call : Call} (h : commitStore lands m call = .ok m') :
    lands = true := by
  unfold commitStore at h
  split_ifs at h with hlands
  exact hlands

/-- A commit that returns has applied its batch, and every mutation fits a record. -/
theorem commit_store_eq_ok {call : Call} (h : commitStore lands m call = .ok m') :
    m'.live = applyBatch m.live call.transaction.flatten ∧
      ∀ mu ∈ call.transaction.flatten, mu.Fits := by
  obtain ⟨steps, hplan⟩ := plan_of_commit_store h
  rcases plan_cases hplan with ⟨hnil, -, rfl⟩ | ⟨hnil, -, rfl⟩ | htransacts
  · rw [hnil]
    exact ⟨rfl, by simp⟩
  · rw [hnil]
    exact ⟨rfl, by simp⟩
  · obtain ⟨records, pieces, hencode, -, -, rfl⟩ := htransacts.writes
    refine ⟨?_, ?_⟩
    · rw [← apply_batches_eq]
      unfold Storage.Memory.compactIfDue
      split <;> rfl
    · intro mu hmu
      obtain ⟨b, hb, hmem⟩ := mem_flatten.mp hmu
      exact fits_of_encode_parts hencode b hb mu hmem

/-- What a commit of a list of changes leaves: the changes applied, each value short. -/
structure Lands (live : Live) (changes : List Change) (live' : Live) : Prop where
  applied : live' = applyBatch live (batchOf changes)
  short : ∀ c ∈ changes, ∀ v ∈ c.value, v.length < 2 ^ 32

theorem short_of_fits (h : ∀ mu ∈ batchOf changes, mu.Fits) :
    ∀ c ∈ changes, ∀ v ∈ c.value, v.length < 2 ^ 32 := by
  rintro ⟨key, value⟩ hc v rfl
  exact (h _ (mem_map_of_mem hc)).2

theorem lands_of_commit (h : commitStore lands m (.commit (batchOf changes)) = .ok m') :
    Lands m.live changes m'.live := by
  obtain ⟨hlive, hfits⟩ := commit_store_eq_ok h
  have hflat : (Storage.Call.commit (batchOf changes)).transaction.flatten = batchOf changes := by
    simp only [Storage.Call.transaction]
    split <;> simp_all
  rw [hflat] at hlive hfits
  exact ⟨hlive, short_of_fits hfits⟩

theorem lands_of_commit_group
    (h : commitStore lands m (.commitGroup (batchGroup (batchOf changes))) = .ok m') :
    Lands m.live changes m'.live := by
  obtain ⟨hlive, hfits⟩ := commit_store_eq_ok h
  rw [Storage.Call.transaction, flatten_filter_ne_nil, flatten_batch_group] at hlive hfits
  exact ⟨hlive, short_of_fits hfits⟩

/-! ## What a chain keeps -/

section

variable [Crypto]

/-- Every block names the one below it as its parent. -/
def Linked (log : ChainLog) : Prop :=
  log.IsChain fun e below => e.1.header.parentID = below.1.header.id

/-- Keys under which the state is kept. -/
def Key.OfState : Key → Prop
  | .cell _ => True
  | .spent _ => True
  | .seen _ => True
  | _ => False

/-- A record of a block that cannot be read: it is gone, or its content does not decode. -/
def Unreadable (p : Params) : Key → Option Bytes → Prop
  | .header _, v => ∀ raw ∈ v, ∀ h, unmarshalHeader raw ≠ .ok h
  | .block _, v => ∀ raw ∈ v, ∀ b, unmarshalBlock raw p ≠ .ok b
  | .undo _, v => ∀ raw ∈ v, ∀ log, decodeUndo raw ≠ .ok log
  | .index _, v => v = none
  | _, _ => False

/-- A record is as wanted, or damaged where damage is allowed for. -/
def Keeps (p : Params) (damage : Prop) (live : Live) (k : Key) (want : Option Bytes) : Prop :=
  get live k = want ∨ damage ∧ Unreadable p k (get live k)

-- read off the option, where an instance for finite types would try every height

/-- Whether a height is above the bookmark can be decided. -/
instance (priority := 1100) decidableUnpruned (pruned : Option UInt64) (height : UInt64) :
    Decidable (∀ through ∈ pruned, through < height) :=
  Option.decidableForallMem pruned

/-- What is kept of the undo log of a block, by the highest height whose log is deleted. -/
def undoRecord (pruned : Option UInt64) (e : Block × Fold.Result) : Option Bytes :=
  if ∀ through ∈ pruned, through < e.1.header.height then some (encodeUndo e.2.undo) else none

/-- The records of a store are those of a state and of the blocks of a chain. -/
structure Stored (p : Params) (damage : Prop) (pruned : Option UInt64) (log : ChainLog) (s : State)
    (live : Live) : Prop where
  keyed : WellKeyed live
  state : ∀ k, k.OfState → get live k = stateRecord s k
  headers : ∀ e ∈ log, Keeps p damage live (.header e.1.header.id) (some e.1.header.marshal)
  blocks : ∀ e ∈ log, Keeps p damage live (.block e.1.header.id) (some e.1.marshal)
  noBlock : ∀ id, (∀ e ∈ log, e.1.header.id ≠ id) → Keeps p damage live (.block id) none
  index : ∀ e ∈ log, Keeps p damage live (.index e.1.header.height) (some e.1.header.id.bytes)
  noIndex : ∀ h, (∀ e ∈ log, e.1.header.height ≠ h) → Keeps p damage live (.index h) none
  undos : ∀ e ∈ log, Keeps p damage live (.undo e.1.header.id) (undoRecord pruned e)
  noUndo : ∀ id, (∀ e ∈ log, e.1.header.id ≠ id) → Keeps p damage live (.undo id) none
  short : ∀ e ∈ log, e.1.marshal.length < 2 ^ 32 ∧ (encodeUndo e.2.undo).length < 2 ^ 32

/-- The metadata of a store names a tip and the state after it. -/
structure Headed (networkID : Hash) (s : State) (tip : Header) (live : Live) : Prop where
  network : get live (.metadata .network) = some networkID.bytes
  version : get live (.metadata .version) = some (Ssz.uint64 storeVersion)
  height : get live (.metadata .height) = some (Ssz.uint64 tip.height)
  tipID : get live (.metadata .tip) = some tip.id.bytes
  stateRoot : get live (.metadata .stateRoot) = some s.root.bytes
  pruned : ∀ through ∈ undoPrunedThrough live, through ≤ tip.height

/-- The blocks of `log`, newest first, are the chain that `c` is on. -/
structure Canonical (p : Params) (damage : Prop) (log : ChainLog) (c : Chain) : Prop where
  run : Run p log c.state
  linked : Linked log
  tip : log.head?.map (fun e => e.1.header) = some c.tip
  height : c.height = c.tip.height
  stored : Stored p damage (undoPrunedThrough c.store.live) log c.state c.store.live
  headed : Headed c.networkID c.state c.tip c.store.live

/-! ## Reading -/

variable {p : Params} {damage : Prop} {live : Live} {id : Hash}

omit [Crypto] in
@[simp] theorem copy_hash_bytes (h : Hash) : copyHash h.bytes = h := by
  rw [copyHash, takeD_eq_take _ (by simp), take_of_length_le (by simp), Bytes32.of_bytes_bytes]

variable {h : Header} {b : Block}

omit [Crypto] in
/-- A header is found where its bytes are stored. -/
theorem header_locked_eq_ok :
    headerLocked live id = .ok h ↔ get live (.header id) = some h.marshal := by
  unfold headerLocked
  cases get live (.header id) with
  | none => simp
  | some raw =>
    simp only [map_error_eq_ok, unmarshal_header_eq_ok, some.injEq]
    exact eq_comm

omit [Crypto] in
theorem Keeps.header_eq {h' : Header} (hkeeps : Keeps p damage live (.header id) (some h.marshal))
    (hread : headerLocked live id = .ok h') : h' = h := by
  have hget := header_locked_eq_ok.mp hread
  rcases hkeeps with hsome | ⟨-, hbad⟩
  · rw [hsome, some.injEq] at hget
    have h₁ := unmarshal_header_eq_ok.mpr hget.symm
    rw [unmarshal_header_eq_ok.mpr rfl] at h₁
    exact (ok.inj h₁).symm
  · exact absurd (unmarshal_header_eq_ok.mpr rfl) (hbad _ hget h')

omit [Crypto] in
theorem Keeps.block_eq {b' : Block} (hcanonical : ∀ c ∈ b.certs, c.Canonical p)
    (hshort : b.marshal.length < 2 ^ 32)
    (hkeeps : Keeps p damage live (.block id) (some b.marshal))
    (hread : blockLocked p live id = .ok b') : b' = b := by
  unfold blockLocked at hread
  rcases hkeeps with hsome | ⟨-, hbad⟩
  · rw [hsome] at hread
    exact unmarshal_block_marshal hcanonical hshort (map_error_eq_ok.mp hread)
  · split at hread
    · cases hread
    · rename_i raw hraw
      exact absurd (map_error_eq_ok.mp hread) (hbad raw hraw b')

omit [Crypto] in
/-- An undo log that still reads is the one that was stored, and was not pruned. -/
theorem Keeps.undo_eq {pruned : Option UInt64} {e : Block × Fold.Result} {raw : Bytes}
    {log : UndoLog} (hshort : (encodeUndo e.2.undo).length < 2 ^ 32)
    (hkeeps : Keeps p damage live (.undo id) (undoRecord pruned e))
    (hraw : get live (.undo id) = some raw) (hread : decodeUndo raw = .ok log) :
    log = e.2.undo ∧ ∀ through ∈ pruned, through < e.1.header.height := by
  rcases hkeeps with hsome | ⟨-, hbad⟩
  · rw [hraw, undoRecord] at hsome
    split at hsome
    · rename_i hretained
      obtain rfl := some.inj hsome
      have hfits := fits_of_length (hshort.trans (by decide))
      rw [decode_encode_undo hfits] at hread
      exact ⟨(ok.inj hread).symm, hretained⟩
    · simp at hsome
  · exact absurd hread (hbad raw hraw log)

omit [Crypto] in
theorem Keeps.index_eq {h : UInt64} {id' : Hash}
    (hkeeps : Keeps p damage live (.index h) (some id.bytes))
    (hread : canonicalIDAt live h = some id') : id' = id := by
  unfold canonicalIDAt at hread
  rcases hkeeps with hsome | ⟨-, hbad⟩
  · rw [hsome, map_some, copy_hash_bytes, some.injEq] at hread
    exact hread.symm
  · rw [show get live (.index h) = none from hbad] at hread
    simp at hread

omit [Crypto] in
theorem Keeps.no_index {h : UInt64} (hkeeps : Keeps p damage live (.index h) none) :
    canonicalIDAt live h = none := by
  unfold canonicalIDAt
  rcases hkeeps with hnone | ⟨-, hbad⟩
  · rw [hnone]
    rfl
  · rw [show get live (.index h) = none from hbad]
    rfl

theorem canonical_of_apply {s s' : State} {r : Fold.Result}
    (h : Fold.applyBlock s b p = (.ok r, s')) : ∀ c ∈ b.certs, c.Canonical p := by
  obtain ⟨hok, -⟩ := Fold.apply_eq_ok h
  intro c hc
  have hcheck := (hok.certs c hc).checked
  rw [check, seq_eq_ok] at hcheck
  exact canonical_of_check hcheck.1

end

end Zycord.Chain
