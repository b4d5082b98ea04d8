import Zycord.Chain.TotalWork
import Zycord.Fold.Trace

/-!
# What is persisted is what is in memory

`load` scans the state records and puts them into an empty state. The keys under a prefix are those
of one kind of record (`scan_prefix_eq`), so the scans rebuild exactly the state that the records
describe (`load_state_eq`), and the metadata names the height and the tip that memory has
(`Canonical.load`). The main result, `reload_eq_memory`, holds after every sequence of calls.
-/

namespace Zycord.Chain

open Except FinMap List Option Set Ssz State
open Storage (Live applyBatch)
open Fold (ChainLog Run)

/-! ## Scanning -/

theorem mem_scan {live : Live} {letter : UInt8} {r : Bytes × Bytes} :
    r ∈ scanPrefix live letter ↔ live.find? (Key.tag letter ++ r.1) = some r.2 := by
  simp only [scanPrefix, List.mem_map, List.mem_filter, decide_eq_true_eq, FinMap.find_eq_some]
  constructor
  · rintro ⟨⟨key, v⟩, ⟨hmem, htag⟩, rfl⟩
    have hkey : Key.tag letter ++ key.drop 2 = key := by rw [← htag, List.take_append_drop]
    rwa [hkey]
  · intro hmem
    exact ⟨_, ⟨hmem, by simp [Key.tag]⟩, by simp [Key.tag]⟩

/-- The records under the prefix of one kind of key, in some order. -/
theorem scan_prefix_eq {live : Live} {α : Type} (key : α → Key) (letter : UInt8)
    (hkeyed : WellKeyed live) (hinj : Function.Injective key)
    (hkind : ∀ k : Key, k.letter = letter ↔ ∃ a, k = key a) :
    ∃ xs : List α, (∀ a, a ∈ xs ↔ (get live (key a)).isSome = true) ∧
      scanPrefix live letter = xs.map fun a => ((key a).body, (get live (key a)).getD []) := by
  have hletter : ∀ a, (key a).letter = letter := fun a => (hkind _).mpr ⟨a, rfl⟩
  have hbytes : ∀ a, (key a).bytes = Key.tag letter ++ (key a).body := by
    intro a
    rw [Key.bytes, hletter a]
  -- every record that is found has a key of this kind
  have hfound : ∀ r ∈ scanPrefix live letter,
      r ∈ range fun a => ((key a).body, (get live (key a)).getD []) := by
    intro r hr
    have hfind := mem_scan.mp hr
    obtain ⟨k, hk⟩ := hkeyed _ (find_eq_some.mp hfind)
    obtain ⟨htag, hbody⟩ := append_inj hk rfl
    obtain ⟨a, rfl⟩ := (hkind k).mp (by simpa [Key.tag] using htag.symm)
    refine ⟨a, Prod.ext hbody.symm ?_⟩
    rw [hbody, ← hbytes] at hfind
    show (get live (key a)).getD [] = r.2
    rw [get, hfind]
    rfl
  obtain ⟨xs, hxs⟩ : scanPrefix live letter ∈ range
      (map fun a => ((key a).body, (get live (key a)).getD [])) := by
    rw [range_list_map]
    exact hfound
  refine ⟨xs, fun a => ?_, hxs.symm⟩
  constructor
  · intro ha
    have hmem := mem_map_of_mem (f := fun a => ((key a).body, (get live (key a)).getD [])) ha
    rw [show xs.map _ = _ from hxs, mem_scan] at hmem
    rw [get, hbytes, hmem]
    rfl
  · intro hsome
    obtain ⟨v, hv⟩ := isSome_iff_exists.mp hsome
    have hmem : ((key a).body, v) ∈ scanPrefix live letter := by
      rw [mem_scan, ← hbytes]
      exact hv
    rw [← hxs] at hmem
    obtain ⟨a', ha', heq⟩ := mem_map.mp hmem
    have hsame : (key a').bytes = (key a).bytes := by
      rw [hbytes, hbytes, (Prod.mk.inj heq).1]
    exact hinj (Key.bytes_injective hsame) ▸ ha'

/-! ## Rebuilding the state -/

theorem load_cell_eq (s : State) (slot : Slot) (v : U256) :
    loadCell s (slot.marshal, v.bytes32.bytes) = .ok (s.set slot v) := by
  simp [loadCell, rejectIf, Slot.marshal]
  rfl

theorem load_spent_eq (s : State) (a : Address) (v : Bytes) :
    loadSpent s (a.bytes, v) = .ok (s.markSpent a) := by
  simp [loadSpent, rejectIf]

theorem load_seen_eq (s : State) (id : Hash) (ttl : UInt64) :
    loadSeen s (id.bytes, uint64 ttl) = .ok (s.markSeen id ttl) := by
  simp [loadSeen, rejectIf]
  rfl

theorem foldlM_map_eq_ok {α β σ ε : Type} {f : σ → β → Except ε σ} {g : α → β} {h : σ → α → σ}
    {xs : List α} (hstep : ∀ s, ∀ a ∈ xs, f s (g a) = .ok (h s a)) (s : σ) :
    (xs.map g).foldlM f s = .ok (xs.foldl h s) := by
  induction xs generalizing s with
  | nil => rfl
  | cons a rest ih =>
    obtain ⟨hhead, hrest⟩ : f s (g a) = .ok (h s a) ∧ ∀ s, ∀ a ∈ rest, f s (g a) = .ok (h s a) :=
      ⟨hstep s a mem_cons_self, fun s a ha => hstep s a (mem_cons_of_mem _ ha)⟩
    rw [map_cons, foldlM_cons, hhead]
    exact ih hrest (h s a)

theorem get_foldl_set (xs : List Slot) (v : Slot → U256) (s : State) (slot : Slot) :
    (xs.foldl (fun s a => s.set a (v a)) s).get slot =
      if slot ∈ xs then v slot else s.get slot := by
  induction xs generalizing s with
  | nil => rfl
  | cons a rest ih =>
    rw [foldl_cons, ih, get_set]
    by_cases hrest : slot ∈ rest
    · simp [hrest]
    · by_cases heq : a = slot
      · simp [heq]
      · simp [hrest, heq, Ne.symm heq]

theorem foldl_set_frame (xs : List Slot) (v : Slot → U256) (s : State) :
    (xs.foldl (fun s a => s.set a (v a)) s).spent = s.spent ∧
      (xs.foldl (fun s a => s.set a (v a)) s).seen = s.seen := by
  induction xs generalizing s with
  | nil => exact ⟨rfl, rfl⟩
  | cons a rest ih => exact ih (s.set a (v a))

theorem foldl_mark_spent (xs : List Address) (s : State) :
    (xs.foldl markSpent s).cells = s.cells ∧ (xs.foldl markSpent s).seen = s.seen ∧
      ∀ a, (xs.foldl markSpent s).isSpent a = (decide (a ∈ xs) || s.isSpent a) := by
  induction xs generalizing s with
  | nil => simp
  | cons x rest ih =>
    obtain ⟨hcells, hseen, hspent⟩ := ih (s.markSpent x)
    refine ⟨hcells, hseen, fun a => ?_⟩
    rw [foldl_cons, hspent, is_spent_mark_spent]
    by_cases heq : x = a
    · simp [heq]
    · simp [heq, Ne.symm heq]

theorem foldl_mark_seen (xs : List Hash) (ttl : Hash → UInt64) (s : State) :
    (xs.foldl (fun s id => s.markSeen id (ttl id)) s).cells = s.cells ∧
      (xs.foldl (fun s id => s.markSeen id (ttl id)) s).spent = s.spent ∧
      ∀ id, (xs.foldl (fun s id => s.markSeen id (ttl id)) s).seenTTL id =
        if id ∈ xs then some (ttl id) else s.seenTTL id := by
  induction xs generalizing s with
  | nil => simp
  | cons x rest ih =>
    obtain ⟨hcells, hspent, hseen⟩ := ih (s.markSeen x (ttl x))
    refine ⟨hcells, hspent, fun id => ?_⟩
    rw [foldl_cons, hseen, seen_ttl_mark_seen]
    by_cases hrest : id ∈ rest
    · simp [hrest]
    · by_cases heq : x = id
      · simp [heq]
      · simp [hrest, heq, Ne.symm heq]

section

variable {live : Live} {s : State} (hkeyed : WellKeyed live)
  (hstate : ∀ k : Key, k.OfState → get live k = stateRecord s k)

include hkeyed hstate

/-- Loading the cell records gives back the cells. -/
theorem load_cells_eq : ∃ s₁, (scanPrefix live 0x63).foldlM loadCell new = .ok s₁ ∧
    s₁.cells = s.cells ∧ s₁.spent = empty ∧ s₁.seen = empty := by
  obtain ⟨slots, hslots, hscan⟩ := scan_prefix_eq Key.cell 0x63 hkeyed
    (fun _ _ => Key.cell.inj) (by rintro (_ | _) <;> simp [Key.letter])
  have hmem : ∀ slot, slot ∈ slots ↔ (s.get slot).isZero = false := by
    intro slot
    rw [hslots, hstate (.cell slot) trivial, stateRecord]
    cases (s.get slot).isZero <;> simp
  refine ⟨slots.foldl (fun s' a => s'.set a (s.get a)) new, ?_, ?_, foldl_set_frame slots s.get new⟩
  · rw [hscan]
    refine foldlM_map_eq_ok (fun s' a ha => ?_) new
    rw [hstate (.cell a) trivial, stateRecord, if_neg (by simp [(hmem a).mp ha])]
    exact load_cell_eq s' a (s.get a)
  · refine FinFun.ext_get fun slot => ?_
    show State.get _ slot = s.get slot
    rw [get_foldl_set]
    split_ifs with hnot
    · rfl
    · rw [hmem, Bool.not_eq_false, U256.isZero, decide_eq_true_eq] at hnot
      rw [hnot]
      rfl

/-- Loading the spent records gives back the spent set. -/
theorem load_spent_scan_eq (s₁ : State) (hempty : s₁.spent = empty) :
    ∃ s₂, (scanPrefix live 0x73).foldlM loadSpent s₁ = .ok s₂ ∧
      s₂.cells = s₁.cells ∧ s₂.spent = s.spent ∧ s₂.seen = s₁.seen := by
  obtain ⟨addrs, haddrs, hscan⟩ := scan_prefix_eq Key.spent 0x73 hkeyed
    (fun _ _ => Key.spent.inj) (by rintro (_ | _) <;> simp [Key.letter])
  have hmem : ∀ a, a ∈ addrs ↔ s.isSpent a = true := by
    intro a
    rw [haddrs, hstate (.spent a) trivial, stateRecord]
    cases s.isSpent a <;> simp
  obtain ⟨hcells, hseen, hspent⟩ := foldl_mark_spent addrs s₁
  refine ⟨addrs.foldl markSpent s₁, ?_, hcells, ?_, hseen⟩
  · rw [hscan]
    exact foldlM_map_eq_ok (fun s' a _ => load_spent_eq s' a _) s₁
  · refine ext_contains fun a => ?_
    show isSpent _ a = s.isSpent a
    rw [hspent, show s₁.isSpent a = false by rw [isSpent, hempty]; rfl, Bool.or_false]
    simp [hmem]

/-- Loading the seen records gives back the replay set. -/
theorem load_seen_scan_eq (s₂ : State) (hempty : s₂.seen = empty) :
    ∃ s₃, (scanPrefix live 0x6e).foldlM loadSeen s₂ = .ok s₃ ∧
      s₃.cells = s₂.cells ∧ s₃.spent = s₂.spent ∧ s₃.seen = s.seen := by
  obtain ⟨ids, hids, hscan⟩ := scan_prefix_eq Key.seen 0x6e hkeyed
    (fun _ _ => Key.seen.inj) (by rintro (_ | _) <;> simp [Key.letter])
  have hmem : ∀ id, id ∈ ids ↔ (s.seenTTL id).isSome = true := by
    intro id
    rw [hids, hstate (.seen id) trivial, stateRecord, isSome_map]
  obtain ⟨hcells, hspent, hseen⟩ := foldl_mark_seen ids (fun id => (s.seenTTL id).getD 0) s₂
  refine ⟨ids.foldl (fun s' id => s'.markSeen id ((s.seenTTL id).getD 0)) s₂, ?_, hcells,
    hspent, ?_⟩
  · rw [hscan]
    refine foldlM_map_eq_ok (fun s' id hid => ?_) s₂
    obtain ⟨ttl, httl⟩ := isSome_iff_exists.mp ((hmem id).mp hid)
    rw [hstate (.seen id) trivial, stateRecord, httl]
    exact load_seen_eq s' id ttl
  · refine ext_find fun id => ?_
    show seenTTL _ id = s.seenTTL id
    rw [hseen, show s₂.seenTTL id = none by rw [seenTTL, hempty]; rfl]
    split_ifs with hin
    · obtain ⟨ttl, httl⟩ := isSome_iff_exists.mp ((hmem id).mp hin)
      rw [httl]
      rfl
    · rw [hmem, not_isSome_iff_eq_none] at hin
      exact hin.symm

/-- The records of a state rebuild it. -/
theorem load_state_eq : loadState live = .ok s := by
  obtain ⟨s₁, hfirst, hcells₁, hspent₁, hseen₁⟩ := load_cells_eq hkeyed hstate
  obtain ⟨s₂, hsecond, hcells₂, hspent₂, hseen₂⟩ := load_spent_scan_eq hkeyed hstate s₁ hspent₁
  obtain ⟨s₃, hthird, hcells₃, hspent₃, hseen₃⟩ :=
    load_seen_scan_eq hkeyed hstate s₂ (hseen₂.trans hseen₁)
  have heq : s₃ = s := ext ((hcells₃.trans hcells₂).trans hcells₁)
    (hspent₃.trans hspent₂) hseen₃
  simp only [loadState, bind_eq_ok]
  exact ⟨s₁, hfirst, s₂, hsecond, heq ▸ hthird⟩

end

/-! ## Loading a chain -/

section

variable [Crypto] {p : Params} {log : ChainLog} {c : Chain} {hs : Set Header}

section

variable (hc : Canonical p False log c)

include hc

theorem Canonical.boundary_root (hboundary : p.isEpochBoundary c.height = true) :
    c.tip.stateRoot = c.state.root := by
  obtain ⟨e, he, htip⟩ := map_eq_some_iff.mp hc.tip
  obtain ⟨rest, rfl⟩ : ∃ rest, log = e :: rest := head?_eq_some_iff.mp he
  obtain ⟨s₀, -, -, happly⟩ := hc.run.of_cons
  obtain ⟨tr, hyields⟩ := Fold.block_trace happly
  rw [hc.height, ← htip] at hboundary
  rw [← htip]
  exact hyields.root hboundary

/-- Loading a canonical chain gives what memory holds; only the counters are those on disk. -/
theorem Canonical.load : ∃ stats, Chain.load p c.networkID c.store = .ok { c with stats } := by
  obtain ⟨e, he, htip⟩ := hc.tip_mem
  have hstate := load_state_eq hc.stored.keyed hc.stored.state
  have hheader : headerLocked c.store.live c.tip.id = .ok c.tip := by
    rw [← htip]
    exact header_locked_eq_ok.mpr (hc.stored.headers e he).eq
  have hboundary : ¬ (p.isEpochBoundary c.tip.height = true ∧ c.tip.stateRoot ≠ c.state.root) := by
    rintro ⟨hboundary, hne⟩
    exact hne (hc.boundary_root (hc.height ▸ hboundary))
  refine ⟨((get c.store.live (.metadata .stats)).map decodeStats).getD .zero, ?_⟩
  simp only [Chain.load, bind_eq_ok, reject_if_eq_ok, pure_eq_ok]
  refine ⟨c.state, hstate, _, by rw [hc.headed.height]; rfl, (), by simp, _,
    by rw [hc.headed.tipID]; rfl, c.tip, by rw [copy_hash_bytes]; exact hheader, _,
    by rw [hc.headed.stateRoot]; rfl, (), by simp, (), by simp, (), ?_, ?_⟩
  · rw [read_uint64_uint64, copy_hash_bytes]
    exact hboundary
  · rw [read_uint64_uint64, ← hc.height]

theorem Canonical.reopen {g : Block} (hbuilt : buildGenesis p = .ok g)
    (hnetwork : c.networkID = g.header.id) (lands : Bool) :
    openWith p lands c.store = Chain.load p c.networkID c.store := by
  have hversion : ¬ ∃ raw ∈ get c.store.live (.metadata .version),
      raw.length ≠ 8 ∨ readUint64 raw ≠ storeVersion := by
    rintro ⟨raw, hraw, hbad⟩
    rw [hc.headed.version, mem_some_iff] at hraw
    subst hraw
    simp at hbad
  rw [openWith, hbuilt]
  show (rejectIf _ _ >>= fun _ => _) = _
  rw [rejectIf, if_neg hversion]
  simp only [hc.headed.network]
  rw [copy_hash_bytes, hnetwork, rejectIf, if_neg (not_not.mpr rfl)]
  rfl

end

/-- The records of a store are those of the blocks of a chain: every height is indexed with the id
of its block and no other height is, every header reads back, and the bodies are those of the
blocks and no others. -/
structure RecordsAre (log : ChainLog) (live : Live) : Prop where
  index : ∀ h id, canonicalIDAt live h = some id ↔
    ∃ e ∈ log, e.1.header.height = h ∧ e.1.header.id = id
  headers : ∀ e ∈ log, headerLocked live e.1.header.id = .ok e.1.header
  bodies : ∀ id raw, get live (.block id) = some raw ↔
    ∃ e ∈ log, e.1.header.id = id ∧ e.1.marshal = raw

/-- A canonical store holds the records of its log. -/
theorem Canonical.records_are (hc : Canonical p False log c) : RecordsAre log c.store.live where
  index := fun h id => by
    refine ⟨hc.stored.mem_of_index, ?_⟩
    rintro ⟨e, he, rfl, rfl⟩
    exact canonical_id_at hc he
  headers := fun e he => header_locked_eq_ok.mpr (hc.stored.headers e he).eq
  bodies := fun id raw => by
    constructor
    · intro hget
      by_cases hmem : ∃ e ∈ log, e.1.header.id = id
      · obtain ⟨e, he, rfl⟩ := hmem
        rw [(hc.stored.blocks e he).eq] at hget
        exact ⟨e, he, rfl, some.inj hget⟩
      · rw [(hc.stored.noBlock id fun e he heq => hmem ⟨e, he, heq⟩).eq] at hget
        cases hget
    · rintro ⟨e, he, rfl, rfl⟩
      exact (hc.stored.blocks e he).eq

theorem Moves.network {call : Action × Bool} {c' : Chain} {log' : ChainLog}
    (h : Moves p log c call c' log') : c'.networkID = c.networkID := by
  cases h with
  | stays h | grows _ h | switches _ h => exact h.networkID
  | shrinks _ _ _ hnetwork => exact hnetwork

/-- The open store holds what memory holds: loading it gives the state, the height and the tip that
memory has, and the records are those of the blocks whose fold that state is. -/
structure Reloads (p : Params) (c : Chain) : Prop where
  loads : ∃ stats, Chain.load p c.networkID c.store = .ok { c with stats }
  opens : ∀ lands, openWith p lands c.store = Chain.load p c.networkID c.store
  records : ∃ log, Run p log c.state ∧ Linked log ∧ log.length = c.height.toNat + 1 ∧
    log.head?.map (fun e => e.1.header) = some c.tip ∧ RecordsAre log c.store.live

theorem Canonical.reloads (hc : Canonical p False log c) {g : Block}
    (hbuilt : buildGenesis p = .ok g) (hnetwork : c.networkID = g.header.id) : Reloads p c :=
  ⟨hc.load, hc.reopen hbuilt hnetwork, log, hc.run, hc.linked, hc.height_succ.symm, hc.tip,
    hc.records_are⟩

/-- After any sequence of calls, whichever of their commits land, the open store holds what memory
holds. -/
theorem reloads_of_run {lands : Bool} {store : Storage.Memory} {c₀ : Chain}
    (calls : List (Action × Bool)) (hp : p.validate = .ok ()) (hnc : NoCollision p hs)
    (hempty : store.live = FinMap.empty) (hopen : openWith p lands store = .ok c₀)
    (hgenesis : c₀.tip ∈ hs) (hcalls : ∀ call ∈ calls, ∀ h ∈ call.1.headers, h ∈ hs) :
    Reloads p (runCalls p c₀ calls) := by
  obtain ⟨e, hbuilt, hc₀⟩ : ∃ e, buildGenesis p = .ok e.1 ∧ Canonical p False [e] c₀ :=
    open_canonical hempty hopen
  have htip : e.1.header = c₀.tip := some.inj hc₀.tip
  have hlog₀ : ∀ e' ∈ [e], e'.1.header ∈ hs := by simpa [htip] using hgenesis
  have hnetwork₀ : c₀.networkID = e.1.header.id := by
    obtain ⟨b, -, hbuilt', -, -, -, hnetwork, -⟩ := open_empty_eq_ok hempty hopen
    rw [hnetwork, ok.inj (hbuilt.symm.trans hbuilt')]
  obtain ⟨log, hc, -, hnetwork⟩ := run_invariant
    (I := fun _ c => c.networkID = e.1.header.id) hnc hc₀ hlog₀ hcalls (fun _ _ _ => hp) hnetwork₀
    fun call _ => fun _ hmoves _ hsame => hmoves.network.trans hsame
  exact hc.reloads hbuilt hnetwork

end

end Zycord.Chain
