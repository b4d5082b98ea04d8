import Zycord.Chain.Stages

/-!
# Opening, extending and rolling back

The calls that move a chain by one block. Opening an empty store leaves the chain of the genesis
block (`open_canonical`). A call of `apply` changes nothing or puts its block on the tip
(`apply_cases`, `Extends.canonical`); a call of `rollback` changes nothing or takes the tip off
(`rollback_cases`).
-/

namespace Zycord.Chain

open Ssz State Storage Except FinMap Fold Params Run Touched List

section

variable [Crypto] {p : Params} {damage : Prop} {log : ChainLog} {s : State} {live : Live}
  {c c' : Chain} {b : Block} {res : Result}

/-- Nothing but counters changed. -/
structure Unchanged (c c' : Chain) : Prop where
  state : c'.state = c.state
  tip : c'.tip = c.tip
  height : c'.height = c.height
  networkID : c'.networkID = c.networkID
  store : c'.store = c.store

/-- One header continues another. -/
def Follows (below above : Header) : Prop :=
  above.parentID = below.id ∧ above.height = below.height + 1

theorem Canonical.tip_mem {c : Chain} (hc : Canonical p damage log c) :
    ∃ e ∈ log, e.1.header = c.tip := by
  obtain ⟨e, he, htip⟩ := Option.map_eq_some_iff.mp hc.tip
  exact ⟨e, mem_of_mem_head? he, htip⟩

theorem Canonical.height_succ {c : Chain} (hc : Canonical p damage log c) :
    c.height.toNat + 1 = log.length := by
  obtain ⟨e, he, htip⟩ := Option.map_eq_some_iff.mp hc.tip
  obtain ⟨rest, rfl⟩ : ∃ rest, log = e :: rest := head?_eq_some_iff.mp he
  obtain ⟨-, -, hheight, -⟩ := hc.run.of_cons
  rw [hc.height, ← htip, hheight, length_cons]

variable {s' : State} {r : Result} {lands : Bool} {store : Memory} {k : Key}
  {e : Block × Result} {undo : UndoLog} {parent : Header} {change : Change}

theorem parent_of_height_zero {b : Block} (h : Fold.applyBlock s b p = (.ok r, s'))
    (hzero : b.header.height = 0) : b.header.parentID = p.consensusRoot := by
  obtain ⟨hok, -⟩ := Fold.apply_eq_ok h
  have hgenesis := hok.genesis
  rw [Fold.checkGenesisShape, if_neg (not_not.mpr hzero)] at hgenesis
  simp only [Fold.invalidIf, Except.seq_eq_ok, reject_if_eq_ok, not_not] at hgenesis
  exact hgenesis.2.1

theorem height_of_follows {prev : Header} {b : Block} (hfollows : Follows prev b.header)
    (hroot : prev.id ≠ p.consensusRoot) (happly : applyBlock s b p = (.ok r, s')) :
    b.header.height.toNat = prev.height.toNat + 1 := by
  have hne : b.header.height ≠ 0 := fun hzero =>
    hroot (hfollows.1.symm.trans (parent_of_height_zero happly hzero))
  have hadd : b.header.height.toNat = (prev.height.toNat + 1) % 2 ^ 64 := by
    rw [hfollows.2]
    rfl
  have hpos : b.header.height.toNat ≠ 0 := fun hzero => hne (UInt64.toNat_inj.mp hzero)
  have hlt := prev.height.toNat_lt
  omega

/-! ## Extending the tip -/

theorem commit_changes_eq :
    commitChanges p c b res = advanceChanges p c.store.live c.networkID
      (empty.record res.undo) c.state [] [(b, res)] b.header (fun _ => none)
      ((totalWork c.store.live).satAdd (blockWork b.header.target)) (c.stats.withBlock res) := by
  simp [commitChanges, advanceChanges, exchangeChanges]

/-- Putting a block on the tip: it follows the tip, it is applied, and the outcome is committed. -/
structure Extends (p : Params) (c : Chain) (b : Block) (res : Fold.Result) (c' : Chain) : Prop where
  follows : Follows c.tip b.header
  applied : Fold.applyBlock c.state b p = (.ok res, c'.state)
  tip : c'.tip = b.header
  height : c'.height = b.header.height
  networkID : c'.networkID = c.networkID
  lands : ∃ stats, Lands c.store.live (advanceChanges p c.store.live c.networkID
    (Touched.empty.record res.undo) c'.state [] [(b, res)] b.header (fun _ => none)
    ((totalWork c.store.live).satAdd (blockWork b.header.target)) stats) c'.store.live

/-- What `apply` can do. -/
theorem apply_cases (lands : Bool) (b : Block) (hc : Canonical p damage log c) :
    (∃ e, (apply p lands c b).1 = .error e ∧ Unchanged c (apply p lands c b).2) ∨
    lands = true ∧ ∃ res, (apply p lands c b).1 = .ok res ∧
      Extends p c b res (apply p lands c b).2 := by
  unfold apply
  split_ifs with hfollows
  · exact .inl ⟨_, rfl, rfl, rfl, rfl, rfl, rfl⟩
  · rw [not_or, not_not, not_not] at hfollows
    split
    · rename_i e s' happly
      exact .inl ⟨_, rfl, Fold.apply_error_eq happly, rfl, rfl, rfl, rfl⟩
    · rename_i res s' happly
      split
      · exact .inl ⟨_, rfl, Fold.undo_apply_eq happly, rfl, rfl, rfl, rfl⟩
      · rename_i c' hcommit
        simp only [commit, Except.bind_eq_ok, Except.pure_eq_ok] at hcommit
        obtain ⟨store, hstore, rfl⟩ := hcommit
        rw [commit_changes_eq] at hstore
        exact .inr ⟨lands_of_commit_store hstore, res, rfl, {
          follows := ⟨hfollows.2, by rw [hfollows.1, hc.height]⟩
          applied := happly
          tip := rfl
          height := rfl
          networkID := rfl
          lands := ⟨_, lands_of_commit hstore⟩ }⟩

/-- After extending, the chain has one block more. -/
theorem Extends.canonical {hs : Set Header} (hc : Canonical p damage log c)
    (h : Extends p c b res c') (hnc : NoCollision p hs) (hlog : ∀ e ∈ log, e.1.header ∈ hs)
    (hb : b.header ∈ hs) : Canonical p damage ((b, res) :: log) c' := by
  obtain ⟨top, htop, htip⟩ := hc.tip_mem
  have hnext := height_of_follows h.follows (htip ▸ hnc.root _ (hlog top htop)) h.applied
  have hsucc := hc.height_succ
  rw [hc.height] at hsucc
  have hrun : Run p ((b, res) :: log) c'.state := hc.run.apply (by omega) h.applied
  have hlinked : Linked ((b, res) :: log) := by
    have hhead := hc.tip
    cases log with
    | nil => cases hhead
    | cons e rest =>
      refine isChain_cons_cons.mpr ⟨?_, hc.linked⟩
      rw [show e.1.header = c.tip from Option.some.inj hhead]
      exact h.follows.1
  obtain ⟨stats, hlands⟩ := h.lands
  rw [← h.networkID, ← h.tip] at hlands
  have hrun' : Run p ([(b, res)] ++ log) c'.state := hrun
  refine canonical_advance (by simpa using hc.stored) hlands
    ((covers_refl _ _).apply h.applied) hrun' hlinked (by rw [h.tip]; rfl)
    (by rw [h.height, h.tip]) (by simp) (distinct hc.run hnc.ids hlog)
    (distinct hrun hnc.ids (forall_mem_cons.mpr ⟨hb, hlog⟩)) ?_ ?_
  · intro through hthrough
    have hle := UInt64.le_iff_toNat_le.mp (hc.headed.pruned through hthrough)
    omega
  · intro height id _ hid
    obtain ⟨e, he, hfound⟩ := hc.stored.mem_of_index hid
    exact ⟨e, mem_append_right _ he, hfound⟩

/-! ## Opening -/

omit [Crypto] in
theorem get_empty (k : Key) : get empty k = none := rfl

theorem stored_empty : Stored p damage none [] new empty where
  keyed := well_keyed_empty
  state := fun k _ => by cases k <;> rfl
  headers := nofun
  blocks := nofun
  noBlock := fun _ _ => .inl rfl
  index := nofun
  noIndex := fun _ _ => .inl rfl
  undos := nofun
  noUndo := fun _ _ => .inl rfl
  short := nofun

theorem build_genesis_eq_ok (h : buildGenesis p = .ok b) :
    b.header.height = 0 ∧ b.header.parentID = p.consensusRoot ∧ b.header.time = p.genesisTime ∧
      b.header.target = p.genesisTarget := by
  simp only [buildGenesis, bind_eq_ok, pure_eq_ok] at h
  obtain ⟨sealed, -, _, -, rfl⟩ := h
  exact ⟨rfl, rfl, rfl, rfl⟩

/-- Opening an empty store builds genesis, applies it and commits it. -/
theorem open_empty_eq_ok (hempty : store.live = FinMap.empty) (h : openWith p lands store = .ok c) :
    ∃ b res, buildGenesis p = .ok b ∧ applyBlock new b p = (.ok res, c.state) ∧
      c.tip = b.header ∧ c.height = b.header.height ∧ c.networkID = b.header.id ∧
      (∃ batch, commitStore lands store (.commit batch) = .ok c.store) ∧
      ∃ stats, Lands empty (advanceChanges p empty b.header.id
        (empty.record res.undo) c.state [] [(b, res)] b.header (fun _ => none)
        (U256.satAdd 0 (blockWork b.header.target)) stats) c.store.live := by
  simp only [openWith, bind_eq_ok, reject_if_eq_ok] at h
  obtain ⟨b, hgenesis, -, -, h⟩ := h
  rw [hempty, get_empty] at h
  dsimp only at h
  unfold initGenesis at h
  split at h
  · cases h
  · rename_i res s' happly
    simp only [commit, bind_eq_ok, pure_eq_ok] at h
    obtain ⟨store', hstore, rfl⟩ := h
    rw [commit_changes_eq] at hstore
    have hlands := lands_of_commit hstore
    rw [hempty] at hlands
    exact ⟨b, res, hgenesis, happly, rfl, rfl, rfl, ⟨_, hstore⟩, _, hlands⟩

/-- Opening an empty store leaves the chain of the genesis block. -/
theorem open_canonical (hempty : store.live = FinMap.empty) (h : openWith p lands store = .ok c) :
    ∃ e, buildGenesis p = .ok e.1 ∧ Canonical p damage [e] c := by
  obtain ⟨b, res, hgenesis, happly, htip, hheight, hnetwork, -, stats, hlands⟩ :=
    open_empty_eq_ok hempty h
  refine ⟨(b, res), hgenesis, ?_⟩
  have hzero := (build_genesis_eq_ok hgenesis).1
  have hrun : Run p [(b, res)] c.state := genesis.apply (by rw [hzero]; rfl) happly
  rw [← hnetwork, ← htip] at hlands
  have hempty' : Stored p damage none ([] ++ []) new empty := stored_empty
  have hrun' : Run p ([(b, res)] ++ []) c.state := hrun
  refine canonical_advance hempty' hlands
    ((covers_refl _ _).apply happly) hrun' (.singleton _) (by rw [htip]; rfl)
    (by rw [hheight, htip]) (by simp) .nil (pairwise_singleton _ _) nofun ?_
  intro height id _ hid
  cases hid

/-! ## Rolling back -/

omit [Crypto] in
theorem last_change_insert_all (es : List (Hash × UInt64)) (m : FinMap Hash UInt64) (id : Hash) :
    (lastChange (.seen id) (es.map fun e => ⟨.seen e.1, some (uint64 e.2)⟩)).getD
        ((m.find? id).map uint64) = ((m.insertAll es).find? id).map uint64 := by
  induction es generalizing m with
  | nil => rfl
  | cons e rest ih =>
    show _ = (((m.insert e.1 e.2).insertAll rest).find? id).map uint64
    rw [← ih, find_insert, map_cons, lastChange, Option.getD_or]
    congr 1
    by_cases heq : e.1 = id
    · simp [heq]
    · simp [heq]

omit [Crypto] in
theorem last_change_restored_of_ne {es : List (Hash × UInt64)} (hk : ∀ id, k ≠ .seen id) :
    lastChange k (es.map fun e => ⟨.seen e.1, some (uint64 e.2)⟩) = none := by
  refine last_change_eq_none.mpr fun c hc heq => ?_
  obtain ⟨e, -, rfl⟩ := mem_map.mp hc
  exact hk _ heq.symm

omit [Crypto] in
/-- Of a key of the state, the rollback batch writes what the undone state holds. -/
theorem last_change_rollback (s : State) (undo : UndoLog) (hk : k.OfState) :
    (lastChange k (rollbackState (s.undo undo) undo)).getD (stateRecord s k) =
      stateRecord (s.undo undo) k := by
  rw [rollbackState, last_change_append, last_change_append, last_change_append,
    last_change_map _ (fun e : CellUndo => Key.cell e.slot) (stateRecord (s.undo undo)),
    last_change_map _ Key.spent fun _ => none, last_change_map _ Key.seen fun _ => none]
  cases k with
  | cell slot =>
    rw [last_change_restored_of_ne (by simp)]
    by_cases hmem : slot ∈ undo.cells.map CellUndo.slot
    · have hkey : Key.cell slot ∈ undo.cells.map fun e => Key.cell e.slot := by
        simpa using hmem
      simp [hkey]
    · have hkey : Key.cell slot ∉ undo.cells.map fun e => Key.cell e.slot := by
        simpa using hmem
      simp only [hkey, if_false]
      simp
      refine (state_record_undo ?_).symm
      simpa [Touched.keys, Touched.record, Touched.empty] using hmem
  | spent addr =>
    rw [last_change_restored_of_ne (by simp)]
    by_cases hmem : addr ∈ undo.spentAdded
    · have hspent : (s.undo undo).isSpent addr = false := by
        show ((s.spent.eraseAll undo.spentAdded).find? addr).isSome = false
        rw [find_erase_all, if_pos hmem]
        rfl
      simp [hmem, stateRecord, hspent]
    · simp [hmem]
      refine (state_record_undo ?_).symm
      simpa [Touched.keys, Touched.record, Touched.empty] using hmem
  | seen id =>
    have herased : ((s.seen.eraseAll undo.seenAdded).find? id).map uint64 =
        (if Key.seen id ∈ undo.seenAdded.map Key.seen then some none else none).getD
          (stateRecord s (.seen id)) := by
      rw [find_erase_all]
      by_cases hmem : id ∈ undo.seenAdded <;> simp [hmem, stateRecord, seenTTL]
    have hinsert := last_change_insert_all undo.seenRemoved (s.seen.eraseAll undo.seenAdded) id
    rw [herased] at hinsert
    rw [Option.getD_or]
    simp at hinsert ⊢
    exact hinsert
  | header _ | block _ | index _ | undo _ | metadata _ => cases hk

/-- Every block of the log is found under its id. -/
theorem Canonical.block_locked (hp : p.validate = .ok ()) (hc : Canonical p False log c)
    (he : e ∈ log) : blockLocked p c.store.live e.1.header.id = .ok e.1 := by
  obtain ⟨s₀, s₁, hok, happly⟩ := hc.run.applied he
  have hceilings := hok.ceilings
  simp only [checkCeilings, invalidIf, seq_eq_ok, reject_if_eq_ok, gt_iff_lt, not_lt] at hceilings
  obtain ⟨hcerts, -, -, hcites⟩ := hceilings
  have hcap := max_certs_le_capacity (cert_list_capacity_pos hp)
    (currentSeqGasTarget s₀ p e.1.header.height)
  have hget : get c.store.live (.block e.1.header.id) = some e.1.marshal := by
    rcases hc.stored.blocks e he with hget | ⟨hfalse, -⟩
    · exact hget
    · exact hfalse.elim
  have hdecode := unmarshal_block_eq_ok (canonical_of_apply happly) (hc.stored.short e he).1
    (hcerts.trans hcap) hcites
  rw [blockLocked, hget]
  exact map_error_eq_ok.mpr hdecode

/-- What a rollback reads is the tip's undo log and the header below it. -/
theorem rollback_reads_eq_ok (hc : Canonical p damage log c)
    (h : c.rollbackReads = .ok (undo, parent)) :
    ∃ e below older, log = e :: below :: older ∧ c.tip = e.1.header ∧ undo = e.2.undo ∧
      parent = below.1.header ∧ c.tip.parentID = parent.id ∧
      ∀ through ∈ undoPrunedThrough c.store.live, through ≤ parent.height := by
  simp only [rollbackReads, Except.bind_eq_ok, reject_if_eq_ok] at h
  obtain ⟨-, hheight, raw, hraw, undo', hundo, parent', hparent, heq⟩ := h
  obtain ⟨rfl, rfl⟩ := Prod.mk.inj (Except.ok.inj heq)
  have htip := hc.tip
  have hlinked := hc.linked
  have hsucc := hc.height_succ
  match log, hc with
  | [], _ => cases htip
  | [e], _ =>
    -- a single block sits at height zero
    refine absurd (UInt64.toNat_inj.mp ?_) hheight
    rw [length_singleton] at hsucc
    show c.height.toNat = 0
    omega
  | e :: below :: older, hc =>
    have htip : e.1.header = c.tip := Option.some.inj htip
    have hlink : e.1.header.parentID = below.1.header.id := (isChain_cons_cons.mp hlinked).1
    have hget : get c.store.live (.undo e.1.header.id) = some raw := by
      rw [htip]
      cases hget : get c.store.live (.undo c.tip.id) with
      | none => simp [hget] at hraw
      | some v =>
        rw [hget] at hraw
        exact congrArg some (Except.ok.inj hraw)
    obtain ⟨hlog, hretained⟩ := (hc.stored.undos e (by simp)).undo_eq
      (hc.stored.short e (by simp)).2 hget hundo
    have hbelow : parent' = below.1.header := by
      rw [← htip, hlink] at hparent
      exact (hc.stored.headers below (by simp)).header_eq hparent
    refine ⟨e, below, older, rfl, htip.symm, hlog, hbelow, ?_, fun through hthrough => ?_⟩
    · rw [← htip, hlink, hbelow]
    · obtain ⟨s₀, hrun₀, htop, -⟩ := hc.run.of_cons
      obtain ⟨-, -, hnext, -⟩ := hrun₀.of_cons
      have hlt := UInt64.lt_iff_toNat_lt.mp (hretained through hthrough)
      rw [hbelow, UInt64.le_iff_toNat_le]
      rw [length_cons] at htop
      omega

omit [Crypto] in
theorem key_of_mem_rollback_state (h : change ∈ rollbackState s undo) : change.key.OfState := by
  simp only [rollbackState, mem_append, mem_map] at h
  rcases h with ((⟨_, -, rfl⟩ | ⟨_, -, rfl⟩) | ⟨_, -, rfl⟩) | ⟨_, -, rfl⟩ <;> trivial

theorem key_of_mem_rollback_head (h : change ∈ c.rollbackHead s parent) :
    ∃ m, change.key = .metadata m ∧ m ≠ .network ∧ m ≠ .version ∧ m ≠ .undoPruned := by
  simp only [rollbackHead, mem_cons, not_mem_nil, or_false] at h
  rcases h with rfl | rfl | rfl | rfl <;> exact ⟨_, rfl, nofun, nofun, nofun⟩

/-- A rollback leaves the network, the version and the bookmark alone. -/
theorem rollback_changes_metadata {m : MetaKey}
    (hm : m = .network ∨ m = .version ∨ m = .undoPruned) :
    get (applyBatch live (batchOf (c.rollbackChanges s undo parent))) (.metadata m) =
      get live (.metadata m) := by
  refine get_apply_of_not_changed fun change hchange heq => ?_
  simp only [rollbackChanges, mem_append] at hchange
  rcases hchange with (hstate | hremove) | hhead
  · have hkey := key_of_mem_rollback_state hstate
    rw [heq] at hkey
    exact hkey
  · simp only [removeBlock, mem_cons, not_mem_nil, or_false] at hremove
    rcases hremove with rfl | rfl | rfl <;> cases heq
  · obtain ⟨m', hkey, hnetwork, hversion, hbook⟩ := key_of_mem_rollback_head hhead
    obtain rfl := Key.metadata.inj (hkey.symm.trans heq)
    rcases hm with rfl | rfl | rfl
    · exact hnetwork rfl
    · exact hversion rfl
    · exact hbook rfl

/-- A rollback that lands leaves the log without its tip. -/
theorem rollback_canonical {below : Block × Result} {older : ChainLog}
    (hc : Canonical p damage (e :: below :: older) c) (hdistinct : Distinct (e :: below :: older))
    (htip : c.tip = e.1.header) (hlink : c.tip.parentID = below.1.header.id)
    (hpruned : ∀ through ∈ undoPrunedThrough c.store.live, through ≤ below.1.header.height)
    (hlands : Lands c.store.live
      (c.rollbackChanges (undoBlock c.state e.2.undo) e.2.undo below.1.header) store.live) :
    Canonical p damage (below :: older)
      { c with
        state := undoBlock c.state e.2.undo
        store
        height := below.1.header.height
        tip := below.1.header } := by
  obtain ⟨s₀, hrun, -, happly⟩ := hc.run.of_cons
  have hstate : undoBlock c.state e.2.undo = s₀ := undo_apply_eq happly
  have hmeta : ∀ m, m = .network ∨ m = .version ∨ m = .undoPruned →
      get store.live (.metadata m) = get c.store.live (.metadata m) := by
    intro m hm
    rw [hlands.applied]
    exact rollback_changes_metadata hm
  have hbook : undoPrunedThrough store.live = undoPrunedThrough c.store.live := by
    unfold undoPrunedThrough
    rw [hmeta _ (.inr (.inr rfl))]
  have hhead : ∀ (m : MetaKey) (v : Option Bytes), lastChange (.metadata m)
        (c.rollbackHead (undoBlock c.state e.2.undo) below.1.header) = some v →
      get store.live (.metadata m) = v := by
    intro m v hlast
    rw [hlands.applied, get_apply_changes, rollbackChanges, last_change_append, hlast]
    rfl
  have hstored : Stored p damage (undoPrunedThrough store.live) (below :: older)
      (undoBlock c.state e.2.undo) store.live := by
    have hlast : ∀ k : Key, k.OfState →
        (lastChange k (rollbackState (undoBlock c.state e.2.undo) e.2.undo)).getD
          (stateRecord c.state k) = stateRecord (undoBlock c.state e.2.undo) k :=
      fun k hk => last_change_rollback c.state e.2.undo hk
    have hstates := hc.stored.state_changes (fun change => key_of_mem_rollback_state) hlast
    have hremoved := hstates.remove_block hdistinct
    have hhead : ∀ change ∈ c.rollbackHead (undoBlock c.state e.2.undo) below.1.header,
        ∃ m, change.key = .metadata m :=
      fun change hchange => (key_of_mem_rollback_head hchange).imp fun _ hm => hm.1
    have hframed := hremoved.frame hhead
    rw [← apply_batch_append, ← apply_batch_append, ← append_assoc, ← htip, ← hc.height] at hframed
    rw [hbook, hlands.applied]
    exact hframed
  exact {
    run := hstate ▸ hrun
    linked := (isChain_cons_cons.mp hc.linked).2
    tip := rfl
    height := rfl
    stored := hstored
    headed := {
      network := (hmeta _ (.inl rfl)).trans hc.headed.network
      version := (hmeta _ (.inr (.inl rfl))).trans hc.headed.version
      height := hhead _ _ (by simp [rollbackHead, lastChange])
      tipID := hhead _ _ (by simp [rollbackHead, lastChange, hlink])
      stateRoot := hhead _ _ (by simp [rollbackHead, lastChange])
      pruned := by
        show ∀ through ∈ undoPrunedThrough store.live, _
        rw [hbook]
        exact hpruned } }

/-- What `rollback` can do: an undamaged store lets a failed one be taken back. -/
theorem rollback_cases (lands : Bool) (hp : p.validate = .ok ()) (hc : Canonical p False log c)
    (hdistinct : Distinct log) :
    (∃ e, (rollback p lands c).1 = .error e ∧ Unchanged c (rollback p lands c).2) ∨
    lands = true ∧ ∃ e base, log = e :: base ∧ (rollback p lands c).1 = .ok () ∧
      Canonical p False base (rollback p lands c).2 ∧
      undoPrunedThrough (rollback p lands c).2.store.live = undoPrunedThrough c.store.live ∧
      (rollback p lands c).2.networkID = c.networkID := by
  unfold rollback
  split
  · exact .inl ⟨_, rfl, rfl, rfl, rfl, rfl, rfl⟩
  · rename_i undo parent hreads
    obtain ⟨e, below, older, rfl, htip, rfl, rfl, hlink, hpruned⟩ := rollback_reads_eq_ok hc hreads
    dsimp only
    split
    · rename_i store hcommit
      have hlands := lands_of_commit hcommit
      refine .inr ⟨lands_of_commit_store hcommit, e, below :: older, rfl, rfl,
        rollback_canonical hc hdistinct htip hlink hpruned hlands, ?_, rfl⟩
      show undoPrunedThrough store.live = _
      unfold undoPrunedThrough
      rw [hlands.applied, rollback_changes_metadata (.inr (.inr rfl))]
    · -- the block that was undone applies again
      obtain ⟨s₀, -, -, happly⟩ := hc.run.of_cons
      have hread : mustBlock p c.store.live c.tip.id = e.1 := by
        rw [mustBlock, htip, hc.block_locked hp mem_cons_self]
      rw [hread, undo_apply_eq happly, happly]
      exact .inl ⟨_, rfl, rfl, rfl, rfl, rfl, rfl⟩

end

/-! ## A small chain -/

namespace Sample

open Fold.Sample (params user)

attribute [local instance] Reference.crypto

/-- A store without records. -/
def emptyStore : Storage.Memory := ⟨FinMap.empty, 0, 0, 1000000, 0⟩

/-- An empty block on a header. -/
def child (s : State) (below : Header) (time : UInt64) (payee : Address) : Block :=
  Fold.assemble s params
    { Fold.Sample.header (below.height + 1) payee with parentID := below.id, time } []

/-- Empty blocks at the given times, one on the other. -/
def branch (s : State) (below : Header) (payee : Address) : List UInt64 → List Block
  | [] => []
  | time :: rest =>
    let b := child s below time payee
    b :: branch (Fold.applyBlock s b params).2 b.header payee rest

end Sample

end Zycord.Chain
