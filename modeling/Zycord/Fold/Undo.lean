import Zycord.Fold.Footprint
import Zycord.Fold.Run

/-!
# Undo is exact and failure is atomic

Every journal operation leaves alone the state that undoing leads back to, so it is an invariant
of the whole fold; an error exit undoes and is therefore back at the start. The one operation that
needs an argument is the prune: it is harmless because the ids a block records are live at its
height. The main results are `apply_error_eq`, `undo_apply_eq` and, for stacks of blocks,
`undo_blocks_apply_blocks`. A chain that also undoes its newest block at will, `History`, ends
where a run over the blocks still applied ends (`History.run`), so whatever holds along runs
survives reorganisations.
-/

namespace Zycord.Fold

open List
open Journal (Footprint Writes)

/-! ## Reverting computations -/

/-- A computation that keeps the state undoing leads back to, and ends in it when it fails. -/
def Reverts {α : Type} (m : FoldM α) : Prop :=
  ∀ σ, Mut.wp m (fun _ σ' => σ'.j.undo.s = σ.j.undo.s) (fun _ σ' => σ'.j.s = σ.j.undo.s) σ

namespace Reverts

variable {α β : Type} {F : Footprint} {m : FoldM α} {f : α → FoldM β}

theorem bind (hm : Reverts m) (hf : ∀ a, Reverts (f a)) : Reverts (m >>= f) := fun σ =>
  Mut.wp_seq (hm σ) fun a σ' h =>
    Mut.wp_mono (hf a σ') (fun _ _ h' => h'.trans h) fun _ _ h' => h'.trans h

theorem pure (a : α) : Reverts (pure a) := fun _ => rfl

theorem get : Reverts (Mut.get : FoldM FoldState) := fun _ => rfl

theorem getState : Reverts Fold.getState := fun _ => rfl

theorem onResult (g : Result → Result) : Reverts (onResult g) := fun _ => rfl

theorem onJournal {g : Journal → Journal} (hg : ∀ j, Writes F j (g j)) : Reverts (onJournal g) :=
  fun σ => (hg σ.j).undo_eq

theorem orUndo (h : Framed F m) : Reverts (orUndo m) := fun σ =>
  (wp_or_undo m).mpr (Mut.wp_mono (h σ) (fun _ _ h => h.undo_eq) fun _ _ h => h.undo_eq)

theorem ite {m' : FoldM α} (c : Prop) [Decidable c] (hm : Reverts m) (hm' : Reverts m') :
    Reverts (if c then m else m') := by
  split
  · exact hm
  · exact hm'

end Reverts

theorem forfeit_burst_reverts {p : Params} {t : UInt64} (reward : U256) :
    Reverts (forfeitBurst p t reward) := Reverts.get.bind fun _ => Reverts.ite _
    ((Reverts.orUndo (Framed.addBurned (F := protocolFootprint) _ _)).bind fun _ => Reverts.pure _)
    (Reverts.pure _)

section

variable [Crypto] {h : Header} {p : Params} {t : UInt64}

theorem credit_treasury_reverts (treasury : U256) : Reverts (creditTreasury treasury) := by
  refine Reverts.getState.bind fun s => Reverts.ite _ (Reverts.pure _) ?_
  refine (Reverts.orUndo (Framed.conserve (F := protocolFootprint) _ _)).bind fun v => ?_
  exact Reverts.onJournal (F := protocolFootprint) fun j => set_writes rfl

theorem pay_reward_reverts (tips : U256) : Reverts (payReward h p t tips) := by
  refine (Reverts.orUndo (Framed.conserve (F := protocolFootprint) _ _)).bind fun producer => ?_
  refine (Reverts.orUndo (Framed.conserve (F := protocolFootprint) _ _)).bind fun reward => ?_
  refine (forfeit_burst_reverts reward).bind fun reward => (Reverts.onResult _).bind fun _ => ?_
  exact credit_treasury_reverts _

theorem seal_root_reverts (checkRoot : Bool) : Reverts (sealRoot h p checkRoot) :=
  Reverts.getState.bind fun _ => Reverts.ite _
    ((Reverts.onResult _).bind fun _ =>
      Reverts.orUndo (Framed.require (F := protocolFootprint) _ _))
    (Reverts.pure _)

/-! ## The certificate loop -/

variable {fp fs : U256} {ordered : List Carried} {logs : List UndoLog}

theorem apply_next_writes {F : Footprint} {cy : Carried}
    (hF : (certFootprint cy.cert cy.id).Within F) (tips : U256) (σ : FoldState) :
    Mut.wp (applyNext p fs fp tips cy) (fun _ σ' => Writes F σ.j σ'.j)
      (fun _ σ' => σ'.j.s = σ.j.undo.s) σ := by
  simp only [applyNext, Mut.wp_bind, wp_on_result, wp_or_undo]
  refine Mut.wp_mono ((apply_certificate_framed fs fp).mono hF _) (fun out σ' hw => ?_)
    fun e σ' hw => hw.undo_eq
  exact (wp_conserve_add _ _ _).mpr ⟨fun _ _ => hw, fun _ => hw.undo_eq⟩

theorem apply_certs_writes {F : Footprint}
    (hF : ∀ cy ∈ ordered, (certFootprint cy.cert cy.id).Within F) (σ : FoldState) :
    Mut.wp (applyCerts p fs fp ordered) (fun _ σ' => Writes F σ.j σ'.j)
      (fun _ σ' => σ'.j.s = σ.j.undo.s) σ := by
  have hloop := Mut.wp_foldlM (g := applyNext p fs fp) (E := fun _ σ' => σ'.j.s = σ.j.undo.s)
    (I := fun rest _ σ' =>
      Writes F σ.j σ'.j ∧ ∀ cy ∈ rest, (certFootprint cy.cert cy.id).Within F)
    (fun cy rest tips σ' ⟨hw, hrest⟩ =>
      Mut.wp_mono (apply_next_writes (hrest cy mem_cons_self) tips σ')
        (fun _ _ hw' => ⟨hw.trans hw', fun x hx => hrest x (mem_cons_of_mem _ hx)⟩)
        fun _ _ he => he.trans hw.undo_eq)
    ordered 0 ⟨.refl σ.j, hF⟩
  exact Mut.wp_mono hloop (fun _ _ hI => hI.1) fun _ _ he => he

/-! ## The block -/

/-- Ids that have not expired. -/
def liveFootprint (height : UInt64) : Footprint where
  cells _ := True
  burns _ := True
  ids _ ttl := height ≤ ttl

omit [Crypto] in
theorem undo_prune_expired {s : State} {j : Journal}
    (hw : Writes (liveFootprint h.height) ⟨s, UndoLog.empty⟩ j) :
    (pruneExpired h j).undo.s = s := by
  have hundo : j.undo.s = s := hw.undo_eq
  unfold pruneExpired
  split_ifs with hheight
  · rw [Journal.undo_prune_seen hw.seen_removed, hundo]
    intro id hid ttl hseen hlt
    obtain hid | ⟨ttl', hlive, hseen'⟩ := hw.seen_added hid
    · simp [UndoLog.empty] at hid
    · obtain rfl : ttl' = ttl := Option.some.inj (hseen'.symm.trans hseen)
      have hlive : h.height.toNat ≤ ttl'.toNat := hlive
      rw [UInt64.lt_iff_toNat_lt, UInt64.toNat_sub_of_le _ _ hheight] at hlt
      omega
  · exact hundo

/-- A transition's undo log restores the state, and a failure leaves it. -/
theorem transition_reverts {cites : List Header} {checkRoot : Bool}
    (hlive : ∀ cy ∈ ordered, h.height ≤ cy.cert.ttl) (s : State) :
    Mut.wp (transition h cites ordered p t checkRoot) (fun _ σ' => σ'.j.undo.s = s)
      (fun _ σ' => σ'.j.s = s) ⟨⟨s, UndoLog.empty⟩, Result.empty⟩ := by
  have hprotocol : protocolFootprint.Within (liveFootprint h.height) :=
    ⟨fun _ _ => trivial, fun _ _ => trivial, fun _ _ hi => hi.elim⟩
  simp only [transition, Mut.wp_bind, wp_on_journal, wp_get_state, Mut.wp_get]
  refine Mut.wp_mono (apply_certs_writes (F := liveFootprint h.height) (fun cy hcy => ?_) _)
    (fun tips σ hcerts => ?_) fun _ _ he => he.trans open_block_writes.undo_eq
  · exact ⟨fun _ _ => trivial, fun _ _ => trivial, fun _ _ hid => hid.2 ▸ hlive cy hcy⟩
  have hpruned : (pruneExpired h (recordBlock h cites p σ.res.seqGasApplied σ.j)).undo.s = s :=
    undo_prune_expired (((open_block_writes.mono hprotocol).trans hcerts).trans
      ((record_block_writes cites _).mono hprotocol))
  have htail : Reverts (do
      payReward h p t tips
      let matured ← orUndo (rollCoinbaseRing h p)
      onResult fun res => { res with matured }
      let σ ← Mut.get
      onJournal (updateBaseFees h p t ((openBlock h p ⟨s, UndoLog.empty⟩).s.get seqBaseFeeSlot)
        ((openBlock h p ⟨s, UndoLog.empty⟩).s.get parBaseFeeSlot) σ.res)
      sealRoot h p checkRoot) := by
    refine (pay_reward_reverts tips).bind fun _ => ?_
    refine (Reverts.orUndo roll_coinbase_ring_framed).bind fun matured => ?_
    refine (Reverts.onResult _).bind fun _ => Reverts.get.bind fun σ => ?_
    exact (Reverts.onJournal fun j => update_base_fees_writes _ _ _ _).bind fun _ =>
      seal_root_reverts checkRoot
  have hrun := htail ⟨pruneExpired h (recordBlock h cites p σ.res.seqGasApplied σ.j), σ.res⟩
  simp only [Mut.wp_bind, wp_on_journal, Mut.wp_get, hpruned] at hrun
  exact hrun

/-! ## Blocks and stacks of blocks -/

variable {s s' : State} {b : Block} {checkRoot : Bool}

theorem live_of_block_ok (hb : BlockOK s b p) :
    ∀ cy ∈ foldOrder (carry b.certs), b.header.height ≤ cy.cert.ttl := by
  intro cy hcy
  obtain ⟨c, hc, rfl⟩ := mem_fold_order.mp hcy
  exact (hb.certs c hc).live

/-- A rejected block leaves the state as it was. -/
theorem apply_error_eq {e : FoldError} (h : apply s b p checkRoot = (.error e, s')) : s' = s := by
  rcases apply_eq_error h with ⟨-, rfl⟩ | ⟨hb, σ, hσ, rfl⟩
  · rfl
  · have hback := Mut.of_wp_error (transition_reverts (live_of_block_ok hb) s) hσ
    exact hback

/-- Undoing an accepted block gives back the state it was applied to. -/
theorem undo_apply_eq {r : Result} (h : apply s b p checkRoot = (.ok r, s')) :
    undoBlock s' r.undo = s := by
  obtain ⟨hb, σ, hσ, rfl, rfl⟩ := apply_eq_ok h
  have hback := Mut.of_wp_ok (transition_reverts (live_of_block_ok hb) s) hσ
  exact hback

/-- Apply blocks one after another; returns the undo logs, newest first. -/
def applyBlocks (p : Params) : State → List Block → Option (State × List UndoLog)
  | s, [] => some (s, [])
  | s, b :: rest =>
    match applyBlock s b p with
    | (.ok r, s') => (applyBlocks p s' rest).map fun t => (t.1, t.2 ++ [r.undo])
    | (.error _, _) => none

/-- Undo blocks, the newest first. -/
def undoBlocks (s : State) (logs : List UndoLog) : State := logs.foldl undoBlock s

/-- Undoing a stack of blocks in reverse order gives back the state before the first. -/
theorem undo_blocks_apply_blocks {bs : List Block} (h : applyBlocks p s bs = some (s', logs)) :
    undoBlocks s' logs = s := by
  induction bs generalizing s s' logs with
  | nil =>
    obtain ⟨rfl, rfl⟩ := h
    rfl
  | cons b rest ih =>
    unfold applyBlocks at h
    split at h
    · rename_i r mid happly
      obtain ⟨⟨end', logs'⟩, hrest, heq⟩ := Option.map_eq_some_iff.mp h
      obtain ⟨rfl, rfl⟩ := heq
      have hmid : undoBlocks end' logs' = mid := ih hrest
      simp only [undoBlocks, foldl_append, foldl_cons, foldl_nil] at hmid ⊢
      rw [hmid, undo_apply_eq happly]
    · simp at h

/-! ## Reorganisations -/

/-- A chain grown by applying blocks and undoing the newest one, in any order. -/
inductive History (p : Params) : ChainLog → State → Prop where
  | genesis : History p [] State.new
  | apply {log : ChainLog} {s s' : State} {b : Block} {r : Result} (h : History p log s)
      (hheight : b.header.height.toNat = log.length) (happly : applyBlock s b p = (.ok r, s')) :
      History p ((b, r) :: log) s'
  | undo {log : ChainLog} {s : State} {b : Block} {r : Result} (h : History p ((b, r) :: log) s) :
      History p log (undoBlock s r.undo)

variable {log : ChainLog}

/-- Undoing leaves no trace: the blocks still applied are a run. -/
theorem History.run (h : History p log s) : Run p log s := by
  induction h with
  | genesis => exact .genesis
  | apply _ hheight happly ih => exact ih.apply hheight happly
  | undo _ ih =>
    obtain ⟨s₀, hrun, -, happly⟩ := ih.of_cons
    rwa [undo_apply_eq happly]

theorem Run.history (h : Run p log s) : History p log s := by
  induction h with
  | genesis => exact .genesis
  | apply _ hheight happly ih => exact ih.apply hheight happly

/-- The states that applying blocks, whatever their heights, and undoing the newest one lead to.
The logs are those of the blocks still applied, newest first. -/
inductive Reachable (p : Params) : List UndoLog → State → Prop where
  | genesis : Reachable p [] State.new
  | apply {logs : List UndoLog} {s s' : State} {b : Block} {r : Result} (h : Reachable p logs s)
      (happly : applyBlock s b p = (.ok r, s')) : Reachable p (r.undo :: logs) s'
  | undo {log : UndoLog} {logs : List UndoLog} {s : State} (h : Reachable p (log :: logs) s) :
      Reachable p logs (undoBlock s log)

/-- The states that undoing some logs goes through, the first of them included. -/
def unwind : State → List UndoLog → List State
  | s, [] => [s]
  | s, log :: logs => s :: unwind (undoBlock s log) logs

omit [Crypto] in
theorem mem_unwind (s : State) (logs : List UndoLog) : s ∈ unwind s logs := by
  cases logs <;> exact mem_cons_self

/-- What every block keeps holds of every reachable state. -/
theorem Reachable.invariant {I : State → Prop} (hnew : I State.new)
    (step : ∀ {s b r s'}, I s → applyBlock s b p = (.ok r, s') → I s') (h : Reachable p logs s) :
    I s := by
  -- the blocks still applied can be undone one by one, so the states below are part of the claim
  have hall : ∀ x ∈ unwind s logs, I x := by
    induction h with
    | genesis => simpa [unwind] using hnew
    | @apply logs s s' b r _ happly ih =>
      rw [unwind, undo_apply_eq happly]
      exact forall_mem_cons.mpr ⟨step (ih s (mem_unwind s logs)) happly, ih⟩
    | undo _ ih => exact fun x hx => ih x (mem_cons_of_mem _ hx)
  exact hall s (mem_unwind s logs)

/-! ## The whole guarantee -/

/-- Failure is atomic and undo is exact: a rejected block changes nothing, an accepted block is
reversed by its log, and so is a stack of blocks. -/
theorem failure_atomic_and_undo_exact (s : State) (b : Block) (p : Params) :
    (∀ e s', applyBlock s b p = (.error e, s') → s' = s) ∧
      (∀ r s', applyBlock s b p = (.ok r, s') → undoBlock s' r.undo = s) ∧
      ∀ bs s' logs, applyBlocks p s bs = some (s', logs) → undoBlocks s' logs = s :=
  ⟨fun _ _ h => apply_error_eq h, fun _ _ h => undo_apply_eq h,
    fun _ _ _ h => undo_blocks_apply_blocks h⟩

end

section

attribute [local instance] Reference.crypto

open Sample

/-- A block refused at its state root, after everything was written, and an accepted one. -/
theorem sample_failure_atomic_and_undo_exact :
    (∃ e s', applyBlock State.new badGenesis params = (.error e, s') ∧ e.rule = some .F14 ∧
      s' = State.new) ∧
    ∃ s b r s', applyBlock s b params = (.ok r, s') ∧ b.certs = [payment] ∧
      undoBlock s' r.undo = s := by
  constructor
  · have hrule : (match (applyBlock State.new badGenesis params).1 with
        | .error e => e.rule
        | .ok _ => none) = some .F14 := by decide +kernel
    cases hres : applyBlock State.new badGenesis params with
    | mk res s' =>
      rw [hres] at hrule
      cases res with
      | error e => exact ⟨e, s', rfl, hrule, (failure_atomic_and_undo_exact _ _ _).1 e s' hres⟩
      | ok r => simp at hrule
  · obtain ⟨-, s, b, r, s', -, -, happly, -, hcerts, -⟩ := payment_applies
    exact ⟨s, b, r, s', happly, hcerts, (failure_atomic_and_undo_exact s b params).2.1 r s' happly⟩

end

end Zycord.Fold
