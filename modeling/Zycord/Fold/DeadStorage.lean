import Zycord.Fold.Target
import Zycord.Lib.Rel

/-!
# Burned addresses are dead storage

Two runs of the fold, side by side, over states that differ only in the cells of burned addresses.
`Twin` relates the two: the registry, the seen set, the undo log, the result and every cell
outside the burned addresses agree, and each run still holds what it started with under them.
Every function of the fold keeps its two runs `Twin` (`Blind`), because each of them asks the
registry before it reads or writes a cell that a block can choose. `dead_storage` puts the blocks
together: what an already burned address holds is neither read nor written.
-/

namespace Zycord.Fold

open Mut Validity

/-! ## Two journals that differ in dead cells -/

/-- Two journals that differ at most in the cells under dead addresses, where each still holds
what `c₁`, respectively `c₂`, holds. -/
structure Agree (Dead : Address → Prop) (c₁ c₂ : State) (j₁ j₂ : Journal) : Prop where
  spent : j₁.s.spent = j₂.s.spent
  seen : j₁.s.seen = j₂.s.seen
  log : j₁.log = j₂.log
  live : ∀ slot : Slot, ¬ Dead slot.addr → j₁.s.get slot = j₂.s.get slot
  dead₁ : ∀ slot : Slot, Dead slot.addr → j₁.s.get slot = c₁.get slot
  dead₂ : ∀ slot : Slot, Dead slot.addr → j₂.s.get slot = c₂.get slot
  burned : ∀ a, Dead a → j₁.s.isSpent a = true

namespace Agree

variable {Dead : Address → Prop} {c₁ c₂ : State} {j₁ j₂ : Journal}

section

variable (h : Agree Dead c₁ c₂ j₁ j₂)

include h

theorem is_spent_eq (a : Address) : j₁.s.isSpent a = j₂.s.isSpent a := by
  rw [State.isSpent, h.spent, State.isSpent]

theorem not_dead {a : Address} (ha : j₁.s.isSpent a = false) :
    ¬ Dead a := fun hd => by simp [h.burned a hd] at ha

/-- Cells under addresses that are not burned agree. -/
theorem get_eq (slot : Slot) (hs : j₁.s.isSpent slot.addr = false) :
    j₁.s.get slot = j₂.s.get slot := h.live slot (h.not_dead hs)

theorem set (slot : Slot) (hs : ¬ Dead slot.addr) (v : U256) :
    Agree Dead c₁ c₂ (j₁.set slot v) (j₂.set slot v) := by
  have hne : ∀ k : Slot, Dead k.addr → slot ≠ k := fun k hk heq => hs (heq ▸ hk)
  refine ⟨h.spent, h.seen, ?_, fun k hk => ?_, fun k hk => ?_, fun k hk => ?_, h.burned⟩
  · simp only [Journal.set, h.log, h.live slot hs]
  · simp [State.get_set, h.live k hk]
  · rw [Journal.s_set, State.get_set_of_ne _ _ (hne k hk), h.dead₁ k hk]
  · rw [Journal.s_set, State.get_set_of_ne _ _ (hne k hk), h.dead₂ k hk]

theorem markSpent (a : Address) : Agree Dead c₁ c₂ (j₁.markSpent a) (j₂.markSpent a) := by
  unfold Journal.markSpent
  rw [h.is_spent_eq]
  split
  · exact h
  · refine ⟨?_, h.seen, ?_, h.live, h.dead₁, h.dead₂, fun a' hd => ?_⟩
    · simp only [State.markSpent, h.spent]
    · simp only [h.log]
    · rw [State.is_spent_mark_spent, h.burned a' hd, Bool.or_true]

theorem seen_ttl_eq (id : Hash) : j₁.s.seenTTL id = j₂.s.seenTTL id := by
  rw [State.seenTTL, h.seen, State.seenTTL]

theorem markSeen (id : Hash) (ttl : UInt64) :
    Agree Dead c₁ c₂ (j₁.markSeen id ttl) (j₂.markSeen id ttl) := by
  unfold Journal.markSeen
  rw [h.seen_ttl_eq]
  split
  · exact h
  · refine ⟨h.spent, ?_, ?_, h.live, h.dead₁, h.dead₂, h.burned⟩
    · simp only [State.markSeen, h.seen]
    · simp only [h.log]

theorem pruneSeen (below : UInt64) :
    Agree Dead c₁ c₂ (j₁.pruneSeen below) (j₂.pruneSeen below) where
  spent := h.spent
  seen := by simp only [Journal.pruneSeen, State.pruneSeen, h.seen]
  log := by simp only [Journal.pruneSeen, State.expired, h.seen, h.log]
  live := h.live
  dead₁ := h.dead₁
  dead₂ := h.dead₂
  burned := h.burned

theorem setAll {cells : List (Slot × U256)} (hs : ∀ e ∈ cells, ¬ Dead e.1.addr) :
    Agree Dead c₁ c₂ (j₁.setAll cells) (j₂.setAll cells) := by
  exact List.foldl_rel h fun e he _ _ h => h.set e.1 (hs e he) e.2

theorem markAllSpent (addrs : List Address) :
    Agree Dead c₁ c₂ (j₁.markAllSpent addrs) (j₂.markAllSpent addrs) := by
  exact List.foldl_rel h fun a _ _ _ h => h.markSpent a

/-! ## Reading and staging -/

theorem read_holds_eq : readHolds j₁.s = readHolds j₂.s := by
  funext r
  cases hs : j₁.s.isSpent r.slot.addr with
  | true => simp [readHolds, hs, ← h.is_spent_eq]
  | false =>
    have hget : j₁.s.get r.slot = j₂.s.get r.slot := h.get_eq r.slot hs
    simp only [readHolds, ← h.is_spent_eq, hget]

theorem stage_write_eq : stageWrite j₁.s = stageWrite j₂.s := by
  funext ov w
  cases hs : j₁.s.isSpent w.slot.addr with
  | true => simp [stageWrite, hs, ← h.is_spent_eq]
  | false =>
    have hget : j₁.s.get w.slot = j₂.s.get w.slot := h.get_eq w.slot hs
    simp only [stageWrite, ← h.is_spent_eq, hget]

/-! ## The sweep -/

theorem moveResidual (src : Slot) (hs : ¬ Dead src.addr) (dst : Address) :
    Agree Dead c₁ c₂ (moveResidual j₁ src dst).1 (moveResidual j₂ src dst).1 ∧
      (Fold.moveResidual j₁ src dst).2 = (Fold.moveResidual j₂ src dst).2 := by
  have hsrc : j₁.s.get src = j₂.s.get src := h.live src hs
  cases hspent : j₁.s.isSpent dst with
  | true =>
    simp only [Fold.moveResidual, ← h.is_spent_eq, hspent, hsrc, if_true]
    split <;> exact ⟨h, rfl⟩
  | false =>
    have hdst : j₁.s.get ⟨dst, src.word⟩ = j₂.s.get ⟨dst, src.word⟩ := h.get_eq _ hspent
    simp only [Fold.moveResidual, ← h.is_spent_eq, hspent, hsrc, hdst, Bool.false_eq_true, if_false]
    split
    · exact ⟨h, rfl⟩
    · split
      · exact ⟨h, rfl⟩
      · exact ⟨(h.set src hs 0).set ⟨dst, src.word⟩ (h.not_dead hspent) _, rfl⟩

end

end Agree

/-- Two sweeps in progress that agree. -/
structure SweepAgree (Dead : Address → Prop) (c₁ c₂ : State) (x y : Sweep) : Prop where
  j : Agree Dead c₁ c₂ x.j y.j
  swept : x.swept = y.swept
  stranded : x.stranded = y.stranded
  cells : x.cells = y.cells

section Sweep

variable {Dead : Address → Prop} {c₁ c₂ : State} {x y : Sweep} {c : Certificate}

variable {a : Address}

theorem SweepAgree.sweepCell (h : SweepAgree Dead c₁ c₂ x y) (ha : ¬ Dead a) (dst : Address)
    (native : Slot → Bool) (w : Write) :
    SweepAgree Dead c₁ c₂ (sweepCell dst a native x w) (sweepCell dst a native y w) := by
  unfold Fold.sweepCell
  split_ifs with hskip
  · exact h
  · have haddr : w.slot.addr = a := by
      simp only [ne_eq, decide_not, Bool.or_eq_true, Bool.not_eq_eq_eq_not, Bool.not_true,
        decide_eq_false_iff_not, decide_eq_true_eq, not_or, not_not] at hskip
      exact hskip.1.1
    obtain ⟨hj, hmoved⟩ := h.j.moveResidual w.slot (haddr ▸ ha) dst
    exact ⟨hj, h.swept, h.stranded, by simp only [hmoved, h.cells]⟩

variable [Crypto]

theorem SweepAgree.sweepNative (h : SweepAgree Dead c₁ c₂ x y) (ha : ¬ Dead a) :
    SweepAgree Dead c₁ c₂ (sweepNative c x a) (sweepNative c y a) := by
  obtain ⟨hj, hmoved⟩ := h.j.moveResidual (nativeBalanceSlot a) ha c.deposit.refundTo.addr
  exact ⟨hj, by simp only [Fold.sweepNative, hmoved, h.swept],
    by simp only [Fold.sweepNative, hmoved, h.stranded],
    by simp only [Fold.sweepNative, hmoved, h.cells]⟩

theorem SweepAgree.sweepAddress (h : SweepAgree Dead c₁ c₂ x y) {w : Write}
    (hw : ¬ Dead w.slot.addr) :
    SweepAgree Dead c₁ c₂ (sweepAddress c x w) (sweepAddress c y w) := by
  unfold Fold.sweepAddress
  split
  · exact h
  · exact List.foldl_rel (h.sweepNative hw) fun w' _ _ _ h => h.sweepCell hw _ _ w'

theorem Agree.sweepBurned {j₁ j₂ : Journal} (h : Agree Dead c₁ c₂ j₁ j₂)
    (hw : ∀ w ∈ c.writes, ¬ Dead w.slot.addr) :
    SweepAgree Dead c₁ c₂ (sweepBurned c j₁) (sweepBurned c j₂) := by
  have hstart : SweepAgree Dead c₁ c₂ ⟨j₁, 0, 0, 0⟩ ⟨j₂, 0, 0, 0⟩ := ⟨h, rfl, rfl, rfl⟩
  exact List.foldl_rel hstart fun w hmem _ _ h => h.sweepAddress (hw w hmem)

end Sweep

/-! ## Two runs of the fold -/

/-- Two fold states that agree, with the same result so far. -/
structure Twin (Dead : Address → Prop) (c₁ c₂ : State) (σ₁ σ₂ : FoldState) : Prop where
  j : Agree Dead c₁ c₂ σ₁.j σ₂.j
  res : σ₁.res = σ₂.res

/-- Both runs return the same value and stay twins. -/
def Same {α : Type} (Dead : Address → Prop) (c₁ c₂ : State) (a : α) (σ₁ : FoldState) (b : α)
    (σ₂ : FoldState) : Prop := a = b ∧ Twin Dead c₁ c₂ σ₁ σ₂

/-- A step does not look at dead storage. -/
def Blind {α : Type} (Dead : Address → Prop) (c₁ c₂ : State) (m : FoldM α) : Prop :=
  ∀ σ₁ σ₂, Twin Dead c₁ c₂ σ₁ σ₂ → Mut.Rel m m (Same Dead c₁ c₂) Eq σ₁ σ₂

namespace Blind

variable {α β : Type} {Dead : Address → Prop} {c₁ c₂ : State} {m : FoldM α} {f : α → FoldM β}

theorem andThen {P : β → FoldState → β → FoldState → Prop} {σ₁ σ₂ : FoldState}
    (hm : Blind Dead c₁ c₂ m)
    (hf : ∀ a σ₁ σ₂, Twin Dead c₁ c₂ σ₁ σ₂ → Mut.Rel (f a) (f a) P Eq σ₁ σ₂)
    (hσ : Twin Dead c₁ c₂ σ₁ σ₂) : Mut.Rel (m >>= f) (m >>= f) P Eq σ₁ σ₂ :=
  rel_bind (hm σ₁ σ₂ hσ) fun a σ₁' b σ₂' hab => by
    obtain ⟨rfl, h'⟩ := hab
    exact hf a σ₁' σ₂' h'

theorem bind (hm : Blind Dead c₁ c₂ m) (hf : ∀ a, Blind Dead c₁ c₂ (f a)) :
    Blind Dead c₁ c₂ (m >>= f) := fun _ _ => hm.andThen hf

theorem pure (a : α) : Blind Dead c₁ c₂ (pure a) := fun _ _ h => rel_pure ⟨rfl, h⟩

theorem ofState {k : State → FoldM β}
    (h : ∀ σ₁ σ₂, Twin Dead c₁ c₂ σ₁ σ₂ →
      Mut.Rel (k σ₁.j.s) (k σ₂.j.s) (Same Dead c₁ c₂) Eq σ₁ σ₂) :
    Blind Dead c₁ c₂ (getState >>= k) := fun σ₁ σ₂ hσ => rel_bind_of_ok rfl rfl (h σ₁ σ₂ hσ)

theorem ofGet {k : FoldState → FoldM β}
    (h : ∀ σ₁ σ₂, Twin Dead c₁ c₂ σ₁ σ₂ → Mut.Rel (k σ₁) (k σ₂) (Same Dead c₁ c₂) Eq σ₁ σ₂) :
    Blind Dead c₁ c₂ (Mut.get >>= k) := fun σ₁ σ₂ hσ => rel_bind_of_ok rfl rfl (h σ₁ σ₂ hσ)

theorem onResult (g : Result → Result) : Blind Dead c₁ c₂ (onResult g) := fun _ _ h =>
  rel_modify ⟨rfl, h.j, congrArg g h.res⟩

theorem onJournal {g : Journal → Journal}
    (hg : ∀ {j₁ j₂ : Journal}, Agree Dead c₁ c₂ j₁ j₂ → Agree Dead c₁ c₂ (g j₁) (g j₂)) :
    Blind Dead c₁ c₂ (onJournal g) := fun _ _ h => rel_modify ⟨rfl, hg h.j, h.res⟩

theorem require (c : Prop) [Decidable c] (e : FoldError) : Blind Dead c₁ c₂ (Mut.require c e) :=
  fun _ _ h => rel_require Iff.rfl (fun _ => ⟨rfl, h⟩) fun _ => rfl

theorem ofOption (r : Option α) (e : FoldError) : Blind Dead c₁ c₂ (Mut.ofOption r e) :=
  fun _ _ h => by
    cases r with
    | none => exact rel_fail rfl
    | some a => exact rel_pure ⟨rfl, h⟩

theorem conserve (r : U256 × Bool) (what : String) : Blind Dead c₁ c₂ (conserve r what) :=
  ofOption _ _

theorem ite {m' : FoldM α} (c : Prop) [Decidable c] (hm : Blind Dead c₁ c₂ m)
    (hm' : Blind Dead c₁ c₂ m') : Blind Dead c₁ c₂ (if c then m else m') := fun σ₁ σ₂ h =>
  rel_ite Iff.rfl (fun _ => hm σ₁ σ₂ h) fun _ => hm' σ₁ σ₂ h

theorem orUndo (hm : Blind Dead c₁ c₂ m) : Blind Dead c₁ c₂ (orUndo m) := fun σ₁ σ₂ h =>
  rel_or_else (hm σ₁ σ₂ h)

theorem addBurned (v : U256) (what : String) : Blind Dead c₁ c₂ (addBurned v what) :=
  ofGet fun σ₁ σ₂ h => by
    rw [h.res]
    exact (conserve _ _).bind (fun _ => onResult _) σ₁ σ₂ h

theorem setLive (slot : Slot) (hs : ¬ Dead slot.addr) (v : U256) :
    Blind Dead c₁ c₂ (Fold.onJournal fun j => j.set slot v) := onJournal fun h => h.set slot hs v

end Blind

/-! ## Certificates -/

section Certificate

variable {Dead : Address → Prop} {c₁ c₂ : State} {c : Certificate} {id : Hash} {p : Params}

theorem pay_refund_blind (refund : U256) : Blind Dead c₁ c₂ (payRefund c refund) :=
  .ofState fun σ₁ σ₂ h => by
    rw [← h.j.is_spent_eq]
    refine rel_ite Iff.rfl (fun _ => rel_pure ⟨rfl, h⟩) fun _ =>
      rel_ite Iff.rfl (fun _ => ?_) fun hspent => ?_
    · exact (Blind.addBurned _ _).bind (fun _ => Blind.pure _) σ₁ σ₂ h
    · have hlive : σ₁.j.s.isSpent c.deposit.refundTo.addr = false := by simpa using hspent
      rw [h.j.get_eq _ hlive]
      exact (Blind.conserve _ _).bind (fun credited =>
        (Blind.setLive _ (h.j.not_dead hlive) credited).bind fun _ => Blind.pure _) σ₁ σ₂ h

theorem settle_blind (outcome : Outcome) (charge : U256) :
    Blind Dead c₁ c₂ (settle c id outcome charge) :=
  (Blind.ite _ (Blind.addBurned _ _) (Blind.pure _)).bind fun _ =>
    (Blind.conserve _ _).bind fun refund => (pay_refund_blind refund).bind fun _ =>
      (Blind.onJournal fun h => h.markSeen id c.ttl).bind fun _ => Blind.pure _

theorem skip_blind (outcome : Outcome) : Blind Dead c₁ c₂ (skip c id p outcome) :=
  (settle_blind outcome p.skipFee).bind fun _ => .pure _

variable [Crypto]

theorem commit_blind {ov : Overlay} (fs fp : U256) (hcells : ∀ e ∈ ov.cells, ¬ Dead e.1.addr)
    (hw : ∀ w ∈ c.writes, ¬ Dead w.slot.addr) : Blind Dead c₁ c₂ (commit c id p fs fp ov) := by
  refine (Blind.onJournal fun h => (h.setAll hcells).markAllSpent ov.spend).bind fun _ =>
    .ofGet fun σ₁ σ₂ h => ?_
  have hsweep := h.j.sweepBurned (c := c) hw
  refine rel_bind_of_ok rfl rfl ?_
  rw [hsweep.swept, hsweep.stranded, hsweep.cells]
  exact (Blind.ofOption _ _).bind (fun fees => (Blind.addBurned _ _).bind fun _ =>
    (settle_blind _ _).bind fun _ => Blind.pure _) _ _ ⟨hsweep.j, h.res⟩

/-- No certificate tells two states apart by their dead storage. -/
theorem apply_certificate_blind (fs fp : U256) :
    Blind Dead c₁ c₂ (applyCertificate c id p fs fp) := by
  refine (Blind.require _ _).bind fun _ => Blind.ofState fun σ₁ σ₂ h => ?_
  rw [← h.j.is_spent_eq]
  refine rel_ite Iff.rfl (fun _ => rel_pure ⟨rfl, h⟩) fun hspent => ?_
  have hlive : σ₁.j.s.isSpent c.deposit.cell.addr = false := by simpa using hspent
  rw [h.j.get_eq _ hlive]
  refine rel_ite Iff.rfl (fun _ => rel_pure ⟨rfl, h⟩) fun _ => ?_
  refine ((Blind.setLive _ (h.j.not_dead hlive) _).bind fun _ => Blind.ofState fun τ₁ τ₂ hτ => ?_)
    σ₁ σ₂ h
  -- the reserved states read and stage alike
  have hreads : readsHold τ₁.j.s c = readsHold τ₂.j.s c := by
    rw [readsHold, readsHold, hτ.j.read_holds_eq]
  have hstage : stageWrites τ₁.j.s c = stageWrites τ₂.j.s c := by
    rw [stageWrites, stageWrites, hτ.j.stage_write_eq]
  rw [← hreads, ← hstage]
  refine rel_ite Iff.rfl (fun _ => skip_blind _ τ₁ τ₂ hτ) fun _ => ?_
  cases hs : stageWrites τ₁.j.s c with
  | error reason => exact skip_blind reason τ₁ τ₂ hτ
  | ok ov =>
    obtain ⟨hw, rfl⟩ := stage_writes_eq_ok.mp hs
    have hwrites : ∀ w ∈ c.writes, ¬ Dead w.slot.addr := fun w hmem => hτ.j.not_dead (hw w hmem).1
    refine commit_blind fs fp (fun e he => ?_) hwrites τ₁ τ₂ hτ
    obtain ⟨w, hmem, rfl⟩ := List.mem_map.mp he
    exact hwrites w (List.mem_of_mem_filter hmem)

theorem apply_next_blind (fs fp tips : U256) (cy : Carried) :
    Blind Dead c₁ c₂ (applyNext p fs fp tips cy) :=
  (Blind.onResult _).bind fun _ => (apply_certificate_blind fs fp).orUndo.bind fun _ =>
    (Blind.onResult _).bind fun _ => (Blind.conserve _ _).orUndo.bind fun _ =>
      (Blind.onResult _).bind fun _ => Blind.pure _

theorem apply_certs_blind (fs fp : U256) (ordered : List Carried) :
    Blind Dead c₁ c₂ (applyCerts p fs fp ordered) := fun σ₁ σ₂ h =>
  rel_foldlM (I := fun _ => Same Dead c₁ c₂)
    (fun cy _ tips σ₁ tips' σ₂ hI => by
      obtain ⟨rfl, hσ⟩ := hI
      exact apply_next_blind fs fp tips cy σ₁ σ₂ hσ)
    ordered 0 0 ⟨rfl, h⟩

end Certificate

/-! ## Blocks -/

section Block

variable [Crypto] {Dead : Address → Prop} {c₁ c₂ : State} {h : Header} {p : Params} {t : UInt64}
  {j₁ j₂ : Journal}

omit [Crypto] in
theorem Agree.ite (c : Prop) [Decidable c] {g : Journal → Journal} (ha : Agree Dead c₁ c₂ j₁ j₂)
    (hg : ∀ {j₁ j₂ : Journal}, Agree Dead c₁ c₂ j₁ j₂ → Agree Dead c₁ c₂ (g j₁) (g j₂)) :
    Agree Dead c₁ c₂ (if c then g j₁ else j₁) (if c then g j₂ else j₂) := by
  split
  · exact hg ha
  · exact ha

section

variable (ha : Agree Dead c₁ c₂ j₁ j₂)

include ha

omit [Crypto] in
theorem Agree.pruneExpired : Agree Dead c₁ c₂ (pruneExpired h j₁) (pruneExpired h j₂) := by
  unfold Fold.pruneExpired
  split
  · exact ha.pruneSeen _
  · exact ha

variable (hprot : ¬ Dead protocolAddress)

include hprot

theorem Agree.setProtocol (l : WordLabel) (v : U256) :
    Agree Dead c₁ c₂ (j₁.set (protocolSlot l) v) (j₂.set (protocolSlot l) v) :=
  ha.set (protocolSlot l) hprot v

/-- Opening a block keeps two states agreed outside dead storage. -/
theorem Agree.openBlock : Agree Dead c₁ c₂ (openBlock h p j₁) (openBlock h p j₂) := by
  have hbeacon : ∀ {j₁ j₂ : Journal}, Agree Dead c₁ c₂ j₁ j₂ →
      Agree Dead c₁ c₂ (writeBeacon h p j₁) (writeBeacon h p j₂) := fun ha =>
    ((ha.setProtocol hprot .beaconEpoch _).setProtocol hprot .beaconHeight _).setProtocol hprot
      .beaconEntropy _
  have hinit : ∀ {j₁ j₂ : Journal}, Agree Dead c₁ c₂ j₁ j₂ →
      Agree Dead c₁ c₂ (initMarkets p j₁) (initMarkets p j₂) := fun ha =>
    ((ha.setProtocol hprot .seqBaseFee _).setProtocol hprot .parBaseFee _).setProtocol hprot
      .seqGasTarget _
  have hupdate : ∀ {j₁ j₂ : Journal}, Agree Dead c₁ c₂ j₁ j₂ →
      Agree Dead c₁ c₂ (updateSeqGasTarget p j₁) (updateSeqGasTarget p j₂) := by
    intro j₁ j₂ ha
    have hsample := fun i => ha.live (appliedGasSampleSlot i) hprot
    have hsamples : sortedSamples p j₁.s = sortedSamples p j₂.s := by
      simp only [sortedSamples, hsample]
    have hhealthy : healthy p j₁.s = healthy p j₂.s := by
      rw [healthy, ha.live citedCountSlot hprot, healthy]
    unfold Fold.updateSeqGasTarget
    rw [hsamples, hhealthy, ha.live seqGasTargetSlot hprot]
    exact (ha.setProtocol hprot .seqGasTarget _).setProtocol hprot .citedCount 0
  -- three optional steps, one after another
  exact .ite _ (.ite _ (.ite _ ha hbeacon) hupdate) hinit

theorem Agree.recordBlock (cites : List Header) (gas : UInt64) :
    Agree Dead c₁ c₂ (recordBlock h cites p gas j₁) (recordBlock h cites p gas j₂) := by
  have hsample := ha.setProtocol hprot (.appliedGasSample (h.height % p.epochLength))
    (.fromUint64 gas)
  unfold Fold.recordBlock
  dsimp only
  split
  · have hcount := hsample.live citedCountSlot hprot
    rw [appliedGasSampleSlot, hcount]
    exact ((hsample.setProtocol hprot .citedCount _).setProtocol hprot .prevParentID _).setProtocol
      hprot .prevTarget _
  · exact (hsample.setProtocol hprot .prevParentID _).setProtocol hprot .prevTarget _

theorem Agree.storePending (index : UInt64) (payee : Address) (reward : U256) :
    Agree Dead c₁ c₂ (storePending index payee reward j₁) (storePending index payee reward j₂) := by
  unfold Fold.storePending
  split <;> exact (ha.setProtocol hprot (.coinbaseAddr index) _).setProtocol hprot
    (.coinbaseAmount index) _

theorem Agree.updateBaseFees (fs fp : U256) (res : Result) :
    Agree Dead c₁ c₂ (updateBaseFees h p t fs fp res j₁) (updateBaseFees h p t fs fp res j₂) := by
  unfold Fold.updateBaseFees
  split
  · exact (ha.setProtocol hprot .seqBaseFee _).setProtocol hprot .parBaseFee _
  · exact ha

end

omit [Crypto] in
theorem forfeit_burst_blind (reward : U256) : Blind Dead c₁ c₂ (forfeitBurst p t reward) :=
  .ofGet fun σ₁ σ₂ hσ => by
    rw [hσ.res]
    exact Blind.ite _ ((Blind.addBurned _ _).orUndo.bind fun _ => Blind.pure _)
      (Blind.pure _) σ₁ σ₂ hσ

section

variable (hprot : ¬ Dead protocolAddress)

include hprot

theorem credit_treasury_blind (share : U256) : Blind Dead c₁ c₂ (creditTreasury share) :=
  .ofState fun σ₁ σ₂ hσ => by
    rw [hσ.j.live treasurySlot hprot]
    exact Blind.ite _ (Blind.pure _) ((Blind.conserve _ _).orUndo.bind fun credited =>
      .setLive treasurySlot hprot credited) σ₁ σ₂ hσ

theorem pay_reward_blind (tips : U256) : Blind Dead c₁ c₂ (payReward h p t tips) :=
  (Blind.conserve _ _).orUndo.bind fun _ => (Blind.conserve _ _).orUndo.bind fun reward =>
    (forfeit_burst_blind reward).bind fun _ => (Blind.onResult _).bind fun _ =>
      credit_treasury_blind hprot _

theorem release_matured_blind (index : UInt64) : Blind Dead c₁ c₂ (releaseMatured index) :=
  .ofState fun σ₁ σ₂ hσ => by
    dsimp only
    rw [← hσ.j.live (pendingCoinbaseAmountSlot index) hprot,
      ← hσ.j.live (pendingCoinbaseAddrSlot index) hprot, ← hσ.j.is_spent_eq]
    refine rel_ite Iff.rfl (fun _ => rel_pure ⟨rfl, hσ⟩) fun _ =>
      rel_ite Iff.rfl (fun _ => ?_) fun hspent => ?_
    · exact (Blind.addBurned _ _).bind (fun _ => Blind.pure _) σ₁ σ₂ hσ
    · generalize (σ₁.j.s.get (pendingCoinbaseAddrSlot index)).bytes32 = payee at hspent ⊢
      have hlive : σ₁.j.s.isSpent payee = false := by simpa using hspent
      rw [hσ.j.get_eq (nativeBalanceSlot payee) hlive]
      exact (Blind.conserve _ _).bind (fun credited => (Blind.setLive (nativeBalanceSlot payee)
        (hσ.j.not_dead hlive) credited).bind fun _ => .pure _) σ₁ σ₂ hσ

theorem roll_coinbase_ring_blind : Blind Dead c₁ c₂ (rollCoinbaseRing h p) :=
  (release_matured_blind hprot _).bind fun _ => .ofGet fun σ₁ σ₂ hσ => by
    rw [hσ.res]
    exact (Blind.onJournal fun ha => ha.storePending hprot _ _ _).bind
      (fun _ => Blind.pure _) σ₁ σ₂ hσ

end

/-! ## The rules and the transition -/

theorem Agree.target_eq (ha : Agree Dead c₁ c₂ j₁ j₂) (hprot : ¬ Dead protocolAddress) :
    currentSeqGasTarget j₁.s = currentSeqGasTarget j₂.s := by
  funext p height
  rw [currentSeqGasTarget, ha.live seqGasTargetSlot hprot, currentSeqGasTarget]

/-- The block rules do not see dead storage. -/
theorem Agree.check_block_rules_eq (ha : Agree Dead c₁ c₂ j₁ j₂) (hprot : ¬ Dead protocolAddress)
    (b : Block) : checkBlockRules j₁.s b p = checkBlockRules j₂.s b p := by
  have hfees : currentBaseFees j₁.s = currentBaseFees j₂.s := by
    funext p height
    rw [currentBaseFees, ha.live seqBaseFeeSlot hprot, ha.live parBaseFeeSlot hprot,
      currentBaseFees]
  have hcite : checkCite j₁.s = checkCite j₂.s := by
    funext h lastID i cited
    rw [checkCite, ha.live prevParentIDSlot hprot, ha.live prevTargetSlot hprot, checkCite]
  have hcites : ∀ h lastID i cites,
      checkCitesFrom j₁.s h lastID i cites = checkCitesFrom j₂.s h lastID i cites := by
    intro h lastID i cites
    induction cites generalizing lastID i with
    | nil => rfl
    | cons cited rest ih => simp only [checkCitesFrom, hcite, ih]
  have hcert : checkCert j₁.s = checkCert j₂.s := by
    funext h p i cy inBlock
    rw [checkCert, hfees, ha.seen_ttl_eq, checkCert]
  have hcerts : ∀ h p i cc inBlock gas,
      checkCerts j₁.s h p i cc inBlock gas = checkCerts j₂.s h p i cc inBlock gas := by
    intro h p i cc inBlock gas
    induction cc generalizing i inBlock gas with
    | nil => rfl
    | cons cy rest ih => simp only [checkCerts, hcert, ih]
  funext cc
  simp only [checkBlockRules, checkCites, ha.target_eq hprot, hcites, hcerts]

/-- Twins after a block: the state root is the one field in which their results may differ. -/
def Sealed (Dead : Address → Prop) (c₁ c₂ : State) (_ : Unit) (σ₁ : FoldState) (_ : Unit)
    (σ₂ : FoldState) : Prop :=
  Agree Dead c₁ c₂ σ₁.j σ₂.j ∧ σ₁.res = { σ₂.res with stateRoot := σ₁.res.stateRoot }

variable {σ₁ σ₂ : FoldState}

theorem seal_root_sealed (hσ : Twin Dead c₁ c₂ σ₁ σ₂) :
    Mut.Rel (sealRoot h p false) (sealRoot h p false) (Sealed Dead c₁ c₂) Eq σ₁ σ₂ := by
  by_cases hb : p.isEpochBoundary h.height = true
  · have hrun : ∀ σ : FoldState, sealRoot h p false σ =
        (.ok (), { σ with res := { σ.res with stateRoot := σ.j.s.root } }) := by
      intro σ
      simp [sealRoot, hb, getState, onResult, orUndo, Mut.require, Mut.modify, Mut.orElse,
        Bind.bind, Pure.pure]
    exact .returns (hrun σ₁) (hrun σ₂) ⟨hσ.j, by simp [hσ.res]⟩
  · have hrun : ∀ σ : FoldState, sealRoot h p false σ = (.ok (), σ) := by
      intro σ
      simp [sealRoot, hb, getState, Bind.bind, Pure.pure]
    exact .returns (hrun σ₁) (hrun σ₂) ⟨hσ.j, by simp [hσ.res]⟩

/-- A transition of two agreeing states differs in the root alone. -/
theorem transition_sealed (hprot : ¬ Dead protocolAddress) (cites : List Header)
    (ordered : List Carried) (hσ : Twin Dead c₁ c₂ σ₁ σ₂) :
    Mut.Rel (transition h cites ordered p t false) (transition h cites ordered p t false)
      (Sealed Dead c₁ c₂) Eq σ₁ σ₂ := by
  refine (Blind.onJournal fun ha => ha.openBlock hprot).andThen (fun _ σ₁ σ₂ hσ => ?_) hσ
  -- the base fees are read off the opened state
  refine rel_bind_of_ok rfl rfl ?_
  rw [hσ.j.live seqBaseFeeSlot hprot, hσ.j.live parBaseFeeSlot hprot]
  refine (apply_certs_blind _ _ ordered).andThen (fun tips σ₁ σ₂ hσ => ?_) hσ
  refine rel_bind_of_ok rfl rfl ?_
  rw [hσ.res]
  refine (Blind.onJournal fun ha => ha.recordBlock hprot cites _).andThen (fun _ _ _ hσ => ?_) hσ
  refine (Blind.onJournal fun ha => ha.pruneExpired).andThen (fun _ _ _ hσ => ?_) hσ
  refine (pay_reward_blind hprot tips).andThen (fun _ _ _ hσ => ?_) hσ
  refine (roll_coinbase_ring_blind hprot).orUndo.andThen (fun matured _ _ hσ => ?_) hσ
  refine (Blind.onResult _).andThen (fun _ σ₁ σ₂ hσ => ?_) hσ
  refine rel_bind_of_ok rfl rfl ?_
  rw [hσ.res]
  exact (Blind.onJournal fun ha => ha.updateBaseFees hprot _ _ _).andThen
    (fun _ _ _ hσ => seal_root_sealed hσ) hσ

/-- A block is refused alike, or applied to twins alike. -/
theorem apply_twins {s₁ s₂ : State} {b : Block} (hprot : ¬ Dead protocolAddress)
    (ha : Agree Dead c₁ c₂ ⟨s₁, UndoLog.empty⟩ ⟨s₂, UndoLog.empty⟩) :
    (∃ e s₁' s₂', apply s₁ b p false = (.error e, s₁') ∧ apply s₂ b p false = (.error e, s₂')) ∨
      ∃ r₁ s₁' r₂ s₂', apply s₁ b p false = (.ok r₁, s₁') ∧ apply s₂ b p false = (.ok r₂, s₂') ∧
        r₁ = { r₂ with stateRoot := r₁.stateRoot } ∧
        ∃ log₁ log₂, Agree Dead c₁ c₂ ⟨s₁', log₁⟩ ⟨s₂', log₂⟩ := by
  have hrules : checkBlockRules s₁ b p = checkBlockRules s₂ b p := ha.check_block_rules_eq hprot b
  have htarget : currentSeqGasTarget s₁ = currentSeqGasTarget s₂ := ha.target_eq hprot
  unfold apply
  rw [hrules, htarget]
  dsimp only
  cases checkBlockRules s₂ b p (carry b.certs) with
  | error e => exact .inl ⟨e, s₁, s₂, rfl, rfl⟩
  | ok _ =>
    have htwin : Twin Dead c₁ c₂ ⟨⟨s₁, UndoLog.empty⟩, Result.empty⟩
        ⟨⟨s₂, UndoLog.empty⟩, Result.empty⟩ := ⟨ha, rfl⟩
    have hrel := transition_sealed (p := p) (t := currentSeqGasTarget s₂ p b.header.height)
      (h := b.header) hprot b.cites (foldOrder (carry b.certs)) htwin
    cases hrel with
    | returns hm hn h =>
      obtain ⟨hj, hres⟩ := h
      refine Or.inr ⟨_, _, _, _, by rw [hm], by rw [hn], ?_, _, _, hj⟩
      rw [hres, hj.log]
    | fails hm hn h =>
      subst h
      exact Or.inl ⟨_, _, _, by rw [hm], by rw [hn]⟩

/-- Burned addresses are dead storage. On two states with the same registry, in which the protocol
address is not burned, the same seen set and the same cells outside the burned addresses, the fold
without the root comparison gives the same error, or the same result up to the state root. The
states it leaves have the same registry, the same seen set and the same cells outside the
addresses that were burned before the block; under those every cell is as before, and they are
still burned. -/
theorem dead_storage {s₁ s₂ : State} {b : Block} (hspent : s₁.spent = s₂.spent)
    (hseen : s₁.seen = s₂.seen)
    (hcells : ∀ slot : Slot, s₁.isSpent slot.addr = false → s₁.get slot = s₂.get slot)
    (hprot : s₁.isSpent protocolAddress = false) :
    (∀ e, sealOutcomes s₁ b p = .error e ↔ sealOutcomes s₂ b p = .error e) ∧
    (∀ r₁, sealOutcomes s₁ b p = .ok r₁ → ∃ r₂, sealOutcomes s₂ b p = .ok r₂ ∧
      r₁ = { r₂ with stateRoot := r₁.stateRoot }) ∧
    ∀ r₁ s₁' r₂ s₂', apply s₁ b p false = (.ok r₁, s₁') → apply s₂ b p false = (.ok r₂, s₂') →
      s₁'.spent = s₂'.spent ∧ s₁'.seen = s₂'.seen ∧
      (∀ slot : Slot, s₁.isSpent slot.addr = false → s₁'.get slot = s₂'.get slot) ∧
      (∀ slot : Slot, s₁.isSpent slot.addr = true →
        s₁'.get slot = s₁.get slot ∧ s₂'.get slot = s₂.get slot) ∧
      ∀ a, s₁.isSpent a = true → s₁'.isSpent a = true := by
  have hlive : ∀ {a : Address}, ¬ s₁.isSpent a = true ↔ s₁.isSpent a = false := by simp
  have hstart : Agree (fun a => s₁.isSpent a = true) s₁ s₂ ⟨s₁, UndoLog.empty⟩
      ⟨s₂, UndoLog.empty⟩ :=
    ⟨hspent, hseen, rfl, fun slot hs => hcells slot (hlive.mp hs), fun _ _ => rfl, fun _ _ => rfl,
      fun _ h => h⟩
  rcases apply_twins (b := b) (p := p) (hlive.mpr hprot) hstart with
    ⟨e, t₁, t₂, h₁, h₂⟩ | ⟨q₁, t₁, q₂, t₂, h₁, h₂, hres, _, _, hagree⟩
  · simp [sealOutcomes, h₁, h₂]
  · refine ⟨fun e => by simp [sealOutcomes, h₁, h₂], fun r₁ hr => ?_,
      fun r₁ s₁' r₂ s₂' hr₁ hr₂ => ?_⟩
    · obtain rfl : q₁ = r₁ := by simpa [sealOutcomes, h₁] using hr
      exact ⟨q₂, by simp [sealOutcomes, h₂], hres⟩
    · obtain ⟨rfl, rfl⟩ : q₁ = r₁ ∧ t₁ = s₁' := by simpa using h₁.symm.trans hr₁
      obtain ⟨rfl, rfl⟩ : q₂ = r₂ ∧ t₂ = s₂' := by simpa using h₂.symm.trans hr₂
      exact ⟨hagree.spent, hagree.seen, fun slot hs => hagree.live slot (hlive.mpr hs),
        fun slot hs => ⟨hagree.dead₁ slot hs, hagree.dead₂ slot hs⟩, hagree.burned⟩

end Block

section Sample

open Sample

attribute [local instance] Reference.crypto

namespace Sample

/-- A state in which only an address is burned. -/
def burnt (a : Address) : State := State.new.markSpent a

/-- The state after the first user was funded and an address was burned. -/
def fundedBurnt (a : Address) : State :=
  (((produce params funding).map Prod.snd).getD .new).markSpent a

end Sample

/-- A payment on two states that differ in what a burned address holds: both runs of the fold
apply it, with the same result up to the root. -/
theorem sample_dead_storage :
    ∃ s₁ s₂ b slot, s₁.isSpent slot.addr = true ∧ s₁.get slot ≠ s₂.get slot ∧ b.certs = [payment] ∧
      ∃ r₁ r₂, sealOutcomes s₁ b params = .ok r₁ ∧ sealOutcomes s₂ b params = .ok r₂ ∧
        r₁ = { r₂ with stateRoot := r₁.stateRoot } := by
  let s := fundedBurnt (user 7)
  let slot := nativeBalanceSlot (user 7)
  let b := assemble s params (header 3 (user 1)) [payment]
  obtain ⟨r₁, hr₁⟩ : ∃ r₁, sealOutcomes (s.set slot 1) b params = .ok r₁ :=
    Except.exists_of_is_some (by decide +kernel)
  have hprot : (s.set slot 1).isSpent protocolAddress = false := by decide +kernel
  have hcells : ∀ k : Slot, (s.set slot 1).isSpent k.addr = false →
      (s.set slot 1).get k = s.get k := by
    intro k hk
    refine State.get_set_of_ne _ _ fun heq => ?_
    rw [State.is_spent_set] at hk
    change (fundedBurnt (user 7)).isSpent k.addr = false at hk
    rw [fundedBurnt, State.is_spent_mark_spent, ← heq] at hk
    simp [slot, nativeBalanceSlot, balanceSlot] at hk
  obtain ⟨-, hsame, -⟩ := dead_storage (b := b) (p := params)
    (State.spent_set s slot 1) (State.seen_set s slot 1) hcells hprot
  obtain ⟨r₂, hr₂, hres⟩ := hsame r₁ hr₁
  exact ⟨_, _, b, slot, by decide +kernel, by decide +kernel, rfl, r₁, r₂, hr₁, hr₂, hres⟩

/-- Were the protocol address burned, a block would still write the cells under it. -/
theorem sample_burned_protocol_written :
    ∃ s b slot, s.isSpent slot.addr = true ∧ (sealOutcomes s b params).isOk = true ∧
      (apply s b params false).2.get slot ≠ s.get slot :=
  ⟨burnt protocolAddress, assemble State.new params (header 0 0) [], seqBaseFeeSlot,
    by decide +kernel, by decide +kernel, by decide +kernel⟩

end Sample

end Zycord.Fold
