import Zycord.Fold.Journal

/-!
# The footprint of each step of the fold

For every function of the fold, the part of the state it may write. `Framed F m` says that the
computation `m` stays inside the footprint `F` whether it returns or fails; it composes, so the
footprint of a certificate (`apply_certificate_framed`) and of the end-of-block steps come out of
those of their parts.
-/

namespace Zycord.Fold

open List U256
open Journal (Footprint Writes)
open Validity (spentHere)

/-! ## Rules for the primitives -/

section Rules

variable {α : Type} {Q : α → FoldState → Prop} {E : FoldError → FoldState → Prop} {σ : FoldState}

@[simp] theorem wp_get_state {Q : State → FoldState → Prop} :
    Mut.wp getState Q E σ ↔ Q σ.j.s σ := Iff.rfl

@[simp] theorem wp_on_journal {Q : Unit → FoldState → Prop} (f : Journal → Journal) :
    Mut.wp (onJournal f) Q E σ ↔ Q () { σ with j := f σ.j } := Iff.rfl

@[simp] theorem wp_on_result {Q : Unit → FoldState → Prop} (f : Result → Result) :
    Mut.wp (onResult f) Q E σ ↔ Q () { σ with res := f σ.res } := Iff.rfl

@[simp] theorem wp_or_undo (m : FoldM α) :
    Mut.wp (orUndo m) Q E σ ↔ Mut.wp m Q (fun e σ' => E e { σ' with j := σ'.j.undo }) σ :=
  Mut.wp_or_else _

@[simp] theorem wp_conserve_add {Q : U256 → FoldState → Prop} (u v : U256) (what : String) :
    Mut.wp (conserve (u.add v) what) Q E σ ↔ (∀ w : U256, w.toNat = u.toNat + v.toNat → Q w σ) ∧
        (2 ^ 256 ≤ u.toNat + v.toNat → E (.conservationFailure what) σ) := by
  simp [conserve, checked_add_eq_some, checked_add_eq_none]

@[simp] theorem wp_conserve_sub {Q : U256 → FoldState → Prop} (u v : U256) (what : String) :
    Mut.wp (conserve (u.sub v) what) Q E σ ↔ (∀ w : U256, w.toNat + v.toNat = u.toNat → Q w σ) ∧
        (u.toNat < v.toNat → E (.conservationFailure what) σ) := by
  simp [conserve, checked_sub_eq_some, checked_sub_eq_none]

@[simp] theorem wp_add_burned {Q : Unit → FoldState → Prop} (v : U256) (what : String) :
    Mut.wp (addBurned v what) Q E σ ↔ (∀ w : U256, w.toNat = σ.res.burned.toNat + v.toNat →
        Q () { σ with res := { σ.res with burned := w } }) ∧
        (2 ^ 256 ≤ σ.res.burned.toNat + v.toNat → E (.conservationFailure what) σ) := by
  simp [addBurned]

end Rules

/-! ## Framed computations -/

/-- A computation that writes only inside a footprint, also when it fails. -/
def Framed {α : Type} (F : Footprint) (m : FoldM α) : Prop :=
  ∀ σ, Mut.wp m (fun _ σ' => Writes F σ.j σ'.j) (fun _ σ' => Writes F σ.j σ'.j) σ

namespace Framed

variable {α β : Type} {F G : Footprint} {m : FoldM α} {f : α → FoldM β}

theorem bind (hm : Framed F m) (hf : ∀ a, Framed F (f a)) : Framed F (m >>= f) := fun σ =>
  Mut.wp_seq (hm σ) fun a σ' h =>
    Mut.wp_mono (hf a σ') (fun _ _ h' => h.trans h') fun _ _ h' => h.trans h'

theorem pure (a : α) : Framed F (pure a) := fun σ => .refl σ.j

theorem get : Framed F (Mut.get : FoldM FoldState) := fun σ => .refl σ.j

theorem getState : Framed F Fold.getState := fun σ => .refl σ.j

theorem onResult (g : Result → Result) : Framed F (onResult g) := fun σ => .refl σ.j

theorem onJournal {g : Journal → Journal} (hg : ∀ j, Writes F j (g j)) :
    Framed F (onJournal g) := fun σ => hg σ.j

theorem require (c : Prop) [Decidable c] (e : FoldError) : Framed F (Mut.require c e) := fun σ => by
  simp [Writes.refl]

theorem ofOption (r : Option α) (e : FoldError) : Framed F (Mut.ofOption r e) := fun σ => by
  simp [Writes.refl]

theorem ite {m' : FoldM α} (c : Prop) [Decidable c] (hm : Framed F m) (hm' : Framed F m') :
    Framed F (if c then m else m') := by
  split
  · exact hm
  · exact hm'

theorem mono (h : Framed F m) (hFG : F.Within G) : Framed G m := fun σ =>
  Mut.wp_mono (h σ) (fun _ _ h => h.mono hFG) fun _ _ h => h.mono hFG

theorem conserve (r : U256 × Bool) (what : String) : Framed F (conserve r what) := ofOption _ _

theorem onGet {g : FoldState → Journal} {k : FoldState → FoldM β}
    (hg : ∀ σ, Writes F σ.j (g σ)) (hk : ∀ σ, Framed F (k σ)) :
    Framed F (Mut.get >>= fun σ => Fold.onJournal (fun _ => g σ) >>= fun _ => k σ) := by
  intro σ
  exact Mut.wp_mono (hk σ _) (fun _ _ h => (hg σ).trans h) fun _ _ h => (hg σ).trans h

theorem addBurned (v : U256) (what : String) : Framed F (addBurned v what) :=
  get.bind fun _ => (conserve _ _).bind fun _ => onResult _

end Framed

/-! ## Pure steps -/

section Pure

variable {F : Footprint} {j : Journal}

theorem set_writes {slot : Slot} {v : U256} (h : F.cells slot) : Writes F j (j.set slot v) :=
  (Writes.refl j).set slot v h

theorem set_all_writes {cells : List (Slot × U256)} (h : ∀ e ∈ cells, F.cells e.1) :
    Writes F j (j.setAll cells) := by
  exact cells.foldlRecOn _ (.refl j) fun _ hj e he => hj.trans (set_writes (h e he))

theorem mark_all_spent_writes {addrs : List Address} (h : ∀ a ∈ addrs, F.burns a) :
    Writes F j (j.markAllSpent addrs) := by
  exact addrs.foldlRecOn _ (.refl j) fun _ hj a ha => hj.markSpent a (h a ha)

theorem move_residual_writes {src : Slot} {dst : Address} (hs : F.cells src)
    (hd : F.cells ⟨dst, src.word⟩) : Writes F j (moveResidual j src dst).1 := by
  unfold moveResidual
  dsimp only
  split_ifs
  · exact .refl j
  · exact .refl j
  · split
    · exact .refl j
    · exact (set_writes hs).trans (set_writes hd)

theorem get_set_all (j : Journal) (cells : List (Slot × U256)) (slot : Slot) :
    (j.setAll cells).s.get slot = j.s.get slot ∨ (slot, (j.setAll cells).s.get slot) ∈ cells := by
  refine cells.foldlRecOn (motive := fun j' : Journal => j'.s.get slot = j.s.get slot ∨
    (slot, j'.s.get slot) ∈ cells) _ (.inl rfl) fun j' h e he => ?_
  by_cases heq : e.1 = slot
  · subst heq
    rw [Journal.s_set, State.get_set_self]
    exact .inr he
  · rwa [Journal.s_set, State.get_set_of_ne _ _ heq]

@[simp] theorem get_mark_all_spent (j : Journal) (addrs : List Address) (slot : Slot) :
    (j.markAllSpent addrs).s.get slot = j.s.get slot := by
  refine addrs.foldlRecOn (motive := fun j' : Journal => j'.s.get slot = j.s.get slot) _ rfl
    fun j' h a _ => ?_
  rw [Journal.get_mark_spent, h]

/-- A residual stays, or moves whole. -/
theorem move_residual_cases (j : Journal) (src : Slot) (dst : Address) :
    (moveResidual j src dst).1 = j ∨ ∃ sum : U256,
      sum.toNat = (j.s.get ⟨dst, src.word⟩).toNat + (j.s.get src).toNat ∧
        (moveResidual j src dst).1 = (j.set src 0).set ⟨dst, src.word⟩ sum := by
  unfold moveResidual
  dsimp only
  split_ifs
  · exact .inl rfl
  · exact .inl rfl
  · split
    · exact .inl rfl
    · rename_i sum hsum
      exact .inr ⟨sum, checked_add_eq_some.mp hsum, rfl⟩

end Pure

/-! ## The sweep -/

/-- Residuals of addresses a certificate burns, moved to its refund address one after another. -/
inductive Moves (c : Certificate) (j : Journal) : Journal → Prop where
  | refl : Moves c j j
  | move {j' : Journal} (src : Slot) (h : Moves c j j') (hs : src.addr ∈ spentHere c) :
      Moves c j (moveResidual j' src c.deposit.refundTo.addr).1

section Sweep

variable {c : Certificate} {j j' : Journal}

theorem Moves.trans {j'' : Journal} (h : Moves c j j') (h' : Moves c j' j'') : Moves c j j'' := by
  induction h' with
  | refl => exact h
  | move src _ hs ih => exact ih.move src hs

theorem mem_spent_here {a : Address} :
    a ∈ spentHere c ↔ ∃ w ∈ c.writes, w.op = .markSpent ∧ w.slot.addr = a := by
  simp [spentHere, and_assoc]

theorem sweep_cells_moves {a : Address} (ha : a ∈ spentHere c) (native : Slot → Bool)
    (ws : List Write) (acc : Sweep) :
    Moves c acc.j (ws.foldl (sweepCell c.deposit.refundTo.addr a native) acc).j := by
  refine ws.foldlRecOn (motive := fun acc' : Sweep => Moves c acc.j acc'.j) _ .refl
    fun acc' h x _ => ?_
  unfold sweepCell
  split_ifs with hskip
  · exact h
  · simp only [Bool.or_eq_true, decide_eq_true_eq, not_or, not_not] at hskip
    exact h.move x.slot (hskip.1.1 ▸ ha)

variable [Crypto]

theorem sweep_address_moves {w : Write} (hw : w ∈ c.writes) (acc : Sweep) :
    Moves c acc.j (sweepAddress c acc w).j := by
  unfold sweepAddress
  split_ifs with hop
  · exact .refl
  · have ha : w.slot.addr ∈ spentHere c := mem_spent_here.mpr ⟨w, hw, not_not.mp hop, rfl⟩
    exact (Moves.refl.move (nativeBalanceSlot w.slot.addr) ha).trans
      (sweep_cells_moves ha _ _ (sweepNative c acc w.slot.addr))

theorem sweep_addresses_moves {ws : List Write} (hws : ∀ w ∈ ws, w ∈ c.writes) (acc : Sweep) :
    Moves c acc.j (ws.foldl (sweepAddress c) acc).j :=
  ws.foldlRecOn (motive := fun acc' : Sweep => Moves c acc.j acc'.j) _ .refl fun acc' h w hw =>
    h.trans (sweep_address_moves (hws w hw) acc')

theorem sweep_burned_moves (c : Certificate) (j : Journal) : Moves c j (sweepBurned c j).j :=
  sweep_addresses_moves (fun _ hw => hw) ⟨j, 0, 0, 0⟩

end Sweep

/-! ## Staging -/

/-- What a write leaves in its cell. -/
def stagedValue (s : State) (w : Write) : U256 :=
  match w.op with
  | .set => w.value
  | .deltaAdd => ((s.get w.slot).add w.value).1
  | .deltaSub => ((s.get w.slot).sub w.value).1
  | _ => 0

/-- A write does not leave the range of a word. -/
def InRange (s : State) (w : Write) : Prop :=
  match w.op with
  | .deltaAdd => (s.get w.slot).toNat + w.value.toNat < 2 ^ 256
  | .deltaSub => w.value.toNat ≤ (s.get w.slot).toNat
  | .unknown _ => False
  | _ => True

/-- What writes stage when all are in range. -/
def overlayOf (s : State) (ws : List Write) : Overlay where
  cells := (ws.filter fun w => w.op ≠ .markSpent).map fun w => (w.slot, stagedValue s w)
  spend := (ws.filter fun w => w.op = .markSpent).map fun w => w.slot.addr

section Staging

variable {s : State} {w : Write} {ov ov' : Overlay} {reason : Outcome} {c : Certificate}

/-- A write is staged when its address is unspent and its value in range. -/
theorem stage_write_eq_ok :
    stageWrite s ov w = .ok ov' ↔ (s.isSpent w.slot.addr = false ∧ InRange s w) ∧
      ov' = ⟨ov.cells ++ (overlayOf s [w]).cells, ov.spend ++ (overlayOf s [w]).spend⟩ := by
  by_cases hs : s.isSpent w.slot.addr = true
  · simp [stageWrite, hs]
  · cases hop : w.op with
    | markSpent => simp [stageWrite, hs, hop, overlayOf, InRange, eq_comm]
    | set => simp [stageWrite, hs, hop, overlayOf, InRange, stagedValue, eq_comm]
    | deltaAdd =>
      cases hv : checked ((s.get w.slot).add w.value) with
      | none =>
        have := checked_add_eq_none.mp hv
        simp [stageWrite, hs, hop, hv, InRange]
        omega
      | some v =>
        have hval := checked_add_eq_some.mp hv
        have hlt : (s.get w.slot).toNat + w.value.toNat < 2 ^ 256 := hval ▸ v.isLt
        have heq : ((s.get w.slot).add w.value).1 = v :=
          ext (by rw [to_nat_add hlt, hval])
        simp only [stageWrite, hs, hop, hv, InRange, hlt]
        simp [overlayOf, hop, stagedValue, heq, eq_comm]
    | deltaSub =>
      cases hv : checked ((s.get w.slot).sub w.value) with
      | none =>
        have := checked_sub_eq_none.mp hv
        simp [stageWrite, hs, hop, hv, InRange]
        omega
      | some v =>
        have hval := checked_sub_eq_some.mp hv
        have hle : w.value.toNat ≤ (s.get w.slot).toNat := by omega
        have heq : ((s.get w.slot).sub w.value).1 = v :=
          ext (by rw [to_nat_sub hle]; omega)
        simp [stageWrite, hs, hop, hv, InRange, overlayOf, stagedValue, hle, heq, eq_comm]
    | unknown code => simp [stageWrite, hs, hop, InRange]

theorem stage_write_error (h : stageWrite s ov w = .error reason) :
    (s.isSpent w.slot.addr = true ∧ reason = .skippedStale) ∨
      (¬ InRange s w ∧ reason = .skippedOverflow) := by
  by_cases hs : s.isSpent w.slot.addr = true
  · simp only [stageWrite, hs, if_true, Except.error.injEq] at h
    exact .inl ⟨hs, h.symm⟩
  · refine .inr ⟨fun hin => ?_, ?_⟩
    · have hok : stageWrite s ov w = .ok _ :=
        stage_write_eq_ok.mpr ⟨⟨by simpa using hs, hin⟩, rfl⟩
      rw [hok] at h
      simp at h
    · simp only [stageWrite, hs, Bool.false_eq_true, if_false] at h
      split at h <;> try split at h
      all_goals simp_all

theorem overlay_of_append (ws ws' : List Write) :
    overlayOf s (ws ++ ws') = ⟨(overlayOf s ws).cells ++ (overlayOf s ws').cells,
        (overlayOf s ws).spend ++ (overlayOf s ws').spend⟩ := by
  simp [overlayOf]

/-- A list of writes is staged when each of them is. -/
theorem stage_list_eq_ok {ws : List Write} :
    ws.foldlM (stageWrite s) ov = .ok ov' ↔
      (∀ w ∈ ws, s.isSpent w.slot.addr = false ∧ InRange s w) ∧
      ov' = ⟨ov.cells ++ (overlayOf s ws).cells, ov.spend ++ (overlayOf s ws).spend⟩ := by
  induction ws generalizing ov with
  | nil =>
    simp only [foldlM_nil, overlayOf, filter_nil, map_nil, append_nil,
      not_mem_nil, false_implies, implies_true, true_and]
    exact ⟨fun h => by simpa [pure, Except.pure, eq_comm] using h, fun h => by rw [h]; rfl⟩
  | cons w rest ih =>
    rw [foldlM_cons, Except.bind_eq_ok]
    simp only [stage_write_eq_ok, ih, forall_mem_cons]
    rw [show w :: rest = [w] ++ rest from rfl, overlay_of_append]
    constructor
    · rintro ⟨mid, ⟨hw, rfl⟩, hrest, rfl⟩
      exact ⟨⟨hw, hrest⟩, by simp⟩
    · rintro ⟨⟨hw, hrest⟩, rfl⟩
      exact ⟨_, ⟨hw, rfl⟩, hrest, by simp⟩

theorem stage_writes_eq_ok :
    stageWrites s c = .ok ov ↔
      (∀ w ∈ c.writes, s.isSpent w.slot.addr = false ∧ InRange s w) ∧
        ov = overlayOf s c.writes := by
  simp [stageWrites, stage_list_eq_ok]

/-- Why staging fails: a spent address or a value out of range. -/
theorem stage_writes_error (h : stageWrites s c = .error reason) :
    (reason = .skippedStale ∧ ∃ w ∈ c.writes, s.isSpent w.slot.addr = true) ∨
      (reason = .skippedOverflow ∧ ∃ w ∈ c.writes, ¬ InRange s w) := by
  have hloop : ∀ (ws : List Write) (ov : Overlay), ws.foldlM (stageWrite s) ov = .error reason →
      (reason = .skippedStale ∧ ∃ w ∈ ws, s.isSpent w.slot.addr = true) ∨
        (reason = .skippedOverflow ∧ ∃ w ∈ ws, ¬ InRange s w) := by
    intro ws
    induction ws with
    | nil => intro ov h; simp [List.foldlM, pure, Except.pure] at h
    | cons w rest ih =>
      intro ov h
      rw [foldlM_cons] at h
      cases hw : stageWrite s ov w with
      | error r =>
        rw [hw] at h
        obtain rfl : r = reason := by simpa [bind, Except.bind] using h
        rcases stage_write_error hw with ⟨hs, hr⟩ | ⟨hin, hr⟩
        · exact .inl ⟨hr, w, mem_cons_self, hs⟩
        · exact .inr ⟨hr, w, mem_cons_self, hin⟩
      | ok mid =>
        rw [hw] at h
        rcases ih mid h with ⟨hr, x, hx, hs⟩ | ⟨hr, x, hx, hin⟩
        · exact .inl ⟨hr, x, mem_cons_of_mem _ hx, hs⟩
        · exact .inr ⟨hr, x, mem_cons_of_mem _ hx, hin⟩
  exact hloop c.writes ⟨[], []⟩ h

end Staging

/-! ## Certificates -/

/-- A certificate names an address. -/
def Names (c : Certificate) (a : Address) : Prop :=
  a = c.deposit.cell.addr ∨ a = c.deposit.refundTo.addr ∨ ∃ w ∈ c.writes, a = w.slot.addr

/-- What a certificate can write. -/
def certFootprint (c : Certificate) (id : Hash) : Footprint where
  cells slot := Names c slot.addr
  burns a := a ∈ spentHere c
  ids id' ttl := id' = id ∧ ttl = c.ttl

section Certificate

variable [Crypto] {c : Certificate} {id : Hash} {p : Params}

omit [Crypto] in
theorem pay_refund_framed (refund : U256) : Framed (certFootprint c id) (payRefund c refund) := by
  refine Framed.getState.bind fun s => Framed.ite _ (Framed.pure _) (Framed.ite _ ?_ ?_)
  · exact (Framed.addBurned _ _).bind fun _ => Framed.pure _
  · exact (Framed.conserve _ _).bind fun _ =>
      (Framed.onJournal fun j => set_writes (Or.inr (Or.inl rfl))).bind fun _ => Framed.pure _

omit [Crypto] in
theorem settle_framed (outcome : Outcome) (charge : U256) :
    Framed (certFootprint c id) (settle c id outcome charge) := by
  refine (Framed.ite _ (Framed.addBurned _ _) (Framed.pure _)).bind fun _ => ?_
  refine (Framed.conserve _ _).bind fun refund => (pay_refund_framed refund).bind fun _ => ?_
  refine (Framed.onJournal fun j => ?_).bind fun _ => Framed.pure _
  exact (Writes.refl j).markSeen id c.ttl ⟨rfl, rfl⟩

omit [Crypto] in
theorem skip_framed (outcome : Outcome) : Framed (certFootprint c id) (skip c id p outcome) :=
  (settle_framed outcome p.skipFee).bind fun _ => .pure _

omit [Crypto] in
theorem Moves.writes {j j' : Journal} (h : Moves c j j') : Writes (certFootprint c id) j j' := by
  induction h with
  | refl => exact .refl j
  | move src _ hs ih =>
    obtain ⟨w, hw, -, ha⟩ := mem_spent_here.mp hs
    exact ih.trans (move_residual_writes (.inr (.inr ⟨w, hw, ha.symm⟩)) (.inr (.inl rfl)))

theorem sweep_burned_cert_writes (j : Journal) :
    Writes (certFootprint c id) j (sweepBurned c j).j := (sweep_burned_moves c j).writes

omit [Crypto] in
theorem overlay_writes (s : State) (j : Journal) :
    Writes (certFootprint c id) j
      ((j.setAll (overlayOf s c.writes).cells).markAllSpent (overlayOf s c.writes).spend) := by
  refine (set_all_writes ?_).trans (mark_all_spent_writes fun a ha => ha)
  intro e he
  obtain ⟨w, hw, rfl⟩ := mem_map.mp he
  exact .inr (.inr ⟨w, mem_of_mem_filter hw, rfl⟩)

theorem commit_framed (s : State) (seqBaseFee parBaseFee : U256) :
    Framed (certFootprint c id)
      (commit c id p seqBaseFee parBaseFee (overlayOf s c.writes)) := by
  refine (Framed.onJournal fun j => overlay_writes s j).bind fun _ => ?_
  refine Framed.onGet (fun σ => sweep_burned_cert_writes σ.j) fun σ => ?_
  refine (Framed.ofOption _ _).bind fun fees => (Framed.addBurned _ _).bind fun _ => ?_
  exact (settle_framed _ _).bind fun _ => Framed.pure _

/-- A certificate stays inside its footprint, whatever becomes of it. -/
theorem apply_certificate_framed (seqBaseFee parBaseFee : U256) :
    Framed (certFootprint c id) (applyCertificate c id p seqBaseFee parBaseFee) := by
  refine (Framed.require _ _).bind fun _ => Framed.getState.bind fun s => ?_
  refine Framed.ite _ (Framed.pure _) (Framed.ite _ (Framed.pure _) ?_)
  refine (Framed.onJournal fun j => set_writes (Or.inl rfl)).bind fun _ => ?_
  refine Framed.getState.bind fun s => Framed.ite _ (skip_framed _) ?_
  split
  · exact skip_framed _
  · rename_i ov hov
    obtain ⟨-, rfl⟩ := stage_writes_eq_ok.mp hov
    exact commit_framed s seqBaseFee parBaseFee

end Certificate

/-! ## The steps of a block -/

/-- The cells of the protocol. -/
def protocolFootprint : Footprint where
  cells slot := slot.addr = protocolAddress
  burns _ := False
  ids _ _ := False

section Block

variable [Crypto] {h : Header} {p : Params} {j : Journal}

/-- The protocol cells of some labels. -/
def labelFootprint (labels : List WordLabel) : Footprint where
  cells slot := ∃ l ∈ labels, slot = protocolSlot l
  burns _ := False
  ids _ _ := False

theorem label_within_protocol (labels : List WordLabel) :
    (labelFootprint labels).Within protocolFootprint :=
  ⟨fun _ ⟨_, _, hs⟩ => hs ▸ rfl, fun _ hb => hb, fun _ _ hi => hi⟩

/-- What the steps of a block around its certificates can write. -/
def blockFootprint : Footprint where
  cells slot := slot.addr = protocolAddress ∨ slot.word = balanceWord nativeAsset
  burns _ := False
  ids _ _ := False

theorem protocol_within_block : protocolFootprint.Within blockFootprint :=
  ⟨fun _ hs => .inl hs, fun _ hb => hb, fun _ _ hi => hi⟩

/-- The cells of the fee markets. -/
def feeLabels : List WordLabel := [.seqBaseFee, .parBaseFee]

/-- The cells written before the certificates; the base fees are set at height 0 only. -/
def openLabels (h : Header) : List WordLabel :=
  [.beaconEpoch, .beaconHeight, .beaconEntropy, .seqGasTarget, .citedCount] ++
    if h.height = 0 then feeLabels else []

/-- The cells of the bookkeeping after the certificates. -/
def recordLabels (index : UInt64) : List WordLabel :=
  [.appliedGasSample index, .citedCount, .prevParentID, .prevTarget]

/-- The cells of a ring entry. -/
def ringLabels (index : UInt64) : List WordLabel := [.coinbaseAddr index, .coinbaseAmount index]

theorem set_label_writes {labels : List WordLabel} {l : WordLabel} (hl : l ∈ labels) (v : U256) :
    Writes (labelFootprint labels) j (j.set (protocolSlot l) v) := set_writes ⟨l, hl, rfl⟩

/-- Opening a block writes protocol words only. -/
theorem open_block_labels : Writes (labelFootprint (openLabels h)) j (openBlock h p j) := by
  have hset : ∀ {j : Journal} {l : WordLabel}, l ∈ openLabels h → ∀ v,
      Writes (labelFootprint (openLabels h)) j (j.set (protocolSlot l) v) :=
    fun hl v => set_label_writes hl v
  have hif : ∀ (c : Prop) [Decidable c] (f : Journal → Journal),
      (c → ∀ j, Writes (labelFootprint (openLabels h)) j (f j)) →
      ∀ j, Writes (labelFootprint (openLabels h)) j (if c then f j else j) := by
    intro c _ f hf j
    split_ifs with hc
    · exact hf hc j
    · exact .refl j
  refine ((hif _ _ (fun _ j => ?_) j).trans (hif _ _ (fun _ j => ?_) _)).trans
    (hif _ _ (fun hzero j => ?_) _)
  · exact ((hset (l := .beaconEpoch) (by simp [openLabels]) _).trans
      (hset (l := .beaconHeight) (by simp [openLabels]) _)).trans
      (hset (l := .beaconEntropy) (by simp [openLabels]) _)
  · exact (hset (l := .seqGasTarget) (by simp [openLabels]) _).trans
      (hset (l := .citedCount) (by simp [openLabels]) _)
  · exact ((hset (l := .seqBaseFee) (by simp [openLabels, hzero, feeLabels]) _).trans
      (hset (l := .parBaseFee) (by simp [openLabels, hzero, feeLabels]) _)).trans
      (hset (l := .seqGasTarget) (by simp [openLabels]) _)

variable (index : UInt64) (cites : List Header) (gas t : UInt64) (seqBaseFee parBaseFee : U256)

theorem record_block_labels : Writes (labelFootprint (recordLabels (h.height % p.epochLength))) j
      (recordBlock h cites p gas j) := by
  have hset : ∀ {j : Journal} {l : WordLabel}, l ∈ recordLabels (h.height % p.epochLength) → ∀ v,
      Writes (labelFootprint (recordLabels (h.height % p.epochLength))) j
        (j.set (protocolSlot l) v) :=
    fun hl v => set_label_writes hl v
  refine (Writes.trans ?_ (hset (l := .prevParentID) (by simp [recordLabels]) _)).trans
    (hset (l := .prevTarget) (by simp [recordLabels]) _)
  have hsample := hset (j := j) (l := .appliedGasSample (h.height % p.epochLength))
    (by simp [recordLabels]) (.fromUint64 gas)
  refine hsample.trans ?_
  split
  · exact hset (l := .citedCount) (by simp [recordLabels]) _
  · exact .refl _

theorem update_base_fees_labels (res : Result) :
    Writes (labelFootprint feeLabels) j (updateBaseFees h p t seqBaseFee parBaseFee res j) := by
  unfold updateBaseFees
  split
  · exact (set_label_writes (l := .seqBaseFee) (by simp [feeLabels]) _).trans
      (set_label_writes (l := .parBaseFee) (by simp [feeLabels]) _)
  · exact .refl j

theorem store_pending_labels (payee : Address) (reward : U256) :
    Writes (labelFootprint (ringLabels index)) j (storePending index payee reward j) := by
  unfold storePending
  split
  all_goals
    exact (set_label_writes (l := .coinbaseAddr index) (by simp [ringLabels]) _).trans
      (set_label_writes (l := .coinbaseAmount index) (by simp [ringLabels]) _)

theorem open_block_writes : Writes protocolFootprint j (openBlock h p j) :=
  open_block_labels.mono (label_within_protocol _)

theorem record_block_writes : Writes protocolFootprint j (recordBlock h cites p gas j) :=
  (record_block_labels cites gas).mono (label_within_protocol _)

theorem update_base_fees_writes (res : Result) :
    Writes protocolFootprint j (updateBaseFees h p t seqBaseFee parBaseFee res j) :=
  (update_base_fees_labels t seqBaseFee parBaseFee res).mono (label_within_protocol _)

theorem store_pending_writes (payee : Address) (reward : U256) :
    Writes protocolFootprint j (storePending index payee reward j) :=
  (store_pending_labels index payee reward).mono (label_within_protocol _)

theorem release_matured_framed : Framed blockFootprint (releaseMatured index) := by
  refine Framed.getState.bind fun s => Framed.ite _ (Framed.pure _) (Framed.ite _ ?_ ?_)
  · exact (Framed.addBurned _ _).bind fun _ => Framed.pure _
  · exact (Framed.conserve _ _).bind fun _ =>
      (Framed.onJournal fun j => set_writes (Or.inr rfl)).bind fun _ => Framed.pure _

theorem roll_coinbase_ring_framed : Framed blockFootprint (rollCoinbaseRing h p) := by
  refine (release_matured_framed _).bind fun _ => Framed.get.bind fun σ => ?_
  refine (Framed.onJournal fun j => ?_).bind fun _ => Framed.pure _
  exact (store_pending_writes _ _ _).mono protocol_within_block

end Block

end Zycord.Fold
