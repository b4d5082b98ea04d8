import Zycord.Fold.Poisoning

/-!
# Independent certificates commute

What an applied certificate adds to each cell does not depend on the cells other certificates may
credit: only the cells it overwrites and the balances it sweeps enter. `Drift` relates two journals
that differ by a fixed amount per cell, and every stage of a certificate preserves it
(`CertStep.drift`). Two certificates of strangers that burn nothing the other names are each a
drift for the other, so the order between them does not matter: `independent_commute`.
-/

namespace Zycord.Fold

open FinMap Journal State U256 Validity

/-- Two journals whose cells differ by a fixed amount per slot, and whose registries agree on the
addresses a certificate names. -/
structure Drift (c : Certificate) (δ : Slot → ℤ) (j k : Journal) : Prop where
  get : ∀ slot, ((k.s.get slot).toNat : ℤ) = (j.s.get slot).toNat + δ slot
  spent : ∀ a, Names c a → k.s.isSpent a = j.s.isSpent a

/-- A drift that spares the cells a certificate sweeps and the cells it overwrites. -/
structure Spares (c : Certificate) (δ : Slot → ℤ) : Prop where
  burned : ∀ slot, slot.addr ∈ spentHere c → δ slot = 0
  overwritten : ∀ w ∈ c.writes, w.op = .set → δ w.slot = 0

/-! ## The registry and the seen set after a certificate -/

section Registry

variable {c : Certificate} {j j' : Journal}

theorem rest_set_all (cells : List (Slot × U256)) :
    (j.setAll cells).s.spent = j.s.spent ∧ (j.setAll cells).s.seen = j.s.seen := by
  induction cells generalizing j with
  | nil => exact ⟨rfl, rfl⟩
  | cons e rest ih => exact ih

theorem rest_mark_all_spent (addrs : List Address) :
    (∀ a, (j.markAllSpent addrs).s.isSpent a = (decide (a ∈ addrs) || j.s.isSpent a)) ∧
      ∀ id, (j.markAllSpent addrs).s.seenTTL id = j.s.seenTTL id := by
  induction addrs generalizing j with
  | nil => simp [markAllSpent]
  | cons b rest ih =>
    have hcons : j.markAllSpent (b :: rest) = (j.markSpent b).markAllSpent rest := rfl
    rw [hcons]
    refine ⟨fun a => ?_, fun id => ?_⟩
    · rw [ih.1, Journal.is_spent_mark_spent]
      by_cases hb : a = b
      · simp [hb]
      · simp [hb, Ne.symm hb]
    · rw [ih.2, Journal.seen_ttl_mark_spent]

theorem is_spent_write_staged (a : Address) :
    (writeStaged c j).s.isSpent a = (decide (a ∈ spentHere c) || j.s.isSpent a) := by
  rw [writeStaged, (rest_mark_all_spent _).1, isSpent, (rest_set_all _).1]
  rfl

theorem seen_write_staged (id : Hash) : (writeStaged c j).s.seenTTL id = j.s.seenTTL id := by
  rw [writeStaged, (rest_mark_all_spent _).2, seenTTL, (rest_set_all _).2]
  rfl

theorem Moves.rest_eq (h : Moves c j j') : j'.s.spent = j.s.spent ∧ j'.s.seen = j.s.seen := by
  induction h with
  | refl => exact ⟨rfl, rfl⟩
  | @move j' src _ _ ih =>
    rcases move_residual_cases j' src c.deposit.refundTo.addr with h | ⟨sum, -, h⟩ <;>
      simpa [h] using ih

end Registry

/-! ## One stage after another -/

namespace Drift

variable {c : Certificate} {δ : Slot → ℤ} {j k j' k' : Journal}

section

variable (h : Drift c δ j k)

include h

theorem set {slot : Slot} {u v : U256} (hv : (v.toNat : ℤ) = u.toNat + δ slot) :
    Drift c δ (j.set slot u) (k.set slot v) where
  get slot' := by
    rw [s_set, s_set]
    by_cases hs : slot = slot'
    · rw [← hs, get_set_self, get_set_self, hv]
    · rw [get_set_of_ne _ _ hs, get_set_of_ne _ _ hs, h.get slot']
  spent a ha := by simpa using h.spent a ha

theorem reserve (hf : Funded c j.s) (hf' : Funded c k.s) :
    Drift c δ (reserve c j) (reserve c k) := by
  refine h.set ?_
  have hget := h.get c.deposit.cell
  have hj := hf.covered
  have hk := hf'.covered
  rw [to_nat_sub hj, to_nat_sub hk]
  omega

/-- Staged writes keep two journals apart by the same drift. -/
theorem writeStaged (hδ : Spares c δ) (hd : c.writes.Pairwise fun a b => a.slot < b.slot)
    (hin : ∀ w ∈ c.writes, InRange j.s w) (hin' : ∀ w ∈ c.writes, InRange k.s w) :
    Drift c δ (writeStaged c j) (writeStaged c k) where
  get slot := by
    by_cases hw : ∃ w ∈ c.writes, w.op ≠ .markSpent ∧ w.slot = slot
    · obtain ⟨w, hwm, hop, rfl⟩ := hw
      rw [get_write_staged_of_mem hd hwm hop, get_write_staged_of_mem hd hwm hop]
      have hget := h.get w.slot
      have hj := hin w hwm
      have hk := hin' w hwm
      cases hw : w.op with
      | set => simp [stagedValue, hw, hδ.overwritten w hwm hw]
      | deltaAdd =>
        simp only [InRange, hw] at hj hk
        simp only [stagedValue, hw]
        rw [to_nat_add hj, to_nat_add hk]
        omega
      | deltaSub =>
        simp only [InRange, hw] at hj hk
        simp only [stagedValue, hw]
        rw [to_nat_sub hj, to_nat_sub hk]
        omega
      | markSpent => exact absurd hw hop
      | unknown code => simp [InRange, hw] at hj
    · have hno : ∀ w ∈ c.writes, w.op ≠ .markSpent → w.slot ≠ slot :=
        fun w hwm hop hslot => hw ⟨w, hwm, hop, hslot⟩
      rw [get_write_staged_of_not_mem hno, get_write_staged_of_not_mem hno]
      exact h.get slot
  spent a ha := by rw [is_spent_write_staged, is_spent_write_staged, h.spent a ha]

theorem paidOut {dst : Slot} {amount paid unpaid paid' unpaid' : U256} (hdst : Names c dst.addr)
    (hj : PaidOut dst amount j paid unpaid j') (hk : PaidOut dst amount k paid' unpaid' k') :
    Drift c δ j' k' where
  get slot := by
    have hpaid : paid' = paid := by rw [hj.paid_eq.1, hk.paid_eq.1, h.spent dst.addr hdst]
    have hget := h.get slot
    have hj' := hj.get_eq slot
    have hk' := hk.get_eq slot
    rw [hpaid] at hk'
    omega
  spent a ha := by rw [hj.is_spent_eq, hk.is_spent_eq, h.spent a ha]

theorem markSeen (id : Hash) (ttl : UInt64) :
    Drift c δ (j.markSeen id ttl) (k.markSeen id ttl) where
  get slot := by simpa using h.get slot
  spent a ha := by simpa using h.spent a ha

end

end Drift

/-! ## The sweep -/

section

variable [Crypto] {c d : Certificate} {id : Hash} {p : Params} {fs fp : U256} {j k j' k' : Journal}
  {burned burned' tip : U256} {out : CertOutcome} {δ : Slot → ℤ} {s : State}

/-- The balances of every asset add up to a word. -/
def BalancesFit (s : State) : Prop :=
  ∀ asset, IsAssetID asset → wordSum (balanceWord asset) s < 2 ^ 256

theorem Moves.balances_fit (h : Moves c j j') (hc : ValidCert c p) (hfit : BalancesFit j.s) :
    BalancesFit j'.s := fun asset ha => by
  have hsum := h.word_sum (ω := balanceWord asset) hc.refund_not_burned
  have := hfit asset ha
  omega

theorem move_residual_fits {src : Slot} {dst : Address} (hne : src.addr ≠ dst) {asset : Address}
    (ha : IsAssetID asset) (hword : src.word = balanceWord asset) (hfit : BalancesFit j.s) :
    (moveResidual j src dst).1 = if j.s.get src = 0 ∨ j.s.isSpent dst = true then j
      else (j.set src 0).set ⟨dst, src.word⟩ ((j.s.get ⟨dst, src.word⟩).add (j.s.get src)).1 := by
  have hlt : (j.s.get ⟨dst, src.word⟩).toNat + (j.s.get src).toNat < 2 ^ 256 :=
    (get_add_get_le_word_sum hne).trans_lt (hword ▸ hfit asset ha)
  have hsum : checked ((j.s.get ⟨dst, src.word⟩).add (j.s.get src)) =
      some ((j.s.get ⟨dst, src.word⟩).add (j.s.get src)).1 :=
    checked_add_eq_some.mpr (to_nat_add hlt)
  by_cases hzero : j.s.get src = 0
  · simp [moveResidual, hzero]
  · have hnz : (j.s.get src).isZero = false := by
      rw [Bool.eq_false_iff]
      exact fun h => hzero (is_zero_iff.mp h)
    by_cases hspent : j.s.isSpent dst = true
    · simp [moveResidual, hnz, hspent]
    · simp [moveResidual, hspent, hsum, hzero]

/-- Two sweeps in step: their journals differ by the drift, and their balances fit. -/
structure SweepDrift (c : Certificate) (δ : Slot → ℤ) (x y : Sweep) : Prop where
  drift : Drift c δ x.j y.j
  left : BalancesFit x.j.s
  right : BalancesFit y.j.s

section Sweep

variable {x y : Sweep} (hc : ValidCert c p) (hδ : Spares c δ)

include hc hδ

/-- Moving a residual keeps the drift. -/
theorem Drift.moveResidual (h : Drift c δ j k) {src : Slot} (hsrc : src.addr ∈ spentHere c)
    {asset : Address} (ha : IsAssetID asset) (hword : src.word = balanceWord asset)
    (hj : BalancesFit j.s) (hk : BalancesFit k.s) :
    Drift c δ (moveResidual j src c.deposit.refundTo.addr).1
      (moveResidual k src c.deposit.refundTo.addr).1 := by
  have hne : src.addr ≠ c.deposit.refundTo.addr := fun heq => hc.refund_not_burned (heq ▸ hsrc)
  have hzero := hδ.burned src hsrc
  have hsame : k.s.get src = j.s.get src := by
    have hget := h.get src
    exact ext (by omega)
  have hlt : ∀ {l : Journal}, BalancesFit l.s →
      (l.s.get ⟨c.deposit.refundTo.addr, src.word⟩).toNat +
      (l.s.get src).toNat < 2 ^ 256 := fun hl =>
    (get_add_get_le_word_sum hne).trans_lt (hword ▸ hl asset ha)
  rw [move_residual_fits hne ha hword hj, move_residual_fits hne ha hword hk, hsame,
    h.spent _ (Or.inr (Or.inl rfl))]
  split
  · exact h
  · refine (h.set (by simp [hzero])).set ?_
    have hget := h.get ⟨c.deposit.refundTo.addr, src.word⟩
    have hk' := hlt hk
    rw [hsame] at hk'
    rw [to_nat_add (hlt hj), to_nat_add hk']
    omega

variable {a : Address} {w : Write}

section

variable (h : SweepDrift c δ x y)

include h

theorem SweepDrift.sweepCell (ha : a ∈ spentHere c) (hw : w ∈ c.writes) :
    SweepDrift c δ (sweepCell c.deposit.refundTo.addr a isNativeBalanceSlot x w)
      (sweepCell c.deposit.refundTo.addr a isNativeBalanceSlot y w) := by
  unfold Fold.sweepCell
  split_ifs with hskip
  · exact h
  · simp only [Bool.or_eq_true, decide_eq_true_eq, not_or, not_not] at hskip
    have hburned : w.slot.addr ∈ spentHere c := hskip.1.1 ▸ ha
    obtain ⟨asset, hasset, hword⟩ := burned_cell_balance hc hw hskip.1.2 hburned
    exact ⟨h.drift.moveResidual hc hδ hburned hasset hword h.left h.right,
      (Moves.refl.move w.slot hburned).balances_fit hc h.left,
      (Moves.refl.move w.slot hburned).balances_fit hc h.right⟩

theorem SweepDrift.sweepNative (ha : a ∈ spentHere c) :
    SweepDrift c δ (sweepNative c x a) (sweepNative c y a) :=
  ⟨h.drift.moveResidual hc hδ ha native_is_asset_id rfl h.left h.right,
    (Moves.refl.move (nativeBalanceSlot a) ha).balances_fit hc h.left,
    (Moves.refl.move (nativeBalanceSlot a) ha).balances_fit hc h.right⟩

theorem SweepDrift.sweepAddress (hw : w ∈ c.writes) :
    SweepDrift c δ (sweepAddress c x w) (sweepAddress c y w) := by
  unfold Fold.sweepAddress
  split_ifs with hop
  · exact h
  · have ha : w.slot.addr ∈ spentHere c := mem_spent_here.mpr ⟨w, hw, not_not.mp hop, rfl⟩
    exact List.foldl_rel (h.sweepNative hc hδ ha) fun w' hw' x y h => h.sweepCell hc hδ ha hw'

end

theorem Drift.sweepBurned (h : Drift c δ j k) (hj : BalancesFit j.s) (hk : BalancesFit k.s) :
    Drift c δ (sweepBurned c j).j (sweepBurned c k).j := by
  have hstart : SweepDrift c δ ⟨j, 0, 0, 0⟩ ⟨k, 0, 0, 0⟩ := ⟨h, hj, hk⟩
  have hend : SweepDrift c δ (Fold.sweepBurned c j) (Fold.sweepBurned c k) :=
    List.foldl_rel hstart fun w hw x y h => h.sweepAddress hc hδ hw
  exact hend.drift

end Sweep

/-! ## A whole certificate -/

theorem Sound.committed_fit (hwd : WordsDistinct) (hc : ValidCert c p) (hs : Sound j.s)
    (hf : Funded c j.s) (hreads : readsHold (reserve c j).s c = true) :
    BalancesFit (writeStaged c (reserve c j)).s := fun asset ha => by
  have hsum := word_sum_committed hwd hc ha hf (writes_in_range hc hs hf hreads)
  have hlt := hs.minted_lt hc ha hreads
  omega

/-- A certificate that applies on both sides of a drift keeps it, and is charged the same. -/
theorem CertStep.drift {out' : CertOutcome} {burned₁ burned₁' tip' : U256} (hwd : WordsDistinct)
    (hc : ValidCert c p) (h : CertStep c id p fs fp j burned out tip j' burned')
    (h' : CertStep c id p fs fp k burned₁ out' tip' k' burned₁') (happlied : out.outcome = .applied)
    (happlied' : out'.outcome = .applied) (hj : Sound j.s) (hk : Sound k.s)
    (hdrift : Drift c δ j k) (hδ : Spares c δ) : Drift c δ j' k' ∧ out'.charged = out.charged := by
  obtain ⟨hf, hreads, hin, fees, refund, _, _, j₁, hfees, hcharge, hrefund, hpay, rfl⟩ :=
    h.of_applied happlied
  obtain ⟨hf', hreads', hin', fees', refund', _, _, k₁, hfees', hcharge', hrefund', hpay', rfl⟩ :=
    h'.of_applied happlied'
  -- fees and refund are functions of the certificate and the base fees
  obtain rfl : fees = fees' := Option.some.inj (hfees.symm.trans hfees')
  obtain rfl : refund = refund' := ext (by omega)
  refine ⟨?_, hcharge'.trans hcharge.symm⟩
  have hreserved := hdrift.reserve hf hf'
  have hcommitted := hreserved.writeStaged hδ hc.writes_sorted hin hin'
  have hswept := hcommitted.sweepBurned hc hδ (hj.committed_fit hwd hc hf hreads)
    (hk.committed_fit hwd hc hf' hreads')
  exact (hswept.paidOut (Or.inr (Or.inl rfl)) hpay hpay').markSeen id c.ttl

section

variable (h : CertStep c id p fs fp j burned out tip j' burned')

include h

theorem CertStep.is_spent_applied (happlied : out.outcome = .applied) (a : Address) :
    j'.s.isSpent a = (decide (a ∈ spentHere c) || j.s.isSpent a) := by
  obtain ⟨-, -, -, fees, refund, _, _, j₁, -, -, -, hpay, rfl⟩ := h.of_applied happlied
  rw [Journal.is_spent_mark_seen, hpay.is_spent_eq, State.isSpent,
    (sweep_burned_moves c _).rest_eq.1,
    ← State.isSpent, is_spent_write_staged]
  rfl

theorem CertStep.seen_applied (happlied : out.outcome = .applied) (id' : Hash) :
    j'.s.seenTTL id' =
      if id = id' then some ((j.s.seenTTL id).getD c.ttl) else j.s.seenTTL id' := by
  obtain ⟨-, -, -, fees, refund, _, _, j₁, -, -, -, hpay, rfl⟩ := h.of_applied happlied
  have hseen : ∀ id', j₁.s.seenTTL id' = j.s.seenTTL id' := fun id' => by
    rw [hpay.seen_eq, State.seenTTL, (sweep_burned_moves c _).rest_eq.2, ← State.seenTTL,
      seen_write_staged]
    rfl
  rw [Journal.seen_ttl_mark_seen, hseen, hseen]

end

/-! ## Two certificates -/

theorem NoCollision.symm (h : NoCollision c d) : NoCollision d c where
  keys version k hk l hl heq := (h.keys version l hl k hk heq.symm).symm
  issuers args args' hprog hprog' heq := (h.issuers args' args hprog' hprog heq.symm).symm

/-- How far a step moves a cell. -/
def shift (j j' : Journal) (slot : Slot) : ℤ := (j'.s.get slot).toNat - (j.s.get slot).toNat

/-- A stranger's step is a drift that spares what the certificate overwrites and sweeps, as long as
it burns nothing the certificate names and does not name what the certificate burns. -/
theorem Stranger.drift (hwd : WordsDistinct) (hc : ValidCert c p) (hd : Stranger c d p)
    (hcol : NoCollision c d) (h : CertStep d id p fs fp j burned out tip j' burned')
    (happlied : out.outcome = .applied) (hcd : ∀ a ∈ spentHere c, ¬ Names d a)
    (hdc : ∀ a ∈ spentHere d, ¬ Names c a) : Drift c (shift j j') j j' ∧ Spares c (shift j j') := by
  refine ⟨⟨fun slot => by simp [shift], fun a ha => ?_⟩, fun slot hslot => ?_, fun w hw hop => ?_⟩
  · rw [h.is_spent_applied happlied]
    have hnot : a ∉ spentHere d := fun hmem => hdc a hmem ha
    simp [hnot]
  · rw [shift, h.writes.get_eq (hcd _ hslot), sub_self]
  · obtain ⟨args, l, hprog, hproper, -, hl, hslot⟩ := hc.shape.set_slot hw hop
    have hword : storageWord .assetMinted ≠ storageWord l :=
      hwd.ne (l := .assetMinted) (m := l) trivial hproper hl.symm
    by_contra hne
    have hget : j'.s.get w.slot ≠ j.s.get w.slot := fun heq => hne (by rw [shift, heq, sub_self])
    rw [hslot] at hget
    obtain ⟨args', hprog', heq⟩ := h.issues_of_get_ne (validCert_of_check hd.checked)
      (version_derive_asset_address _ _ _) hword hget
    exact hd.not_issues hcol hc hprog hprog' heq.symm

theorem Stranger.id_ne (h : Stranger c d p) (hcol : NoCollision c d) (hc : ValidCert c p)
    (hids : c.id = d.id → c.marshalBody = d.marshalBody) : c.id ≠ d.id := fun heq => by
  have hdeposit := congrArg (fun d : Deposit => d.cell.addr) (deposit_of_marshal_body (hids heq))
  exact h.not_spends hcol hc hc.deposit_user (Or.inl rfl) (Or.inl hdeposit)

variable {idc idd : Hash}

/-- Two applied certificates leave one state in either order. -/
theorem commuted_state_eq {jc jd jcd jdc : Journal} {outc outd outc' outd' : CertOutcome}
    {b₁ b₁' b₂ b₂' b₃ b₃' b₄ b₄' t₁ t₂ t₃ t₄ : U256} (hid : idc ≠ idd)
    (hc : CertStep c idc p fs fp j b₁ outc t₁ jc b₁')
    (hd : CertStep d idd p fs fp j b₂ outd t₂ jd b₂')
    (hcd : CertStep d idd p fs fp jc b₃ outd' t₃ jcd b₃')
    (hdc : CertStep c idc p fs fp jd b₄ outc' t₄ jdc b₄') (hac : outc.outcome = .applied)
    (had : outd.outcome = .applied) (hacd : outd'.outcome = .applied)
    (hadc : outc'.outcome = .applied) (hdrift : Drift c (shift j jd) jc jdc)
    (hdrift' : Drift d (shift j jc) jd jcd) : jcd.s = jdc.s := by
  refine ext (FinFun.ext_get fun slot => ?_) (ext_contains fun a => ?_)
    (ext_find fun id => ?_)
  · have hleft := hdrift.get slot
    have hright := hdrift'.get slot
    have hnat : (jcd.s.get slot).toNat = (jdc.s.get slot).toNat := by
      unfold shift at hleft hright
      omega
    exact ext hnat
  · have hleft : jcd.s.isSpent a = _ := hcd.is_spent_applied hacd a
    have hright : jdc.s.isSpent a = _ := hdc.is_spent_applied hadc a
    rw [hc.is_spent_applied hac] at hleft
    rw [hd.is_spent_applied had] at hright
    exact hleft.trans ((Bool.or_left_comm _ _ _).trans hright.symm)
  · have hleft : jcd.s.seenTTL id = _ := hcd.seen_applied hacd id
    have hright : jdc.s.seenTTL id = _ := hdc.seen_applied hadc id
    rw [hc.seen_applied hac, hc.seen_applied hac, if_neg hid] at hleft
    rw [hd.seen_applied had, hd.seen_applied had] at hright
    refine hleft.trans (Eq.trans ?_ hright.symm)
    by_cases h : idc = id
    · subst h
      simp [hid.symm]
    · simp [h]

theorem CertStep.bound_kept (hwd : WordsDistinct) (hc : ValidCert c p)
    (h : CertStep c id p fs fp j burned out tip j' burned')
    (hbound : wordSum (balanceWord nativeAsset) j.s + burned.toNat < 2 ^ 256) :
    wordSum (balanceWord nativeAsset) j'.s + burned'.toNat < 2 ^ 256 := by
  have hsum := h.native_sum hwd hc
  omega

/-- A certificate still applies after a stranger's has. -/
theorem Stranger.applies_after (hwd : WordsDistinct) (hc : ValidCert c p) (hd : Stranger c d p)
    (hcol : NoCollision c d) {σ σc σd : FoldState} {x y : CertOutcome × U256}
    (hsound : Sound σ.j.s)
    (hbound : wordSum (balanceWord nativeAsset) σ.j.s + σ.res.burned.toNat < 2 ^ 256)
    (hrunc : applyCertificate c idc p fs fp σ = (.ok x, σc)) (hx : x.1.outcome = .applied)
    (hrund : applyCertificate d idd p fs fp σ = (.ok y, σd)) (hy : y.1.outcome = .applied)
    (hcd : ∀ a ∈ spentHere c, ¬ Names d a) (hdc : ∀ a ∈ spentHere d, ¬ Names c a) :
    ∃ x' σdc, applyCertificate c idc p fs fp σd = (.ok x', σdc) ∧ x'.1.outcome = .applied ∧
      x'.1.charged = x.1.charged ∧ Drift c (shift σ.j σd.j) σc.j σdc.j := by
  have hstepc := cert_step_of_apply hrunc
  have hstepd := cert_step_of_apply hrund
  have hvalid := validCert_of_check hd.checked
  obtain ⟨hdrift, hspares⟩ := hd.drift hwd hc hcol hstepd hy hcd hdc
  have hsound' := hstepd.sound hwd hvalid hsound
  have hkept : Kept c σ.j.s σd.j.s := by
    refine hd.kept hwd hc hcol hstepd fun a ha hold => ?_
    obtain ⟨w, hw, -, haddr⟩ := ha
    rw [hdrift.spent a (Or.inr (Or.inr ⟨w, hw, haddr.symm⟩)), hold]
  obtain ⟨x', σdc, hrun, happlied⟩ := hkept.applies hwd hc hstepc hx hsound'.assets
    (hstepd.bound_kept hwd hvalid hbound)
  obtain ⟨hafter, hcharged⟩ := hstepc.drift hwd hc (cert_step_of_apply hrun) hx happlied hsound
    hsound' hdrift hspares
  exact ⟨x', σdc, hrun, happlied, hcharged, hafter⟩

/-- Two valid certificates of strangers that apply on their own in a reachable state, neither
burning an address the other names, apply in either order with the same charges and lead to the
same state, while the native coins fit in 256 bits, the burn of the current block included. -/
theorem independent_commute (hwd : WordsDistinct) {logs : List UndoLog}
    (hreach : Reachable p logs s) (hc : check c p = .ok ()) (hd : check d p = .ok ())
    (hkeys : ∀ k ∈ c.sigs, ∀ l ∈ d.sigs, k.pubKey ≠ l.pubKey) (hcol : NoCollision c d)
    (hids : c.id = d.id → c.marshalBody = d.marshalBody) {σ σc σd : FoldState}
    {x y : CertOutcome × U256} (hσ : σ.j.s = s)
    (hbound : wordSum (balanceWord nativeAsset) s + σ.res.burned.toNat < 2 ^ 256)
    (hrunc : applyCertificate c c.id p fs fp σ = (.ok x, σc)) (hx : x.1.outcome = .applied)
    (hrund : applyCertificate d d.id p fs fp σ = (.ok y, σd)) (hy : y.1.outcome = .applied)
    (hcd : ∀ a ∈ spentHere c, ¬ Names d a) (hdc : ∀ a ∈ spentHere d, ¬ Names c a) :
    ∃ x' y' σcd σdc, applyCertificate d d.id p fs fp σc = (.ok y', σcd) ∧
      applyCertificate c c.id p fs fp σd = (.ok x', σdc) ∧
      y'.1.outcome = .applied ∧ x'.1.outcome = .applied ∧
      y'.1.charged = y.1.charged ∧ x'.1.charged = x.1.charged ∧ σcd.j.s = σdc.j.s := by
  subst hσ
  have hsound : Sound σ.j.s := ⟨by omega, fun asset ha => hreach.supply_ok hwd ha⟩
  have hvc := validCert_of_check hc
  have hvd := validCert_of_check hd
  have hstranger : Stranger c d p := ⟨hd, hkeys⟩
  have hstranger' : Stranger d c p := ⟨hc, fun l hl k hk => (hkeys k hk l hl).symm⟩
  obtain ⟨x', σdc, hrundc, hx', hcharged, hdrift⟩ := hstranger.applies_after hwd hvc hcol hsound
    hbound hrunc hx hrund hy hcd hdc
  obtain ⟨y', σcd, hruncd, hy', hcharged', hdrift'⟩ := hstranger'.applies_after hwd hvd hcol.symm
    hsound hbound hrund hy hrunc hx hdc hcd
  exact ⟨x', y', σcd, σdc, hruncd, hrundc, hy', hx', hcharged', hcharged,
    commuted_state_eq (hstranger.id_ne hcol hvc hids) (cert_step_of_apply hrunc)
      (cert_step_of_apply hrund) (cert_step_of_apply hruncd) (cert_step_of_apply hrundc) hx hy hy'
      hx' hdrift hdrift'⟩

end

section

open Sample

attribute [local instance] Reference.crypto

/-- Two users pay the same third one, in either order. -/
theorem sample_independent_commute :
    ∃ logs s x y x' y' σc σd σcd σdc, Reachable params logs s ∧
      applyCertificate (gift 1 5) (gift 1 5).id params 1 1 ⟨⟨s, UndoLog.empty⟩, Result.empty⟩ =
        (.ok x, σc) ∧ x.1.outcome = .applied ∧
      applyCertificate (gift 3 7) (gift 3 7).id params 1 1 ⟨⟨s, UndoLog.empty⟩, Result.empty⟩ =
        (.ok y, σd) ∧ y.1.outcome = .applied ∧
      applyCertificate (gift 3 7) (gift 3 7).id params 1 1 σc = (.ok y', σcd) ∧
      applyCertificate (gift 1 5) (gift 1 5).id params 1 1 σd = (.ok x', σdc) ∧
      σcd.j.s = σdc.j.s := by
  have hproduce : ∃ x, produce params twoPayees = some x ∧
      outcomeOf params (gift 1 5) x.2 = some .applied ∧
      outcomeOf params (gift 3 7) x.2 = some .applied ∧
      wordSum (balanceWord nativeAsset) x.2 < 2 ^ 256 := by
    decide +kernel
  obtain ⟨⟨log, s⟩, hx, hfirst, hother, hbound⟩ := hproduce
  obtain ⟨x, σc, hrunc, hxo, -⟩ := apply_of_outcome hfirst
  obtain ⟨y, σd, hrund, hyo, -⟩ := apply_of_outcome hother
  have hreach := (run_of_produce hx).reachable
  have hcheck : check (gift 1 5) params = .ok () := by decide +kernel
  have hcheck' : check (gift 3 7) params = .ok () := by decide +kernel
  have hclean : ∀ a, a ∉ spentHere (gift 1 5) := by
    have hnil : spentHere (gift 1 5) = [] := by decide +kernel
    simp [hnil]
  have hclean' : ∀ a, a ∉ spentHere (gift 3 7) := by
    have hnil : spentHere (gift 3 7) = [] := by decide +kernel
    simp [hnil]
  obtain ⟨x', y', σcd, σdc, hruncd, hrundc, -, -, -, -, heq⟩ :=
    independent_commute Reference.words_distinct hreach hcheck hcheck' (gift_stranger hcheck').keys
      (gift_no_collision 5 7) (fun h => absurd h (by decide +kernel))
      (σ := ⟨⟨s, UndoLog.empty⟩, Result.empty⟩) rfl hbound hrunc hxo hrund hyo
      (fun a ha => absurd ha (hclean a)) fun a ha => absurd ha (hclean' a)
  exact ⟨_, s, x, y, x', y', σc, σd, σcd, σdc, hreach, hrunc, hxo, hrund, hyo, hruncd, hrundc, heq⟩

/-- Under a schedule past 2^256, two independent gifts that each apply on their own do not apply
one after the other. -/
theorem sample_gifts_collide :
    ∃ logs s, generous.validate = .ok () ∧ Reachable generous logs s ∧
      Validity.check (gift 1 (9 * 2 ^ 252)) generous = .ok () ∧
      Validity.check (gift 3 (9 * 2 ^ 252)) generous = .ok () ∧
      (∀ k ∈ (gift 1 (9 * 2 ^ 252)).sigs, ∀ l ∈ (gift 3 (9 * 2 ^ 252)).sigs, k.pubKey ≠ l.pubKey) ∧
      spentHere (gift 1 (9 * 2 ^ 252)) = [] ∧ spentHere (gift 3 (9 * 2 ^ 252)) = [] ∧
      outcomeOf generous (gift 1 (9 * 2 ^ 252)) s = some .applied ∧
      outcomeOf generous (gift 3 (9 * 2 ^ 252)) s = some .applied ∧
      outcomeOf generous (gift 3 (9 * 2 ^ 252)) (after generous (gift 1 (9 * 2 ^ 252)) s) =
        some .skippedOverflow := by
  have hproduce : ∃ x, produce generous twoPayees = some x ∧
      outcomeOf generous (gift 1 (9 * 2 ^ 252)) x.2 = some .applied ∧
      outcomeOf generous (gift 3 (9 * 2 ^ 252)) x.2 = some .applied ∧
      outcomeOf generous (gift 3 (9 * 2 ^ 252)) (after generous (gift 1 (9 * 2 ^ 252)) x.2) =
        some .skippedOverflow := by
    decide +kernel
  obtain ⟨⟨log, s⟩, hx, hfirst, hother, hsecond⟩ := hproduce
  have hcheck : check (gift 3 (9 * 2 ^ 252)) generous = .ok () := by decide +kernel
  exact ⟨_, s, by decide +kernel, (run_of_produce hx).reachable, by decide +kernel, hcheck,
    (gift_stranger hcheck).keys, by decide +kernel, by decide +kernel, hfirst, hother, hsecond⟩

end

end Zycord.Fold
