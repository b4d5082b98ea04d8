import Zycord.Fold.Run
import Zycord.Fold.Trace

/-!
# The protocol's own cells and the sequential target

Certificates never reach a cell under the protocol address, and the steps of a block around them
write a known list of labels, so a label outside that list keeps its value
(`BlockTrace.get_closed_label`). The first use is the sequential target: it stays between its
genesis value and the capacity along every run (`Run.target_ok`), which is what bounds the burst
forfeiture of a block by its reward (`burst_forfeit_le`).
-/

namespace Zycord

/-- A label that is not of a balance. -/
def WordLabel.Plain : WordLabel → Prop
  | balance _ => False
  | _ => True

theorem WordLabel.Plain.proper {l : WordLabel} (h : l.Plain) : l.Proper := by
  cases l with
  | balance => exact h.elim
  | _ => trivial

end Zycord

namespace Zycord.Fold

open Crypto Validity
open Journal (Footprint Writes)

theorem fee_labels_plain : ∀ m ∈ feeLabels, m.Plain := by simp [feeLabels, WordLabel.Plain]

theorem open_labels_plain (h : Header) : ∀ m ∈ openLabels h, m.Plain := by
  intro m hm
  rcases List.mem_append.mp hm with hm | hm
  · simp only [List.mem_cons, List.not_mem_nil, or_false] at hm
    rcases hm with rfl | rfl | rfl | rfl | rfl <;> trivial
  · split at hm
    · exact fee_labels_plain m hm
    · simp at hm

theorem record_labels_plain (index : UInt64) : ∀ m ∈ recordLabels index, m.Plain := by
  simp [recordLabels, WordLabel.Plain]

theorem ring_labels_plain (index : UInt64) : ∀ m ∈ ringLabels index, m.Plain := by
  simp [ringLabels, WordLabel.Plain]

section Labels

variable [Crypto] {l : WordLabel} {labels : List WordLabel} {j j' : Journal}

theorem plain_ne_balance (hwd : WordsDistinct) (hl : l.Plain) {asset : Address}
    (ha : IsAssetID asset) : storageWord l ≠ balanceWord asset := by
  refine (hwd.balance_word_ne ha hl.proper fun b hb => ?_).symm
  subst hb
  exact hl

theorem get_label_of_writes (hwd : WordsDistinct) (h : Writes (labelFootprint labels) j j')
    (hplain : ∀ m ∈ labels, m.Plain) (hl : l.Plain) (hnot : l ∉ labels) :
    j'.s.get (protocolSlot l) = j.s.get (protocolSlot l) := by
  refine h.get_eq fun hcell => ?_
  obtain ⟨m, hm, heq⟩ := hcell
  rw [hwd.protocol_slot_eq_iff hl.proper (hplain m hm).proper] at heq
  exact hnot (heq ▸ hm)

end Labels

section Block

variable [Crypto] {p : Params} {s : State} {b : Block} {l : WordLabel}

theorem get_opened_label (hwd : WordsDistinct) (hl : l.Plain) {h : Header}
    (hopen : l ∉ [.beaconEpoch, .beaconHeight, .beaconEntropy, .seqGasTarget, .citedCount])
    (hfee : h.height = 0 → l ∉ feeLabels) :
    (opened h p s).s.get (protocolSlot l) = s.get (protocolSlot l) := by
  refine get_label_of_writes hwd (j := ⟨s, UndoLog.empty⟩) open_block_labels (open_labels_plain h)
    hl fun hmem => ?_
  rcases List.mem_append.mp hmem with hm | hm
  · exact hopen hm
  · split_ifs at hm with hzero
    · exact hfee hzero hm
    · simp at hm

omit [Crypto] in
/-- A user address does not have the version of the protocol. -/
theorem version_ne_protocol_of_user {a : Address} (ha : isUserAddress a = true) :
    a.version ≠ addrVersionProtocol := by
  intro hv
  simp [isUserAddress, hv, addrVersionProtocol, addrVersionOneShot, addrVersionPersistent] at ha

/-- A valid certificate names no address of the protocol version. -/
theorem not_names_of_version {c : Certificate} (hc : ValidCert c p) {a : Address}
    (ha : a.version = addrVersionProtocol) : ¬ Names c a := by
  rintro (rfl | rfl | ⟨w, hw, rfl⟩)
  · exact version_ne_protocol_of_user hc.deposit_user ha
  · exact version_ne_protocol_of_user hc.refund_user ha
  · exact hc.not_protocol w hw ha

theorem BlockOK.valid (hok : BlockOK s b p) {cy : Carried} (h : cy ∈ foldOrder (carry b.certs)) :
    ValidCert cy.cert p := by
  obtain ⟨c, hc, rfl⟩ := mem_fold_order.mp h
  exact validCert_of_check (hok.certs c hc).checked

theorem CertTrace.get_certs (tr : CertTrace s b p) {slot : Slot}
    (hs : slot.addr = protocolAddress) :
    tr.σ₁.j.s.get slot = (opened b.header p s).s.get slot := by
  refine tr.certs.invariant (I := fun j => j.s.get slot = (opened b.header p s).s.get slot) rfl ?_
  intro cy hcy j j' burned burned' tip out hj hstep
  rw [← hj]
  exact hstep.writes.get_eq
    (not_names_of_version (tr.ok.valid hcy) (hs ▸ version_protocol_address))

theorem native_slot_ne_label (hwd : WordsDistinct) (hl : l.Plain) (a : Address) :
    nativeBalanceSlot a ≠ protocolSlot l := fun heq =>
  plain_ne_balance hwd hl native_is_asset_id (congrArg Slot.word heq).symm

theorem RewardTrace.get_recorded (tr : RewardTrace s b p) (hwd : WordsDistinct) (hl : l.Plain) :
    tr.σ₂.j.s.get (protocolSlot l) =
      (recordBlock b.header b.cites p tr.σ₁.res.seqGasApplied tr.σ₁.j).s.get (protocolSlot l) := by
  obtain ⟨credited, -, htreasury⟩ := tr.reward.treasury
  have hne : treasurySlot ≠ protocolSlot l := native_slot_ne_label hwd hl _
  rw [htreasury, State.get_set_of_ne _ _ hne, recorded, get_prune_expired]

theorem RewardTrace.get_label (tr : RewardTrace s b p) (hwd : WordsDistinct) (hl : l.Plain)
    (hrec : l ∉ recordLabels (b.header.height % p.epochLength)) :
    tr.σ₂.j.s.get (protocolSlot l) = (opened b.header p s).s.get (protocolSlot l) := by
  rw [tr.get_recorded hwd hl, get_label_of_writes hwd (record_block_labels _ _)
    (record_labels_plain _) hl hrec, tr.get_certs rfl]

namespace BlockTrace

section

variable (tr : BlockTrace s b p) (hwd : WordsDistinct) (hl : l.Plain)

include tr hwd hl

theorem get_mid_label : tr.mid.s.get (protocolSlot l) = tr.σ₂.j.s.get (protocolSlot l) := by
  have hne : protocolSlot l ≠ maturedCell b.header p tr.σ₂.j.s :=
    (native_slot_ne_label hwd hl _).symm
  refine U256.ext ?_
  rw [tr.ring.paid.get_eq, if_neg hne, Nat.add_zero]

theorem get_ring_label (hring : l ∉ ringLabels (ringIndex b.header p)) :
    tr.σ₃.j.s.get (protocolSlot l) = tr.σ₂.j.s.get (protocolSlot l) := by
  rw [tr.ring.j, get_label_of_writes hwd (store_pending_labels _ _ _)
    (ring_labels_plain _) hl hring,
    tr.get_mid_label hwd hl]

theorem get_end_label (hring : l ∉ ringLabels (ringIndex b.header p)) (hfee : l ∉ feeLabels) :
    tr.closed.s.get (protocolSlot l) = tr.σ₂.j.s.get (protocolSlot l) := by
  rw [closed, get_label_of_writes hwd (update_base_fees_labels _ _ _ _) fee_labels_plain hl hfee,
    tr.get_ring_label hwd hl hring]

theorem get_closed_label (hrec : l ∉ recordLabels (b.header.height % p.epochLength))
    (hring : l ∉ ringLabels (ringIndex b.header p)) (hfee : l ∉ feeLabels) :
    tr.closed.s.get (protocolSlot l) = (opened b.header p s).s.get (protocolSlot l) :=
  (tr.get_end_label hwd hl hring hfee).trans (tr.get_label hwd hl hrec)

end

end BlockTrace

end Block

/-! ## The sequential target -/

/-- The target is between its genesis value and the capacity. -/
def TargetOK [Crypto] (p : Params) (s : State) : Prop :=
  ∃ t : UInt64, s.get seqGasTargetSlot = .fromUint64 t ∧
    p.seqGasTargetGenesis.toNat ≤ t.toNat ∧ t.toNat ≤ p.seqGasCapacity.toNat

/-- The next target stays between the genesis target and the capacity. -/
theorem next_target_range {p : Params} (hp : p.Valid) (t median : UInt64) (healthy : Bool) :
    p.seqGasTargetGenesis.toNat ≤ (p.nextSeqGasTarget t median healthy).toNat ∧
      (p.nextSeqGasTarget t median healthy).toNat ≤ p.seqGasCapacity.toNat := by
  have hcapped : ∀ next : UInt64, (if next > p.seqGasCapacity then p.seqGasCapacity
      else next).toNat ≤ p.seqGasCapacity.toNat := by
    intro next
    split_ifs with hle
    · exact le_refl _
    · exact UInt64.le_iff_toNat_le.mp (UInt64.not_lt.mp hle)
  have hfloor : ∀ next : UInt64, next.toNat ≤ p.seqGasCapacity.toNat →
      p.seqGasTargetGenesis.toNat ≤ (if next < p.seqGasTargetGenesis then p.seqGasTargetGenesis
        else next).toNat ∧
      (if next < p.seqGasTargetGenesis then p.seqGasTargetGenesis else next).toNat ≤
        p.seqGasCapacity.toNat := by
    intro next hnext
    split_ifs with hge
    · exact ⟨le_refl _, hp.target_le_capacity⟩
    · exact ⟨UInt64.le_iff_toNat_le.mp (UInt64.not_lt.mp hge), hnext⟩
  exact hfloor _ (hcapped _)

section Target

variable [Crypto] {p : Params} {s : State} {b : Block} {log : ChainLog}

/-- Opening a block keeps the target in range. -/
theorem opened_target_ok (hp : p.Valid) (hwd : WordsDistinct) (h : Header)
    (hs : h.height ≠ 0 → TargetOK p s) : TargetOK p (opened h p s).s := by
  have hcited : citedCountSlot ≠ seqGasTargetSlot := fun heq =>
    absurd ((hwd.protocol_slot_eq_iff (l := .citedCount) (m := .seqGasTarget) trivial trivial).mp
      heq)
      (by simp)
  by_cases hzero : h.height = 0
  · refine ⟨p.seqGasTargetGenesis, ?_, le_refl _, hp.target_le_capacity⟩
    simp [opened, openBlock, hzero, initMarkets]
  · by_cases hboundary : p.isEpochBoundary h.height = true
    · have hpos : h.height > 0 := UInt64.pos_iff_ne_zero.mpr hzero
      simp only [opened, openBlock, hzero, hboundary, hpos, decide_true, Bool.and_self, if_true,
        if_false, updateSeqGasTarget, TargetOK, Journal.s_set, State.get_set_of_ne _ _ hcited,
        State.get_set_self]
      exact ⟨_, rfl, next_target_range hp _ _ _⟩
    · simpa only [opened, openBlock, hzero, hboundary, Bool.false_and, if_false, Bool.false_eq_true]
        using hs hzero

omit [Crypto] in
theorem size_bytes_pos (b : Block) : 0 < b.sizeBytes := by
  simp [Block.sizeBytes, Block.marshal, Ssz.length_encode, Ssz.fieldSize, Header.length_marshal,
    headerSize]

omit [Crypto] in
theorem block_byte_limit_zero (p : Params) : p.blockByteLimit 0 = 0 := by
  have hscaled : p.scaled 0 p.blockByteLimitGenesis = (0, true) := by
    simp [Params.scaled, U256.mulDiv64, U256.uint64]
  simp [Params.blockByteLimit, hscaled]

/-- Nothing has happened, or the target is in range. -/
def Started (p : Params) (s : State) : Prop := s = State.new ∨ TargetOK p s

/-- Only a genesis block is accepted before the target cell is set. -/
theorem BlockOK.target_ok (hok : BlockOK s b p) (hs : Started p s) (hheight : b.header.height ≠ 0) :
    TargetOK p s := by
  rcases hs with rfl | hs
  · have hceilings := hok.ceilings
    have htarget : currentSeqGasTarget State.new p b.header.height = 0 := by
      rw [currentSeqGasTarget, if_neg hheight]
      rfl
    simp only [htarget, checkCeilings, invalidIf, Except.seq_eq_ok, reject_if_eq_ok] at hceilings
    obtain ⟨-, -, hbytes, -⟩ := hceilings
    rw [block_byte_limit_zero] at hbytes
    exact absurd (Int.natCast_pos.mpr (size_bytes_pos b)) hbytes
  · exact hs

/-- A block leaves a target in range behind. -/
theorem Started.target_ok (hs : Started p s) (hp : p.Valid) (hwd : WordsDistinct) {r : Result}
    {s' : State} (happly : applyBlock s b p = (.ok r, s')) : TargetOK p s' := by
  obtain ⟨tr, hy⟩ := block_trace happly
  obtain ⟨t, ht, hrange⟩ := opened_target_ok hp hwd b.header (tr.ok.target_ok hs)
  refine ⟨t, ?_, hrange⟩
  rw [hy.state, ← ht]
  exact tr.get_closed_label hwd trivial (by simp [recordLabels]) (by simp [ringLabels])
    (by simp [feeLabels])

theorem Run.started (hp : p.Valid) (hwd : WordsDistinct) (h : Run p log s) : Started p s := by
  induction h with
  | genesis => exact Or.inl rfl
  | apply _ _ happly ih => exact Or.inr (ih.target_ok hp hwd happly)

/-- Along a run the target stays in range from the first block on. -/
theorem Run.target_ok (hp : p.Valid) (hwd : WordsDistinct) (h : Run p log s) (hne : log ≠ []) :
    TargetOK p s := by
  cases h with
  | genesis => exact absurd rfl hne
  | apply hrun _ happly => exact (hrun.started hp hwd).target_ok hp hwd happly

theorem BlockOK.target_range (hok : BlockOK s b p) (hp : p.Valid) (hs : Started p s) :
    p.seqGasTargetGenesis.toNat ≤ (currentSeqGasTarget s p b.header.height).toNat ∧
      (currentSeqGasTarget s p b.header.height).toNat ≤ p.seqGasCapacity.toNat := by
  by_cases hzero : b.header.height = 0
  · rw [currentSeqGasTarget, if_pos hzero]
    exact ⟨le_refl _, hp.target_le_capacity⟩
  · obtain ⟨t, ht, hrange⟩ := hok.target_ok hs hzero
    simpa [currentSeqGasTarget, hzero, ht, U256.uint64, U256.to_nat_from_uint64] using hrange

end Target

/-! ## The burst forfeiture -/

section Burst

variable [Crypto] {p : Params} {fs fp : U256} {ordered : List Carried} {σ σ' : FoldState}
  {tips tips' : U256} {s : State} {b : Block}

theorem CertRun.seq_gas_used (h : CertRun p fs fp ordered σ tips σ' tips') :
    σ'.res.seqGasUsed = ordered.foldl (fun gas cy => gas + cy.cert.seqGas p) σ.res.seqGasUsed := by
  induction h with
  | nil => rfl
  | cons hstep _ _ ih => rw [ih, List.foldl_cons, seq_gas_used_record_cert]

theorem CertTrace.seq_gas_used (tr : CertTrace s b p) :
    tr.σ₁.res.seqGasUsed = seqGasSum p b.certs := by
  have hcomm : RightCommutative fun (gas : UInt64) (cy : Carried) => gas + cy.cert.seqGas p :=
    ⟨fun gas x y => by rw [UInt64.add_assoc, UInt64.add_comm (x.cert.seqGas p), ← UInt64.add_assoc]⟩
  rw [tr.certs.seq_gas_used, (fold_order_perm _).foldl_eq, carry, List.foldl_map]
  rfl

omit [Crypto] in
theorem burst_excess_le {t used : UInt64} (ht : 4 * t.toNat < 2 ^ 64)
    (hused : used ≤ p.seqGasBurst t) (hburst : p.seqGasLimit t < used) :
    (used - p.seqGasLimit t).toNat ≤ (p.seqGasLimit t).toNat := by
  have hlimit : (p.seqGasLimit t).toNat = 2 * t.toNat := by
    simp only [Params.seqGasLimit, UInt64.toNat_mul, UInt64.reduceToNat]
    omega
  have hbound : (p.seqGasBurst t).toNat = 4 * t.toNat := by
    simp only [Params.seqGasBurst, UInt64.toNat_mul, UInt64.reduceToNat]
    omega
  rw [UInt64.toNat_sub_of_le _ _ (UInt64.le_of_lt hburst)]
  have := UInt64.le_iff_toNat_le.mp hused
  omega

omit [Crypto] in
/-- Up to the burst bound the forfeiture is at most the whole reward. -/
theorem burst_forfeit_le {t used : UInt64} (ht : 4 * t.toNat < 2 ^ 64)
    (hused : used ≤ p.seqGasBurst t) (reward : U256) :
    (burstForfeit p t used reward).toNat ≤ reward.toNat := by
  unfold burstForfeit
  split_ifs with hburst
  · have hexcess := burst_excess_le ht hused hburst
    have hshrink : ∀ u : U256,
        (u.mulDiv64 (used - p.seqGasLimit t) (p.seqGasLimit t)).toNat ≤ u.toNat := by
      intro u
      rw [U256.to_nat_mul_div64 hexcess]
      exact Nat.div_le_of_le_mul
        (by rw [Nat.mul_comm (p.seqGasLimit t).toNat]; exact Nat.mul_le_mul_left _ hexcess)
    exact (hshrink _).trans (hshrink _)
  · simp

theorem CertTrace.forfeit_le (tr : CertTrace s b p) (hp : p.Valid) (hs : Started p s)
    (reward : U256) :
    (burstForfeit p (currentSeqGasTarget s p b.header.height) tr.σ₁.res.seqGasUsed reward).toNat ≤
      reward.toNat := by
  have hrange := tr.ok.target_range hp hs
  have hcap := hp.capacity_burst
  refine burst_forfeit_le (by omega) ?_ _
  rw [tr.seq_gas_used]
  exact tr.ok.seqGas_le

end Burst

end Zycord.Fold
