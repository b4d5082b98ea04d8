import Zycord.Fold.Coinbase

/-!
# The treasury

The treasury is the native balance of the protocol address. No certificate names an address of
version `0x00` (`apply_certificate_get_protocol`), a pending reward is never owed to one
(`Run.payee_not_protocol`), and the bookkeeping of a block writes words that are no balance, so
the share of the subsidy is the only thing that moves the cell. `treasury_sealed_and_exact` adds
the shares up along a run.
-/

namespace Zycord.Fold

open Crypto Finset Mut U256 Validity
open Journal (Footprint Writes)

section

variable [Crypto] {p : Params} {s s' : State} {b : Block} {r : Result} {log : ChainLog}

/-! ## Certificates -/

/-- Whatever becomes of a valid certificate, also when its execution fails, the cells of the
protocol version are as before. -/
theorem apply_certificate_get_protocol {c : Certificate} (hc : check c p = .ok ()) (id : Hash)
    (fs fp : U256) (σ : FoldState) {slot : Slot}
    (hs : slot.addr.version = addrVersionProtocol) :
    (applyCertificate c id p fs fp σ).2.j.s.get slot = σ.j.s.get slot := by
  have hframed : wp (applyCertificate c id p fs fp)
      (fun _ σ' => Writes (certFootprint c id) σ.j σ'.j)
      (fun _ σ' => Writes (certFootprint c id) σ.j σ'.j) σ := apply_certificate_framed fs fp σ
  have hnames : ¬ (certFootprint c id).cells slot := not_names_of_version (validCert_of_check hc) hs
  rcases run_cases (applyCertificate c id p fs fp) σ with ⟨x, σ', hrun⟩ | ⟨e, σ', hrun⟩
  · rw [hrun]
    exact (of_wp_ok hframed hrun).get_eq hnames
  · rw [hrun]
    exact (of_wp_error hframed hrun).get_eq hnames

/-! ## Blocks -/

theorem get_treasury_of_labels (hwd : WordsDistinct) {labels : List WordLabel} {j j' : Journal}
    (h : Writes (labelFootprint labels) j j') (hplain : ∀ m ∈ labels, m.Plain) :
    j'.s.get treasurySlot = j.s.get treasurySlot := by
  refine h.get_eq ?_
  rintro ⟨l, hl, heq⟩
  exact native_slot_ne_label hwd (hplain l hl) protocolAddress heq

theorem RewardTrace.get_treasury (tr : RewardTrace s b p) (hwd : WordsDistinct) :
    (tr.σ₂.j.s.get treasurySlot).toNat =
      (s.get treasurySlot).toNat + (treasuryShare p b.header.height).toNat := by
  have hopened : (opened b.header p s).s.get treasurySlot = s.get treasurySlot :=
    get_treasury_of_labels hwd open_block_labels (open_labels_plain b.header)
  have hcerts : tr.σ₁.j.s.get treasurySlot = (opened b.header p s).s.get treasurySlot :=
    tr.get_certs rfl
  have hrecorded : (recorded b p tr.σ₁).s.get treasurySlot = tr.σ₁.j.s.get treasurySlot := by
    rw [recorded, get_prune_expired]
    exact get_treasury_of_labels hwd (record_block_labels b.cites tr.σ₁.res.seqGasApplied)
      (record_labels_plain _)
  obtain ⟨credited, hcredited, htreasury⟩ := tr.reward.treasury
  rw [htreasury, State.get_set_self, hcredited, hrecorded, hcerts, hopened]

/-- A reward that waits is owed to a user address. -/
theorem Run.payee_not_protocol (hwd : WordsDistinct) (h : Run p log s) (i : UInt64)
    (hne : (ringCells s i).2 ≠ 0) : (ringCells s i).1.bytes32 ≠ protocolAddress := by
  induction h with
  | genesis => exact absurd rfl hne
  | @apply log s s' b r h hheight happly ih =>
    obtain ⟨tr, hy⟩ := block_trace happly
    rw [hy.state, tr.ring_cells_closed hwd, ← hy.miner_reward_eq] at hne ⊢
    split_ifs at hne with hi
    · by_cases hzero : r.minerReward = 0
      · simp [pendingReward, hzero] at hne
      · have huser := tr.user_of_reward hy hzero
        rw [if_pos hi, pendingReward, if_neg hzero, bytes32_from_bytes]
        exact fun heq => version_ne_protocol_of_user huser (heq ▸ version_protocol_address)
    · rw [if_neg hi]
      exact ih hne

/-- A block adds its share to the treasury. -/
theorem BlockTrace.get_treasury_closed (tr : BlockTrace s b p) (hwd : WordsDistinct)
    (h : Run p log s) :
    (tr.closed.s.get treasurySlot).toNat =
      (s.get treasurySlot).toNat + (treasuryShare p b.header.height).toNat := by
  have hfees : tr.closed.s.get treasurySlot = tr.σ₃.j.s.get treasurySlot :=
    get_treasury_of_labels hwd (update_base_fees_labels _ _ _ _) fee_labels_plain
  have hstore : tr.σ₃.j.s.get treasurySlot = tr.mid.s.get treasurySlot := by
    rw [tr.ring.j]
    exact get_treasury_of_labels hwd (store_pending_labels _ _ _) (ring_labels_plain _)
  have hpaid := tr.ring.paid.get_eq treasurySlot
  -- the matured reward goes elsewhere, or there is none
  have hnone : (if treasurySlot = maturedCell b.header p tr.σ₂.j.s then tr.matured.toNat else 0) =
      0 := by
    split_ifs with hcell
    · have hamount : maturedAmount b.header p tr.σ₂.j.s = 0 := by
        by_contra hne
        have hcells := tr.ring_cells hwd (ringIndex b.header p)
        refine h.payee_not_protocol hwd (ringIndex b.header p) ?_ ?_
        · rw [← hcells]
          exact hne
        · rw [← hcells]
          exact (congrArg Slot.addr hcell).symm
      have htotal := tr.ring.paid.total
      rw [hamount, to_nat_zero] at htotal
      omega
    · rfl
  rw [hfees, hstore, hpaid, hnone, Nat.add_zero, tr.get_treasury hwd]

omit [Crypto] in
theorem to_nat_treasury_share (hp : p.Valid) (height : UInt64) :
    (treasuryShare p height).toNat =
      (p.emission height).toNat * p.treasuryShareBps.toNat / 10000 := by
  have hbps : p.treasuryShareBps.toNat ≤ (10000 : UInt64).toNat := le_of_lt hp.treasuryShare_lt
  exact to_nat_mul_div64 hbps

/-- Under accepted parameters the treasury is sealed and exact: no certificate that passes the
validity check changes a cell of an address of version `0x00`, whatever its outcome, and after
every run the treasury holds the sum of the shares of the heights applied, so that no block
lowers it. -/
theorem treasury_sealed_and_exact (hwd : WordsDistinct) (hp : p.validate = .ok ()) :
    (∀ c, check c p = .ok () → ∀ id fs fp σ, ∀ slot : Slot,
      slot.addr.version = Crypto.addrVersionProtocol →
        (applyCertificate c id p fs fp σ).2.j.s.get slot = σ.j.s.get slot) ∧
    ∀ log s, Run p log s → (s.get treasurySlot).toNat = ∑ h ∈ Finset.range log.length,
        (p.emission (.ofNat h)).toNat * p.treasuryShareBps.toNat / 10000 ∧
      ∀ b r s', b.header.height.toNat = log.length → applyBlock s b p = (.ok r, s') →
        s.get treasurySlot ≤ s'.get treasurySlot := by
  have hvalid := Params.valid_of_validate hp
  refine ⟨fun c hc id fs fp σ slot hs => apply_certificate_get_protocol hc id fs fp σ hs,
    fun log s hrun => ⟨?_, fun b r s' _ happly => ?_⟩⟩
  · induction hrun with
    | genesis => simp
    | @apply log s s' b r hrun hheight happly ih =>
      obtain ⟨tr, hy⟩ := block_trace happly
      have hheight' : b.header.height = .ofNat log.length := by
        rw [← hheight, UInt64.ofNat_toNat]
      rw [hy.state, tr.get_treasury_closed hwd hrun, ih, List.length_cons,
        sum_range_succ, to_nat_treasury_share hvalid, hheight']
  · obtain ⟨tr, hy⟩ := block_trace happly
    rw [le_def, hy.state, tr.get_treasury_closed hwd hrun]
    exact Nat.le_add_right _ _

end

section Sample

open Sample

attribute [local instance] Reference.crypto

/-- The executed chain: its treasury holds the shares of its heights, and the payment it carries
leaves the protocol's cells alone. -/
theorem sample_treasury_sealed_and_exact :
    ∃ log s, Run params log s ∧ log.length = 4 ∧
      (s.get treasurySlot).toNat = 3 * (1000000 * 1000 / 10000) ∧
      ∀ fs fp σ slot, slot.addr.version = Crypto.addrVersionProtocol →
        (applyCertificate payment payment.id params fs fp σ).2.j.s.get slot = σ.j.s.get slot := by
  have hproduce : ∃ x, produce params ((header 3 (user 1), [payment]) :: funding) = some x ∧
      x.1.length = 4 := by decide +kernel
  have hshares : ∑ h ∈ range 4, (params.emission (.ofNat h)).toNat *
      params.treasuryShareBps.toNat / 10000 = 3 * (1000000 * 1000 / 10000) := by decide +kernel
  have hcheck : check payment params = .ok () := by decide +kernel
  obtain ⟨⟨log, s⟩, hx, hlog⟩ := hproduce
  obtain ⟨hsealed, hexact⟩ :=
    treasury_sealed_and_exact Reference.words_distinct params_validate
  have htreasury := (hexact log s (run_of_produce hx)).1
  dsimp only at hlog
  rw [hlog, hshares] at htreasury
  exact ⟨log, s, run_of_produce hx, hlog, htreasury,
    fun fs fp σ slot hs => hsealed payment hcheck payment.id fs fp σ slot hs⟩

end Sample

end Zycord.Fold
