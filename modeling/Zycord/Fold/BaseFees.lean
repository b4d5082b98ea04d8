import Zycord.Fold.Gas
import Zycord.Fold.Solvency

/-!
# How far the base fees move

The two base fees after a block (`core/fold/fold.go`, rule F12b; `core/params/params.go`). The gas
the fee markets see is at most twice their target: the sequential input is clamped there, the
parallel one is bounded by the block rules. So a step is a fraction of the fee (`fee_step`), and the
fees never fall below the floor (`Run.base_fees_ge`). That a fee rises whenever its market is over
its target needs the fee to be small enough to rise: the certificates that were applied have burned
the fee on their gas, and what a block burns fits in a word (`CertRun.gas_le_burned`).
`base_fees_bounded` is the statement about a block of a chain.
-/

namespace Zycord.Fold

open List Nat Params U256 UInt64 Validity
open Journal (Footprint Writes)

/-! ## One step -/

/-- A bounded step of a base fee, for a market that used `gas` where `target` was aimed for. -/
structure FeeStep (p : Params) (base next : U256) (gas target : ℕ) : Prop where
  floor : p.minBaseFee ≤ next
  low : base.toNat - base.toNat / p.baseFeeMaxChangeDenominator.toNat ≤ next.toNat
  high : next.toNat ≤ base.toNat + max 1 (base.toNat / p.baseFeeMaxChangeDenominator.toNat)
  exact_quotient : ∀ m d : UInt64, d.toNat = target →
    m.toNat = gas - target ∨ m.toNat = target - gas →
    (base.mulDiv64 m d).toNat = base.toNat * m.toNat / d.toNat
  rises_iff : base < next ↔ target < gas

section

variable {p : Params} {base : U256} {gas target : UInt64}

theorem to_nat_mul_of_lt (u v : UInt64) (h : u.toNat * v.toNat < 2 ^ 64) :
    (u * v).toNat = u.toNat * v.toNat := by
  exact mod_eq_of_lt h

theorem deviation_le (base : U256) {m : UInt64} (target D : UInt64) (hm : m.toNat ≤ target.toNat) :
    (((base.mulDiv64 m target).div64 D).1).toNat ≤ base.toNat / D.toNat := by
  rw [to_nat_div64, to_nat_mul_div64 hm]
  refine Nat.div_le_div_right (Nat.div_le_of_le_mul ?_)
  rw [Nat.mul_comm target.toNat]
  exact mul_le_mul_left _ hm

theorem le_next_base_fee (hbase : p.minBaseFee ≤ base) :
    p.minBaseFee ≤ p.nextBaseFee base gas target := by
  rw [le_def] at hbase ⊢
  have hmax : ∀ u : U256, p.minBaseFee.toNat ≤ (maxOf u p.minBaseFee).toNat := by
    intro u
    rw [to_nat_max_of]
    exact le_max_right _ _
  unfold nextBaseFee
  split
  · exact hmax base
  · split
    · have hword := base.isLt
      rw [to_nat_sat_add]
      omega
    · exact hmax _

/-- A step at most twice the target away from nothing, from a fee that is at least the floor and,
when it is to rise, has room for itself once more. -/
theorem fee_step (htarget : 0 < target.toNat) (hgas : gas.toNat ≤ 2 * target.toNat)
    (hbase : p.minBaseFee ≤ base) (hroom : target.toNat < gas.toNat → 2 * base.toNat < 2 ^ 256) :
    FeeStep p base (p.nextBaseFee base gas target) gas.toNat target.toNat := by
  have hfloor : p.minBaseFee ≤ p.nextBaseFee base gas target := le_next_base_fee hbase
  have hquotient : ∀ m d : UInt64, d.toNat = target.toNat →
      m.toNat = gas.toNat - target.toNat ∨ m.toNat = target.toNat - gas.toNat →
      (base.mulDiv64 m d).toNat = base.toNat * m.toNat / d.toNat :=
    fun m d hd hm => U256.to_nat_mul_div64 (by omega)
  rw [U256.le_def] at hbase
  suffices hstep : base.toNat - base.toNat / p.baseFeeMaxChangeDenominator.toNat ≤
        (p.nextBaseFee base gas target).toNat ∧
      (p.nextBaseFee base gas target).toNat ≤
        base.toNat + max 1 (base.toNat / p.baseFeeMaxChangeDenominator.toNat) ∧
      (base.toNat < (p.nextBaseFee base gas target).toNat ↔ target.toNat < gas.toNat) from
    ⟨hfloor, hstep.1, hstep.2.1, hquotient, U256.lt_def.trans hstep.2.2⟩
  have hne : target ≠ 0 := fun h0 => by rw [h0] at htarget; exact absurd htarget (by decide)
  unfold Params.nextBaseFee
  split
  · rename_i hsame
    have hsame : gas = target := by simpa [hne] using hsame
    rw [U256.to_nat_max_of, max_eq_left hbase, hsame]
    exact ⟨Nat.sub_le _ _, Nat.le_add_right _ _, by omega⟩
  · split
    · rename_i hover
      have hover := UInt64.lt_iff_toNat_lt.mp hover
      have hdelta := deviation_le base (m := gas - target) target p.baseFeeMaxChangeDenominator (by
          rw [UInt64.toNat_sub_of_le _ _ (UInt64.le_iff_toNat_le.mpr hover.le)]
          omega)
      rw [U256.to_nat_sat_add]
      generalize ((base.mulDiv64 (gas - target) target).div64
        p.baseFeeMaxChangeDenominator).1 = delta at hdelta
      -- a step that rounds to nothing is made one
      have hraised : 1 ≤ (if delta.isZero then (1 : U256) else delta).toNat ∧
          (if delta.isZero then (1 : U256) else delta).toNat ≤ max 1 delta.toNat := by
        split_ifs with hzero
        · exact ⟨le_rfl, le_max_left _ _⟩
        · exact ⟨U256.to_nat_pos (mt U256.is_zero_iff.mpr hzero), le_max_right _ _⟩
      omega
    · rename_i hunder
      have hunder := mt UInt64.lt_iff_toNat_lt.mpr hunder
      have hdelta := deviation_le base (m := target - gas) target p.baseFeeMaxChangeDenominator (by
          rw [UInt64.toNat_sub_of_le _ _ (UInt64.le_iff_toNat_le.mpr (by omega))]
          omega)
      rw [U256.to_nat_max_of, U256.to_nat_sat_sub]
      omega

end

/-! ## What a block burns -/

section

variable [Crypto] {p : Params} {s s' : State} {b : Block} {r : Result} {log : ChainLog}
  {fs fp : U256} {ordered : List Carried} {σ σ' : FoldState} {tips tips' : U256}

/-- An applied certificate burns at least its base fees. -/
theorem CertStep.burned_ge {c : Certificate} {id : Hash} {j j' : Journal}
    {burned burned' tip : U256}
    {out : CertOutcome} (hstep : CertStep c id p fs fp j burned out tip j' burned') :
    burned.toNat + (if out.outcome = .applied then burnedNat c p fs fp else 0) ≤ burned'.toNat := by
  cases hstep with
  | dropped hnot => exact le_refl _
  | billed hf hp hr hpay hb =>
    cases hp with
    | stale hreads =>
      rw [if_neg Outcome.noConfusion]
      omega
    | unstaged reason hreads hstage =>
      rw [if_neg (stage_error_ne_applied hstage)]
      omega
    | applied _ hreads hwrites hfees =>
      have hburned := (fees_eq_some.mp hfees).2.2.1
      rw [if_pos rfl]
      omega

/-- What certificates burn covers their applied gas at the base fees, even where the sum of the gas
wraps around. -/
theorem CertRun.gas_le_burned (hrun : CertRun p fs fp ordered σ tips σ' tips')
    (h : σ.res.seqGasApplied.toNat * fs.toNat + σ.res.parGasApplied.toNat * fp.toNat ≤
      σ.res.burned.toNat) :
    σ'.res.seqGasApplied.toNat * fs.toNat + σ'.res.parGasApplied.toNat * fp.toNat ≤
      σ'.res.burned.toNat := by
  induction hrun with
  | nil σ tips => exact h
  | @cons cy rest σ σ' tips tips₁ tips' tip burned out j hstep htips hrest ih =>
    refine ih ?_
    have hburn := hstep.burned_ge
    have hcount : ∀ {f : Certificate → UInt64} {counter : Result → UInt64},
        AppliedCounter p f counter →
        (counter (recordCert p cy out burned σ.res)).toNat ≤ (counter σ.res).toNat +
          if out.outcome = .applied then (f cy.cert).toNat else 0 := by
      intro f counter hcounts
      rw [hcounts]
      split
      · exact mod_le _ _
      · exact le_refl _
    have hseq := mul_le_mul_right fs.toNat (hcount (counts_seq_gas p))
    have hpar := mul_le_mul_right fp.toNat (hcount (counts_par_gas p))
    dsimp only
    rw [burned_record_cert]
    rw [add_mul] at hseq hpar
    by_cases happlied : out.outcome = .applied
    · rw [if_pos happlied] at hseq hpar hburn
      unfold burnedNat at hburn
      omega
    · rw [if_neg happlied] at hseq hpar
      omega

/-- So the gas of a block at its base fees fits in a word. -/
theorem CertTrace.gas_le_burned (tr : CertTrace s b p) :
    tr.σ₁.res.seqGasApplied.toNat * (openedFees b.header p s).1.toNat +
      tr.σ₁.res.parGasApplied.toNat * (openedFees b.header p s).2.toNat < 2 ^ 256 :=
  (tr.certs.gas_le_burned (by simp [Result.empty])).trans_lt tr.σ₁.res.burned.isLt

/-! ## Along a chain -/

theorem seq_ne_par (hwd : WordsDistinct) : parBaseFeeSlot ≠ seqBaseFeeSlot := fun heq =>
  WordLabel.noConfusion ((hwd.protocol_slot_eq_iff (l := .parBaseFee) (m := .seqBaseFee)
    trivial trivial).mp heq)

theorem BlockTrace.get_fee_label (tr : BlockTrace s b p) (hwd : WordsDistinct) {l : WordLabel}
    (hl : l ∈ feeLabels) :
    tr.σ₃.j.s.get (protocolSlot l) = (opened b.header p s).s.get (protocolSlot l) := by
  have hplain := fee_labels_plain l hl
  have hring : l ∉ ringLabels (ringIndex b.header p) := by
    simp only [feeLabels, mem_cons, not_mem_nil, or_false] at hl
    obtain rfl | rfl := hl <;> simp [ringLabels]
  have hrec : l ∉ recordLabels (b.header.height % p.epochLength) := by
    simp only [feeLabels, mem_cons, not_mem_nil, or_false] at hl
    obtain rfl | rfl := hl <;> simp [recordLabels]
  exact (tr.get_ring_label hwd hplain hring).trans (tr.get_label hwd hplain hrec)

/-- A block leaves the base fees its gas use prescribes. -/
theorem BlockTrace.Yields.base_fees {tr : BlockTrace s b p} (hy : tr.Yields r s')
    (hwd : WordsDistinct) :
    (s'.get seqBaseFeeSlot, s'.get parBaseFeeSlot) =
      if b.header.height = 0 then (p.initialSeqBaseFee, p.initialParBaseFee) else
        let t := currentSeqGasTarget s p b.header.height
        (p.nextBaseFee (s.get seqBaseFeeSlot)
            (if r.seqGasApplied > p.seqGasLimit t then p.seqGasLimit t else r.seqGasApplied) t,
          p.nextBaseFee (s.get parBaseFeeSlot) r.parGasApplied (p.parGasTarget t)) := by
  have hopened := opened_fees_eq (p := p) hwd b.header s
  have hres : tr.σ₃.res.seqGasApplied = r.seqGasApplied ∧
      tr.σ₃.res.parGasApplied = r.parGasApplied := by
    rw [hy.res]
    exact ⟨rfl, rfl⟩
  rw [hy.state, BlockTrace.closed]
  by_cases hzero : b.header.height = 0
  · have hseq := tr.get_fee_label hwd (l := .seqBaseFee) (by simp [feeLabels])
    have hpar := tr.get_fee_label hwd (l := .parBaseFee) (by simp [feeLabels])
    rw [currentBaseFees, if_pos hzero] at hopened
    rw [if_pos hzero, ← hopened, updateBaseFees, if_neg (by simp [hzero])]
    exact Prod.ext hseq hpar
  · have hpos : b.header.height > 0 := UInt64.pos_iff_ne_zero.mpr hzero
    rw [currentBaseFees, if_neg hzero] at hopened
    rw [if_neg hzero, updateBaseFees, if_pos hpos, hopened, hres.1, hres.2]
    simp [State.get_set_of_ne _ _ (seq_ne_par hwd)]

/-- Along a chain the base fees never fall below the floor. -/
theorem Run.base_fees_ge (hp : p.Valid) (hwd : WordsDistinct) (h : Run p log s) (hne : log ≠ []) :
    p.minBaseFee ≤ s.get seqBaseFeeSlot ∧ p.minBaseFee ≤ s.get parBaseFeeSlot := by
  induction h with
  | genesis => exact absurd rfl hne
  | @apply log s s' b r h hheight happly ih =>
    obtain ⟨tr, hy⟩ := block_trace happly
    have hfees := hy.base_fees hwd
    by_cases hzero : b.header.height = 0
    · rw [if_pos hzero, Prod.mk.injEq] at hfees
      rw [hfees.1, hfees.2]
      exact ⟨hp.seqBaseFee_ge, hp.parBaseFee_ge⟩
    · have hlog : log ≠ [] := by
        intro hnil
        rw [hnil] at hheight
        exact hzero (UInt64.toNat_inj.mp hheight)
      obtain ⟨hseq, hpar⟩ := ih hlog
      rw [if_neg hzero, Prod.mk.injEq] at hfees
      rw [hfees.1, hfees.2]
      exact ⟨le_next_base_fee hseq, le_next_base_fee hpar⟩

/-- A block above height 0, accepted on a chain and with parallel gas that does not wrap: both base
fees make a bounded step, the sequential one on its gas clamped at twice the target. -/
theorem base_fees_bounded (hwd : WordsDistinct) (hp : p.validate = .ok ()) (hrun : Run p log s)
    (hheight : b.header.height.toNat = log.length) (hpos : 0 < b.header.height)
    (happly : applyBlock s b p = (.ok r, s'))
    (hgas : (b.certs.map (exactParGas p)).sum < 2 ^ 64) :
    let t := currentSeqGasTarget s p b.header.height
    FeeStep p (s.get seqBaseFeeSlot) (s'.get seqBaseFeeSlot)
        (min r.seqGasApplied.toNat (2 * t.toNat)) t.toNat ∧
      FeeStep p (s.get parBaseFeeSlot) (s'.get parBaseFeeSlot) r.parGasApplied.toNat
        (p.parGasRatio.toNat * t.toNat) := by
  intro t
  have hvalid := valid_of_validate hp
  obtain ⟨tr, hy⟩ := block_trace happly
  have hzero : b.header.height ≠ 0 := UInt64.pos_iff_ne_zero.mp hpos
  have hlog : log ≠ [] := by
    intro hnil
    rw [hnil] at hheight
    exact hzero (UInt64.toNat_inj.mp hheight)
  obtain ⟨hseqFloor, hparFloor⟩ := hrun.base_fees_ge hvalid hwd hlog
  have hfees := hy.base_fees hwd
  rw [if_neg hzero, Prod.mk.injEq] at hfees
  have hburned := tr.gas_le_burned
  have hopened := opened_fees_eq (p := p) hwd b.header s
  rw [currentBaseFees, if_neg hzero] at hopened
  have hres : r.seqGasApplied = tr.σ₁.res.seqGasApplied ∧
      r.parGasApplied = tr.σ₁.res.parGasApplied := by
    rw [hy.res, tr.ring.res, tr.reward.res]
    exact ⟨rfl, rfl⟩
  rw [hopened, ← hres.1, ← hres.2] at hburned
  -- the target and the ceilings that follow from it, as numbers
  obtain ⟨hgenesis, hcapacity⟩ : p.seqGasTargetGenesis.toNat ≤ t.toNat ∧
      t.toNat ≤ p.seqGasCapacity.toNat := tr.ok.target_range hvalid (hrun.started hvalid hwd)
  have htpos : 0 < t.toNat := hvalid.seqGasTargetGenesis_pos.trans_le hgenesis
  have hratio := hvalid.parGasRatio_pos
  have hburst := hvalid.capacity_burst
  have hcap : 2 * (p.parGasRatio.toNat * t.toNat) < 2 ^ 64 := by
    rw [← mul_assoc]
    exact (mul_le_mul_left _ hcapacity).trans_lt hvalid.capacity_parallel
  have hlimit : (p.seqGasLimit t).toNat = 2 * t.toNat := to_nat_mul_of_lt 2 t (by
    show 2 * t.toNat < 2 ^ 64
    omega)
  have htarget : (p.parGasTarget t).toNat = p.parGasRatio.toNat * t.toNat :=
    to_nat_mul_of_lt p.parGasRatio t (by omega)
  have hparLimit : (p.parGasLimit t).toNat = 2 * (p.parGasRatio.toNat * t.toNat) := by
    rw [parGasLimit, to_nat_mul_of_lt _ _ (by rw [hlimit, mul_left_comm]; exact hcap),
      hlimit, mul_left_comm]
  -- a market over its target has applied at least two units of gas
  have hroom : ∀ {gas base : ℕ}, gas * base < 2 ^ 256 → 2 ≤ gas → 2 * base < 2 ^ 256 := by
    intro gas base hfits htwo
    exact (mul_le_mul_right base htwo).trans_lt hfits
  constructor
  · have hinput : (if r.seqGasApplied > p.seqGasLimit t then p.seqGasLimit t
        else r.seqGasApplied).toNat = min r.seqGasApplied.toNat (2 * t.toNat) := by
      split_ifs with hover
      · have hover := lt_iff_toNat_lt.mp hover
        omega
      · have hover := UInt64.le_iff_toNat_le.mp (UInt64.not_lt.mp hover)
        omega
    rw [hfees.1, ← hinput]
    refine fee_step htpos (by rw [hinput]; exact min_le_right _ _) hseqFloor fun hover => ?_
    have hover : t.toNat < min r.seqGasApplied.toNat (2 * t.toNat) := hinput ▸ hover
    exact hroom (lt_of_le_of_lt (le_add_right _ _) hburned) (by omega)
  · have happlied := tr.counter_le (counts_par_gas p) rfl (by
      refine lt_of_le_of_lt (sum_le_sum fun c _ => ?_) hgas
      rw [to_nat_par_gas]
      exact mod_le _ _)
    have hle := le_iff_toNat_le.mp tr.ok.parGas_le
    rw [hfees.2, ← htarget]
    refine fee_step (by rw [htarget]; exact mul_pos hratio htpos) ?_ hparFloor fun hover => ?_
    · rw [hres.2, htarget]
      exact happlied.trans (hle.trans hparLimit.le)
    · rw [htarget] at hover
      have hone := mul_pos hratio htpos
      exact hroom (lt_of_le_of_lt (le_add_left _ _) hburned) (by omega)

end

section

open Sample Reference

attribute [local instance] Reference.crypto

/-- The block of the sample chain that carries a payment. -/
theorem sample_base_fees_bounded : ∃ (s s' : State) (r : Result) (b : Block),
    applyBlock s b params = (.ok r, s') ∧ 0 < b.header.height ∧ b.certs = [payment] ∧
      FeeStep params (s.get seqBaseFeeSlot) (s'.get seqBaseFeeSlot)
        (min r.seqGasApplied.toNat (2 * (currentSeqGasTarget s params b.header.height).toNat))
        (currentSeqGasTarget s params b.header.height).toNat := by
  obtain ⟨log, s, b, r, s', hrun, hheight, happly, -, hcerts, -⟩ := payment_applies
  have hpos : 0 < b.header.height := by
    refine UInt64.pos_iff_ne_zero.mpr fun hzero => ?_
    obtain ⟨tr, -⟩ := block_trace happly
    have hgenesis := tr.ok.genesis
    simp [checkGenesisShape, hzero, hcerts, invalidIf, Except.seq_eq_ok] at hgenesis
  have hgas : (b.certs.map (exactParGas params)).sum < 2 ^ 64 := by
    rw [hcerts]
    decide +kernel
  exact ⟨s, s', r, b, happly, hpos, hcerts, (base_fees_bounded words_distinct
    params_validate hrun hheight hpos happly hgas).1⟩

end

end Zycord.Fold
