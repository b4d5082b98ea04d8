import Zycord.Core.Decode
import Zycord.Fold.Run

/-!
# What a certificate is charged

The two fee markets of a certificate as numbers (`core/types/certificate.go`). `fees_eq_some` says
exactly when `Certificate.fees` returns a split and which one, `fee_ceiling_eq_some` the same for
the ceiling that the deposit rule compares with. `fees_within_deposit` puts them together: whatever
the base fees are, as long as the bids cover them, the charge stays within the deposit.
-/

namespace Zycord.Fold

open Certificate Except Nat Option U256 Validity

section Fees

variable {c : Certificate} {p : Params} {fs fp ceiling : U256}

/-! ## One market -/

/-- What a market tips for each unit of gas: the priority, as far as the maximum leaves room. -/
def effectiveTip (base maxPrice priority : U256) : ℕ :=
  min priority.toNat (maxPrice.toNat - base.toNat)

variable {base maxPrice priority : U256} {f : FeeSplit}

/-- A market clears exactly when its products fit. -/
theorem market_eq_some {gas burn tip : U256} :
    market gas base maxPrice priority = some (burn, tip) ↔ base ≤ maxPrice ∧
      burn.toNat = gas.toNat * base.toNat ∧
      tip.toNat = gas.toNat * effectiveTip base maxPrice priority := by
  simp only [market, bind_eq_bind, bind_eq_some_iff, checked_mul_eq_some,
    to_nat_min_of, pure_def, some.injEq, Prod.mk.injEq, effectiveTip]
  constructor
  · intro h
    obtain ⟨headroom, hroom, burn', hburn, tip', htip, rfl, rfl⟩ := h
    have hsub := checked_sub_eq_some.mp hroom
    have hhead : headroom.toNat = maxPrice.toNat - base.toNat := by omega
    refine ⟨le_def.mpr (by omega), hburn, ?_⟩
    rw [htip, hhead]
  · intro h
    obtain ⟨hle, hburn, htip⟩ := h
    have hhead := to_nat_sub (le_def.mp hle)
    have hroom : checked (maxPrice.sub base) = some (maxPrice.sub base).1 := by
      rw [checked_sub_eq_some]
      have := le_def.mp hle
      omega
    exact ⟨_, hroom, burn, hburn, tip, by rw [hhead]; exact htip, rfl, rfl⟩

theorem base_add_effective_le (priority : U256) (h : base ≤ maxPrice) :
    base.toNat + effectiveTip base maxPrice priority ≤ maxPrice.toNat := by
  have hle := le_def.mp h
  unfold effectiveTip
  omega

/-! ## Both markets -/

/-- The burned part as a number. -/
def burnedNat (c : Certificate) (p : Params) (fs fp : U256) : ℕ :=
  (c.seqGas p).toNat * fs.toNat + (c.parGas p).toNat * fp.toNat

/-- The tip as a number. -/
def tippedNat (c : Certificate) (p : Params) (fs fp : U256) : ℕ :=
  (c.seqGas p).toNat * effectiveTip fs c.feeBid.seqMax c.feeBid.seqPriority +
    (c.parGas p).toNat * effectiveTip fp c.feeBid.parMax c.feeBid.parPriority

/-- What it costs at its maximal prices. -/
def ceilingNat (c : Certificate) (p : Params) : ℕ :=
  (c.seqGas p).toNat * c.feeBid.seqMax.toNat + (c.parGas p).toNat * c.feeBid.parMax.toNat

/-- Fees are computed exactly when the bids cover the base fees and the charge fits, and then they
are the exact sums. -/
theorem fees_eq_some : c.fees p fs fp = some f ↔
    fs ≤ c.feeBid.seqMax ∧ fp ≤ c.feeBid.parMax ∧ f.burned.toNat = burnedNat c p fs fp ∧
      f.tip.toNat = tippedNat c p fs fp ∧ f.charge.toNat = f.burned.toNat + f.tip.toNat := by
  simp only [fees, bind_eq_bind, bind_eq_some_iff, Prod.exists,
    market_eq_some, checked_add_eq_some, pure_def, some.injEq,
    to_nat_from_uint64, burnedNat, tippedNat]
  constructor
  · intro h
    obtain ⟨seqBurn, seqTip, ⟨hseq, hsb, hst⟩, parBurn, parTip, ⟨hpar, hpb, hpt⟩, burned, hburned,
      tip, htip, charge, hcharge, rfl⟩ := h
    refine ⟨hseq, hpar, ?_, ?_, hcharge⟩
    · rw [hburned, hsb, hpb]
    · rw [htip, hst, hpt]
  · intro h
    obtain ⟨hseq, hpar, hburned, htip, hcharge⟩ := h
    -- every product is a part of a sum that fits
    have hb := f.burned.isLt
    have ht := f.tip.isLt
    let word := fun (n : ℕ) (hn : n < 2 ^ 256) => (⟨n, hn⟩ : U256)
    exact ⟨word _ (by omega), word _ (by omega), ⟨hseq, rfl, rfl⟩, word _ (by omega),
      word _ (by omega), ⟨hpar, rfl, rfl⟩, f.burned, hburned, f.tip, htip, f.charge, hcharge, rfl⟩

theorem burned_add_tipped_le (hseq : fs ≤ c.feeBid.seqMax) (hpar : fp ≤ c.feeBid.parMax) :
    burnedNat c p fs fp + tippedNat c p fs fp ≤ ceilingNat c p := by
  have hs := mul_le_mul_left (c.seqGas p).toNat
    (base_add_effective_le c.feeBid.seqPriority hseq)
  have hq := mul_le_mul_left (c.parGas p).toNat
    (base_add_effective_le c.feeBid.parPriority hpar)
  rw [mul_add] at hs hq
  unfold burnedNat tippedNat ceilingNat
  omega

/-- The ceiling is computed exactly when the cost at the maximal prices fits; it is that cost or the
skip fee. -/
theorem fee_ceiling_eq_some : c.feeCeiling p = some ceiling ↔
    ceilingNat c p < 2 ^ 256 ∧ ceiling.toNat = max p.skipFee.toNat (ceilingNat c p) := by
  simp only [feeCeiling, bind_eq_bind, bind_eq_some_iff,
    checked_mul_eq_some, checked_add_eq_some, pure_def, some.injEq,
    to_nat_from_uint64, ceilingNat]
  constructor
  · intro h
    obtain ⟨seq, hseq, par, hpar, total, htotal, rfl⟩ := h
    have hlt := total.isLt
    have hmax : (maxOf p.skipFee total).toNat = max p.skipFee.toNat total.toNat := to_nat_max_of
    omega
  · intro h
    obtain ⟨hlt, hceil⟩ := h
    let word := fun (n : ℕ) (hn : n < 2 ^ 256) => (⟨n, hn⟩ : U256)
    refine ⟨word _ (by omega), rfl, word _ (by omega), rfl, word _ hlt, rfl, ?_⟩
    exact ext ((to_nat_max_of).trans hceil.symm)

/-- A certificate whose bids cover the base fees is charged at most its ceiling. -/
theorem fees_of_ceiling (hseq : fs ≤ c.feeBid.seqMax) (hpar : fp ≤ c.feeBid.parMax)
    (hceil : c.feeCeiling p = some ceiling) :
    ∃ fees, c.fees p fs fp = some fees ∧ fees.charge.toNat ≤ ceiling.toNat := by
  obtain ⟨hlt, hmax⟩ := fee_ceiling_eq_some.mp hceil
  have hle := burned_add_tipped_le (p := p) hseq hpar
  let word := fun (n : ℕ) (hn : n < 2 ^ 256) => (⟨n, hn⟩ : U256)
  refine ⟨⟨word (burnedNat c p fs fp + tippedNat c p fs fp) (by omega),
    word (burnedNat c p fs fp) (by omega), word (tippedNat c p fs fp) (by omega)⟩,
    fees_eq_some.mpr ⟨hseq, hpar, rfl, rfl, rfl⟩, ?_⟩
  show burnedNat c p fs fp + tippedNat c p fs fp ≤ ceiling.toNat
  omega

theorem skip_fee_le_ceiling (hceil : c.feeCeiling p = some ceiling) :
    p.skipFee.toNat ≤ ceiling.toNat := by
  obtain ⟨-, hmax⟩ := fee_ceiling_eq_some.mp hceil
  omega

/-! ## Raising a bid -/

/-- A certificate with other maxima. -/
def withMaxima (c : Certificate) (seqMax parMax : U256) : Certificate :=
  { c with feeBid := { c.feeBid with seqMax, parMax } }

theorem size_bytes_with_maxima (c : Certificate) (seqMax parMax : U256) :
    (withMaxima c seqMax parMax).sizeBytes = c.sizeBytes := by
  simp [sizeBytes, marshal, marshalWith, Ssz.length_encode, withMaxima, layout, Ssz.fieldSize]

theorem effective_tip_of_raise {maxPrice' : U256} (hraise : maxPrice ≤ maxPrice')
    (hroom : maxPrice' = maxPrice ∨ priority.toNat + base.toNat ≤ maxPrice.toNat) :
    effectiveTip base maxPrice' priority = effectiveTip base maxPrice priority := by
  rcases hroom with rfl | hroom
  · rfl
  · have hle := le_def.mp hraise
    unfold effectiveTip
    omega

theorem fees_with_maxima {seqMax parMax : U256} (h : c.fees p fs fp = some f)
    (hseq : c.feeBid.seqMax ≤ seqMax) (hpar : c.feeBid.parMax ≤ parMax)
    (hseqRoom : seqMax = c.feeBid.seqMax ∨
      c.feeBid.seqPriority.toNat + fs.toNat ≤ c.feeBid.seqMax.toNat)
    (hparRoom : parMax = c.feeBid.parMax ∨
      c.feeBid.parPriority.toNat + fp.toNat ≤ c.feeBid.parMax.toNat) :
    (withMaxima c seqMax parMax).fees p fs fp = some f := by
  obtain ⟨hs, hq, hburned, htip, hcharge⟩ := fees_eq_some.mp h
  have hgas : (withMaxima c seqMax parMax).parGas p = c.parGas p := by
    show _ + p.gasParPerByte * UInt64.ofNat (withMaxima c seqMax parMax).sizeBytes + _ = _
    rw [size_bytes_with_maxima]
    rfl
  refine fees_eq_some.mpr ⟨hs.trans hseq, hq.trans hpar, ?_, ?_, hcharge⟩
  · rw [hburned, burnedNat, burnedNat, hgas]
    rfl
  · rw [htip, tippedNat, tippedNat, hgas]
    show _ = _ * effectiveTip fs seqMax c.feeBid.seqPriority +
      _ * effectiveTip fp parMax c.feeBid.parPriority
    rw [effective_tip_of_raise hseq hseqRoom, effective_tip_of_raise hpar hparRoom]
    rfl

end Fees

section

variable [Crypto] {c : Certificate} {p : Params} {fs fp : U256}

theorem covered_of_check (h : checkDeposit c p = .ok ()) :
    ∃ ceiling, c.feeCeiling p = some ceiling ∧ ceiling ≤ c.deposit.amount := by
  simp only [checkDeposit, seq_eq_ok] at h
  obtain ⟨-, -, -, -, -, -, hceil⟩ := h
  split at hceil
  · cases hceil
  · rename_i ceiling hc
    simp only [seq_eq_ok, fail_if_eq_ok, not_lt] at hceil
    exact ⟨ceiling, hc, hceil.1⟩

/-- A certificate that passes the deposit rule, at base fees its bids cover: the fees are computed,
the charge is what is burned and what is tipped, it is within the ceiling and the ceiling is within
the deposit, as is the skip fee. Raising a maximum that leaves room for the priority already changes
nothing. -/
theorem fees_within_deposit (h : checkDeposit c p = .ok ()) (hseq : fs ≤ c.feeBid.seqMax)
    (hpar : fp ≤ c.feeBid.parMax) :
    ∃ f ceiling, c.fees p fs fp = some f ∧ c.feeCeiling p = some ceiling ∧
      f.charge.toNat = f.burned.toNat + f.tip.toNat ∧ f.charge ≤ ceiling ∧
      ceiling ≤ c.deposit.amount ∧ p.skipFee ≤ c.deposit.amount ∧
      ∀ seqMax parMax, c.feeBid.seqMax ≤ seqMax → c.feeBid.parMax ≤ parMax →
        (seqMax = c.feeBid.seqMax ∨ c.feeBid.seqPriority.toNat ≤ c.feeBid.seqMax.toNat - fs.toNat) →
        (parMax = c.feeBid.parMax ∨ c.feeBid.parPriority.toNat ≤ c.feeBid.parMax.toNat - fp.toNat) →
        (withMaxima c seqMax parMax).fees p fs fp = some f := by
  obtain ⟨ceiling, hceil, hcover⟩ := covered_of_check h
  obtain ⟨f, hf, hle⟩ := fees_of_ceiling hseq hpar hceil
  have hs := le_def.mp hseq
  have hq := le_def.mp hpar
  refine ⟨f, ceiling, hf, hceil, (fees_eq_some.mp hf).2.2.2.2, le_def.mpr hle, hcover,
    (le_def.mpr (skip_fee_le_ceiling hceil)).trans hcover, ?_⟩
  intro seqMax parMax hseq' hpar' hseqRoom hparRoom
  exact fees_with_maxima hf hseq' hpar' (hseqRoom.imp_right fun h => by omega)
    (hparRoom.imp_right fun h => by omega)

end

section

open Sample Reference

attribute [local instance] Reference.crypto

/-- A payment whose maxima leave room for its priorities, and the same payment with higher maxima.
-/
theorem sample_fees_within_deposit : ∃ f ceiling,
    payment.fees params 1 1 = some f ∧ payment.feeCeiling params = some ceiling ∧
      f.charge ≤ ceiling ∧ ceiling ≤ payment.deposit.amount ∧
      (withMaxima payment (.ofNat 3) (.ofNat 4)).fees params 1 1 = some f := by
  have hdeposit : checkDeposit payment params = .ok () := by decide +kernel
  have hseq : 1 ≤ payment.feeBid.seqMax := by decide
  have hpar : 1 ≤ payment.feeBid.parMax := by decide
  obtain ⟨f, ceiling, hf, hceil, -, hle, hcover, -, hraise⟩ :=
    fees_within_deposit hdeposit hseq hpar
  exact ⟨f, ceiling, hf, hceil, hle, hcover, hraise _ _ (by decide) (by decide)
    (Or.inr (by decide)) (Or.inr (by decide))⟩

end

end Zycord.Fold
