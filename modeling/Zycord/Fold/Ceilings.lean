import Zycord.Fold.Run

/-!
# The block ceilings

The ceilings of a block scale with the sequential target. `core/params` computes them in 256 bits
and clamps them to structural capacities; `core/params/naive` writes them a second time over a
128-bit product. Up to the capacity of the target the clamps do not cut and the two agree
(`ceilings_exact`). The signature ceiling has no capacity, and saturates where the scaled value
does not fit in a word (`signature_ceiling_saturates`).
-/

namespace Zycord.Naive

open Nat UInt64

/-- The constants that the second computation reads from the parameter file. -/
structure Ceilings where
  maxCertsPerBlockGenesis : UInt64
  maxSigsPerBlockGenesis : UInt64
  blockByteLimitGenesis : UInt64
  seqGasTargetGenesis : UInt64
  parGasRatio : UInt64
  certListCapacity : UInt64
  blockByteCapacity : UInt64
  seqGasCapacity : UInt64

/-- The constants of a parameter set. -/
def ofParams (p : Params) : Ceilings where
  maxCertsPerBlockGenesis := p.maxCertsPerBlockGenesis.toUInt64
  maxSigsPerBlockGenesis := p.maxSigsPerBlockGenesis.toUInt64
  blockByteLimitGenesis := p.blockByteLimitGenesis.toUInt64
  seqGasTargetGenesis := p.seqGasTargetGenesis
  parGasRatio := p.parGasRatio
  certListCapacity := p.certListCapacity.toUInt64
  blockByteCapacity := p.blockByteCapacity.toUInt64
  seqGasCapacity := p.seqGasCapacity

/-- The product of two words, as its high and its low word. -/
def mul64 (a b : UInt64) : UInt64 × UInt64 :=
  (UInt64.ofNat (a.toNat * b.toNat / 2 ^ 64), UInt64.ofNat (a.toNat * b.toNat))

/-- The quotient of a number of two words by one word above the high one. -/
def div64 (hi lo d : UInt64) : UInt64 := UInt64.ofNat ((hi.toNat * 2 ^ 64 + lo.toNat) / d.toNat)

/-- Scale in double width and clamp. -/
def scaleAndClamp (genesis t t0 capacity : UInt64) : UInt64 :=
  let (hi, lo) := mul64 genesis t
  if hi ≥ t0 then capacity
  else
    let q := div64 hi lo t0
    if q > capacity then capacity else q

namespace Ceilings

variable (c : Ceilings) (t : UInt64)

/-- A gas ceiling, undefined above the capacity of the target. -/
def inDomain (v : UInt64) : Option UInt64 := if t > c.seqGasCapacity then none else some v

/-- The soft sequential ceiling. -/
def seqGasLimit : Option UInt64 := c.inDomain t (2 * t)

/-- The hard sequential ceiling. -/
def seqGasBurst : Option UInt64 := c.inDomain t (4 * t)

/-- The parallel ceiling. -/
def parGasLimit : Option UInt64 := c.inDomain t (c.parGasRatio * 2 * t)

/-- The parallel target. -/
def parGasTarget : Option UInt64 := c.inDomain t (c.parGasRatio * t)

/-- The certificate ceiling. -/
def maxCertsPerBlock : UInt64 :=
  scaleAndClamp c.maxCertsPerBlockGenesis t c.seqGasTargetGenesis c.certListCapacity

/-- The signature ceiling. -/
def maxSigsPerBlock : UInt64 :=
  scaleAndClamp c.maxSigsPerBlockGenesis t c.seqGasTargetGenesis 0xFFFFFFFFFFFFFFFF

/-- The byte ceiling. -/
def blockByteLimit : UInt64 :=
  scaleAndClamp c.blockByteLimitGenesis t c.seqGasTargetGenesis c.blockByteCapacity

end Ceilings

/-- The scaled ceiling is the exact quotient, clamped. -/
theorem to_nat_scale_and_clamp (genesis t capacity : UInt64) {t0 : UInt64} (ht0 : 0 < t0.toNat) :
    (scaleAndClamp genesis t t0 capacity).toNat =
      min (genesis.toNat * t.toNat / t0.toNat) capacity.toNat := by
  have hcap := capacity.toNat_lt
  have hproduct : genesis.toNat * t.toNat < 2 ^ 64 * 2 ^ 64 :=
    mul_lt_mul'' genesis.toNat_lt t.toNat_lt
  have hhi : (mul64 genesis t).1.toNat = genesis.toNat * t.toNat / 2 ^ 64 :=
    UInt64.toNat_ofNat_of_lt' (Nat.div_lt_of_lt_mul hproduct)
  have hwhole : (mul64 genesis t).1.toNat * 2 ^ 64 + (mul64 genesis t).2.toNat =
      genesis.toNat * t.toNat := by
    rw [hhi]
    exact div_add_mod' _ _
  simp only [scaleAndClamp]
  split
  · -- The quotient does not fit in a word, so it is above the capacity.
    rename_i hge
    have hge : t0.toNat ≤ genesis.toNat * t.toNat / 2 ^ 64 := hhi ▸ le_iff_toNat_le.mp hge
    have hquot : 2 ^ 64 ≤ genesis.toNat * t.toNat / t0.toNat := by
      rw [le_div_iff_mul_le ht0, mul_comm]
      exact (le_div_iff_mul_le (by decide)).mp hge
    omega
  · rename_i hlt
    have hlt : genesis.toNat * t.toNat / 2 ^ 64 < t0.toNat :=
      hhi ▸ UInt64.lt_iff_toNat_lt.mp (UInt64.not_le.mp hlt)
    have hquot : genesis.toNat * t.toNat / t0.toNat < 2 ^ 64 := by
      rw [div_lt_iff_lt_mul ht0, mul_comm (2 ^ 64)]
      exact (div_lt_iff_lt_mul (by decide)).mp hlt
    have hq : (div64 (mul64 genesis t).1 (mul64 genesis t).2 t0).toNat =
        genesis.toNat * t.toNat / t0.toNat := by
      rw [div64, hwhole, toNat_ofNat_of_lt' hquot]
    split
    · rename_i hgt
      have := lt_iff_toNat_lt.mp hgt
      omega
    · rename_i hle
      have := UInt64.le_iff_toNat_le.mp (UInt64.not_lt.mp hle)
      omega

end Zycord.Naive

namespace Zycord.Params

section
variable {p : Params} {t : UInt64}

/-- Under valid parameters the scaled ceilings stay within capacity. -/
theorem scaled_le_capacity (h : p.validate = .ok ()) (ht : t ≤ p.seqGasCapacity) :
    p.scaledNat t p.maxCertsPerBlockGenesis ≤ p.certListCapacity.toUInt64.toNat ∧
    p.scaledNat t p.blockByteLimitGenesis ≤ p.blockByteCapacity.toUInt64.toNat := by
  simp only [validate, validateRelations, Except.seq_eq_ok, reject_if_eq_ok] at h
  obtain ⟨-, -, -, -, -, -, -, -, -, -, -, -, -, -, -, -, hbytes, -, hcerts, -⟩ := h
  constructor
  · refine Nat.div_le_of_le_mul ?_
    calc p.maxCertsPerBlockGenesis.toUInt64.toNat * t.toNat
        ≤ p.maxCertsPerBlockGenesis.toUInt64.toNat * p.seqGasCapacity.toNat :=
          Nat.mul_le_mul_left _ ht
      _ ≤ p.certListCapacity.toUInt64.toNat * p.seqGasTargetGenesis.toNat := not_lt.mp hcerts
      _ = p.seqGasTargetGenesis.toNat * p.certListCapacity.toUInt64.toNat := Nat.mul_comm _ _
  · refine Nat.div_le_of_le_mul ?_
    calc p.blockByteLimitGenesis.toUInt64.toNat * t.toNat
        ≤ p.blockByteLimitGenesis.toUInt64.toNat * p.seqGasCapacity.toNat :=
          Nat.mul_le_mul_left _ ht
      _ = p.seqGasTargetGenesis.toNat * p.blockByteCapacity.toUInt64.toNat := by
        rw [Nat.mul_comm]
        exact not_not.mp hbytes

theorem to_nat_max_sigs (p : Params) (t : UInt64) :
    (p.maxSigsPerBlock t).toNat = min (p.scaledNat t p.maxSigsPerBlockGenesis) (2 ^ 64 - 1) := by
  simp only [maxSigsPerBlock, scaled_eq]
  by_cases hfits : p.scaledNat t p.maxSigsPerBlockGenesis < 2 ^ 64
  · simp only [hfits, decide_true, Bool.not_true, Bool.false_eq_true, if_false]
    rw [UInt64.toNat_ofNat_of_lt' hfits]
    omega
  · simp only [hfits, decide_false, Bool.not_false, if_true]
    rw [min_eq_right (by omega)]
    rfl

/-- Under valid parameters no gas ceiling wraps. -/
theorem gas_ceilings_exact (h : p.Valid) (ht : t ≤ p.seqGasCapacity) :
    (p.seqGasLimit t).toNat = 2 * t.toNat ∧ (p.seqGasBurst t).toNat = 4 * t.toNat ∧
    (p.parGasLimit t).toNat = p.parGasRatio.toNat * (2 * t.toNat) ∧
    (p.parGasTarget t).toNat = p.parGasRatio.toNat * t.toNat := by
  have hburst := h.capacity_burst
  have ht : t.toNat ≤ p.seqGasCapacity.toNat := UInt64.le_iff_toNat_le.mp ht
  have hpar : 2 * (p.parGasRatio.toNat * t.toNat) < 2 ^ 64 := by
    have := Nat.mul_le_mul_left (2 * p.parGasRatio.toNat) ht
    rw [← mul_assoc]
    exact this.trans_lt h.capacity_parallel
  have htwo : (2 * t).toNat = 2 * t.toNat := by
    exact Nat.mod_eq_of_lt (show 2 * t.toNat < 2 ^ 64 by omega)
  refine ⟨htwo, ?_, ?_, ?_⟩
  · exact Nat.mod_eq_of_lt (show 4 * t.toNat < 2 ^ 64 by omega)
  · rw [parGasLimit, seqGasLimit, UInt64.toNat_mul, htwo]
    exact Nat.mod_eq_of_lt (by rwa [Nat.mul_left_comm])
  · rw [parGasTarget, UInt64.toNat_mul]
    exact Nat.mod_eq_of_lt (by omega)

/-- Under accepted parameters and up to the capacity of the target: the count and the byte ceiling
are the scaled genesis values, below their capacities; the signature ceiling is the scaled value
where it fits in a word; no ceiling falls when the target rises, no gas ceiling wraps, and the
second computation gives the same ceilings. -/
theorem ceilings_exact (h : p.validate = .ok ()) (ht : t ≤ p.seqGasCapacity) :
    (p.maxCertsPerBlock t).toInt = p.scaledNat t p.maxCertsPerBlockGenesis ∧
    (p.maxSigsPerBlock t).toNat = min (p.scaledNat t p.maxSigsPerBlockGenesis) (2 ^ 64 - 1) ∧
    (p.blockByteLimit t).toInt = p.scaledNat t p.blockByteLimitGenesis ∧
    (p.maxCertsPerBlock t).toInt ≤ p.certListCapacity.toInt ∧
    (p.blockByteLimit t).toInt ≤ p.blockByteCapacity.toInt ∧
    (∀ t', t' ≤ t → p.maxCertsPerBlock t' ≤ p.maxCertsPerBlock t ∧
      p.maxSigsPerBlock t' ≤ p.maxSigsPerBlock t ∧ p.blockByteLimit t' ≤ p.blockByteLimit t) ∧
    ((p.seqGasLimit t).toNat = 2 * t.toNat ∧ (p.seqGasBurst t).toNat = 4 * t.toNat ∧
      (p.parGasLimit t).toNat = p.parGasRatio.toNat * (2 * t.toNat) ∧
      (p.parGasTarget t).toNat = p.parGasRatio.toNat * t.toNat) ∧
    let naive := Naive.ofParams p
    naive.maxCertsPerBlock t = (p.maxCertsPerBlock t).toUInt64 ∧
    naive.maxSigsPerBlock t = p.maxSigsPerBlock t ∧
    naive.blockByteLimit t = (p.blockByteLimit t).toUInt64 ∧
    naive.seqGasLimit t = some (p.seqGasLimit t) ∧ naive.seqGasBurst t = some (p.seqGasBurst t) ∧
    naive.parGasLimit t = some (p.parGasLimit t) ∧
    naive.parGasTarget t = some (p.parGasTarget t) := by
  have hvalid := valid_of_validate h
  have hcerts : 0 < p.certListCapacity.toInt := cert_list_capacity_pos h
  have hbytes : 0 < p.blockByteCapacity.toInt :=
    int_pos_of_validate (n := "block_byte_capacity") h (by simp [consensusFields])
  have hscaled : ∀ t' ≤ p.seqGasCapacity,
      (p.maxCertsPerBlock t').toInt = p.scaledNat t' p.maxCertsPerBlockGenesis ∧
      (p.blockByteLimit t').toInt = p.scaledNat t' p.blockByteLimitGenesis := by
    intro t' ht'
    have hle := scaled_le_capacity h ht'
    have := to_nat_of_nonneg hcerts.le
    have := to_nat_of_nonneg hbytes.le
    rw [to_int_max_certs hcerts, to_int_byte_limit hbytes]
    omega
  have hmono : ∀ (genesis : Int64) (t' : UInt64), t' ≤ t →
      p.scaledNat t' genesis ≤ p.scaledNat t genesis := fun _ _ hle =>
    Nat.div_le_div_right (Nat.mul_le_mul_left _ (UInt64.le_iff_toNat_le.mp hle))
  obtain ⟨hcount, hbyte⟩ := hscaled t ht
  refine ⟨hcount, to_nat_max_sigs p t, hbyte, max_certs_le_capacity hcerts t, ?_, ?_,
    gas_ceilings_exact hvalid ht, ?_⟩
  · rw [to_int_byte_limit hbytes]
    exact min_le_right _ _
  · intro t' hle
    obtain ⟨hcount', hbyte'⟩ := hscaled t' (UInt64.le_trans hle ht)
    rw [Int64.le_iff_toInt_le, Int64.le_iff_toInt_le, UInt64.le_iff_toNat_le, to_nat_max_sigs,
      to_nat_max_sigs]
    have := hmono p.maxCertsPerBlockGenesis t' hle
    have := hmono p.maxSigsPerBlockGenesis t' hle
    have := hmono p.blockByteLimitGenesis t' hle
    omega
  · have hdomain : ¬ t > p.seqGasCapacity := UInt64.not_lt.mpr ht
    have hclamp := fun genesis capacity =>
      Naive.to_nat_scale_and_clamp genesis t capacity hvalid.seqGasTargetGenesis_pos
    obtain ⟨hcountLe, hbyteLe⟩ := scaled_le_capacity h ht
    have hcountWord := to_nat_of_nonneg (v := p.maxCertsPerBlock t) (by omega)
    have hbyteWord := to_nat_of_nonneg (v := p.blockByteLimit t) (by omega)
    refine ⟨UInt64.toNat_inj.mp ?_, UInt64.toNat_inj.mp ?_, UInt64.toNat_inj.mp ?_, if_neg hdomain,
      if_neg hdomain, ?_, if_neg hdomain⟩
    · refine (hclamp _ _).trans ((Nat.min_eq_left hcountLe).trans ?_)
      omega
    · exact (hclamp _ _).trans (to_nat_max_sigs p t).symm
    · refine (hclamp _ _).trans ((Nat.min_eq_left hbyteLe).trans ?_)
      omega
    · refine (if_neg hdomain).trans ?_
      rw [Params.parGasLimit, Params.seqGasLimit, ← UInt64.mul_assoc]
      rfl

end

/-- At its capacity the sample target allows its four certificates in both computations. -/
theorem sample_ceilings_exact : (Fold.Sample.params.maxCertsPerBlock 1000).toInt = 4 ∧
    (Naive.ofParams Fold.Sample.params).maxCertsPerBlock 1000 = 4 := by
  obtain ⟨hcount, -, -, -, -, -, -, hnaive, -⟩ :=
    ceilings_exact (t := 1000) Fold.Sample.params_validate (by decide)
  exact ⟨hcount.trans (by decide), hnaive.trans (by decide +kernel)⟩

/-- Accepted parameters under which four times the genesis number of signatures does not fit in a
word: the ceiling is not the scaled value. -/
theorem signature_ceiling_saturates :
    let p := { Fold.Sample.params with
      maxSigsPerBlockGenesis := 0x4000000000000000
      seqGasCapacity := 4000
      blockByteCapacity := 400000
      certListCapacity := 16 }
    p.validate = .ok () ∧ p.seqGasTargetGenesis ≤ 4000 ∧ 4000 ≤ p.seqGasCapacity ∧
    p.scaledNat 4000 p.maxSigsPerBlockGenesis = 2 ^ 64 ∧
    (p.maxSigsPerBlock 4000).toNat = 2 ^ 64 - 1 := by
  decide +kernel

end Zycord.Params
