import Zycord.Core.Params
import Zycord.Lib.Mut

/-!
# The parameter check

`Params.validate` is the check a node runs when it loads its parameters (`Params.Validate`), with
the error texts of the source. `Params.Valid` lists what a passed check says about the numbers,
and `Params.valid_of_validate` is the way from one to the other; the rest of the development
reads only `Valid`.
-/

namespace Zycord.Params

open Except Nat U256 UInt64

/-- The complaint about a field. -/
def positiveError (name : String) : String := "params: " ++ name ++ " must be positive"

/-- Refuse the first field that is not positive. -/
def checkPositive (fields : List (String × FieldValue)) : Except String Unit :=
  match fields.find? fun f => f.2.notPositive with
  | some f => .error (positiveError f.1)
  | none => .ok ()

/-- Every consensus field is positive. -/
def checkAllPositive (p : Params) : Except String Unit := checkPositive p.consensusFields

/-- The integer parameters that `validate` checks a second time. -/
def positiveInts (p : Params) : List (String × FieldValue) :=
  [("max_reads", .int p.maxReads), ("max_writes", .int p.maxWrites),
   ("max_sigs", .int p.maxSigs), ("max_moves_per_transfer", .int p.maxMovesPerTransfer),
   ("max_retire_addrs", .int p.maxRetireAddrs),
   ("max_certs_per_block_genesis", .int p.maxCertsPerBlockGenesis),
   ("max_sigs_per_block_genesis", .int p.maxSigsPerBlockGenesis),
   ("block_byte_limit_genesis", .int p.blockByteLimitGenesis),
   ("cert_list_capacity", .int p.certListCapacity),
   ("block_byte_capacity", .int p.blockByteCapacity),
   ("max_cites_per_block", .int p.maxCitesPerBlock),
   ("median_time_blocks", .int p.medianTimeBlocks)]

/-- The unsigned parameters that `validate` checks a second time. -/
def positiveUints (p : Params) : List (String × FieldValue) :=
  [("ttl_max", .u64 p.ttlMax), ("seq_gas_target_genesis", .u64 p.seqGasTargetGenesis),
   ("par_gas_ratio", .u64 p.parGasRatio), ("seq_gas_capacity", .u64 p.seqGasCapacity),
   ("ceiling_growth_divisor", .u64 p.ceilingGrowthDivisor),
   ("ceiling_decay_divisor", .u64 p.ceilingDecayDivisor),
   ("base_fee_max_change_denominator", .u64 p.baseFeeMaxChangeDenominator),
   ("emission_decay_divisor", .u64 p.emissionDecayDivisor),
   ("target_block_seconds", .u64 p.targetBlockSeconds), ("epoch_length", .u64 p.epochLength),
   ("difficulty_window", .u64 p.difficultyWindow),
   ("difficulty_clamp_factor", .u64 p.difficultyClampFactor), ("undo_depth", .u64 p.undoDepth),
   ("coinbase_maturity", .u64 p.coinbaseMaturity)]

/-- The target from which on a block has no work. -/
def workCollapseTarget : U256 := ⟨2 ^ 255, by decide⟩

/-- The largest multiple of the sequential target that a ceiling is derived as. -/
def widest (p : Params) : UInt64 := if 2 * p.parGasRatio > 8 then 2 * p.parGasRatio else 8

/-- The check of the numbers against each other, after each of them is known to be positive. -/
def validateRelations (p : Params) : Except String Unit := do
  rejectIf (p.medianTimeBlocks % 2 = 0)
    "params: median_time_blocks must be odd so the median is unambiguous"
  rejectIf (p.randomXKeyLag ≥ p.randomXKeyInterval)
    ("params: randomx_key_lag (" ++ toString p.randomXKeyLag ++
      ") must be below randomx_key_interval (" ++ toString p.randomXKeyInterval ++ ")")
  rejectIf (p.randomXKeyInterval > 0xFFFFFFFFFFFFFFFF - p.randomXKeyLag)
    ("params: randomx_key_interval (" ++ toString p.randomXKeyInterval ++
      ") + randomx_key_lag (" ++ toString p.randomXKeyLag ++ ") must not overflow uint64")
  rejectIf (p.ttlMax < 2) "params: ttl_max must be at least 2"
  rejectIf (p.certListCapacity < p.maxCertsPerBlockGenesis)
    "params: cert_list_capacity must be at least max_certs_per_block_genesis"
  rejectIf (p.maxSigsPerBlockGenesis < p.maxSigs)
    ("params: max_sigs_per_block_genesis must be at least max_sigs, " ++
      "or a certificate carrying the maximum signature count is valid and " ++
      "unincludable in any block")
  rejectIf (p.seqGasCapacity < p.seqGasTargetGenesis)
    "params: seq_gas_capacity must be at least seq_gas_target_genesis"
  rejectIf (p.ceilingGrowthDivisor > p.seqGasTargetGenesis)
    ("params: ceiling_growth_divisor (" ++ toString p.ceilingGrowthDivisor ++
      ") must not exceed seq_gas_target_genesis (" ++ toString p.seqGasTargetGenesis ++ "), " ++
      "or the growth step t/ceiling_growth_divisor floors to zero at the target's " ++
      "genesis floor and the elastic ceiling can never rise")
  rejectIf (p.ceilingDecayDivisor > p.seqGasTargetGenesis)
    ("params: ceiling_decay_divisor (" ++ toString p.ceilingDecayDivisor ++
      ") must not exceed seq_gas_target_genesis (" ++ toString p.seqGasTargetGenesis ++ "), " ++
      "or the decay step t/ceiling_decay_divisor floors to zero across the target's " ++
      "range and the elastic ceiling can never fall")
  rejectIf (p.parGasRatio > 0xFFFFFFFFFFFFFFFF / 2)
    ("params: par_gas_ratio (" ++ toString p.parGasRatio ++
      ") is too large: 2*par_gas_ratio does not fit in uint64")
  rejectIf (p.seqGasCapacity > 0xFFFFFFFFFFFFFFFF / p.widest)
    ("params: seq_gas_capacity (" ++ toString p.seqGasCapacity ++
      ") is too large: the derived ceilings at that target do not fit in uint64")
  rejectIf (p.seqGasCapacity.toNat * p.blockByteLimitGenesis.toUInt64.toNat ≠
      p.seqGasTargetGenesis.toNat * p.blockByteCapacity.toUInt64.toNat)
    ("params: seq_gas_capacity and block_byte_capacity are not paired " ++
      "(seq_gas_capacity/seq_gas_target_genesis must equal " ++
      "block_byte_capacity/block_byte_limit_genesis); the gas ceiling and the byte " ++
      "ceiling must reach their walls together, or whichever binds later stops being priced")
  rejectIf (p.blockByteCapacity < p.blockByteLimitGenesis)
    "params: block_byte_capacity must be at least block_byte_limit_genesis"
  rejectIf (p.certListCapacity.toUInt64.toNat * p.seqGasTargetGenesis.toNat <
      p.maxCertsPerBlockGenesis.toUInt64.toNat * p.seqGasCapacity.toNat)
    ("params: cert_list_capacity (" ++ toString p.certListCapacity ++
      ") and seq_gas_capacity (" ++ toString p.seqGasCapacity ++ ") are not paired " ++
      "(cert_list_capacity * seq_gas_target_genesis must be at least " ++
      "max_certs_per_block_genesis * seq_gas_capacity); the scaled count ceiling " ++
      "max_certs_per_block_genesis * T / seq_gas_target_genesis must not reach " ++
      "cert_list_capacity for any T <= seq_gas_capacity, or the structural clamp " ++
      "binds inside the domain and the count wall arrives before the gas and byte " ++
      "walls instead of with them")
  rejectIf (p.healthGateBps > 10000) "params: health_gate_bps must not exceed 10000"
  rejectIf (p.initialSeqBaseFee < p.minBaseFee ∨ p.initialParBaseFee < p.minBaseFee)
    "params: initial base fees must be at least min_base_fee"
  rejectIf (p.genesisTarget > p.maxTarget) "params: genesis_target must not exceed max_target"
  rejectIf (¬ p.maxTarget < workCollapseTarget)
    ("params: max_target must be below 2^255, the target at which " ++
      "block work collapses to one and fork choice becomes a block count")
  rejectIf (p.tailEmission > p.genesisEmission)
    "params: tail_emission must not exceed genesis_emission"
  rejectIf (p.treasuryShareBps ≥ 10000)
    ("params: treasury_share_bps must be below 10000, or the " ++
      "burst valve's producer forfeiture has nothing to forfeit")
  rejectIf (p.h1VM < p.h1Bond)
    "params: the cEVM cannot activate before bonded underwriters exist"
  rejectIf (p.h2PoS < p.h1VM) "params: proof-of-stake cannot activate before phase 1"
  rejectIf (p.buildEmissionTable = none)
    ("params: emission_decay_divisor (" ++ toString p.emissionDecayDivisor ++
      ") does not decay genesis_emission to tail_emission within " ++
      toString maxEmissionEpochs ++ " epochs, so the schedule cannot be built")

/-- The check a node runs on loading its parameters. -/
def validate (p : Params) : Except String Unit := do
  rejectIf (p.name = "") "params: name must be set"
  rejectIf (p.powEngine = "") "params: pow_engine must be set"
  p.checkAllPositive
  checkPositive p.positiveInts
  checkPositive p.positiveUints
  p.validateRelations

/-! ## What a passed check says -/

/-- The facts about accepted parameters that the ledger rules rest on. -/
structure Valid (p : Params) : Prop where
  epochLength_pos : 0 < p.epochLength.toNat
  coinbaseMaturity_pos : 0 < p.coinbaseMaturity.toNat
  seqGasTargetGenesis_pos : 0 < p.seqGasTargetGenesis.toNat
  parGasRatio_pos : 0 < p.parGasRatio.toNat
  ceilingGrowthDivisor_pos : 0 < p.ceilingGrowthDivisor.toNat
  ceilingDecayDivisor_pos : 0 < p.ceilingDecayDivisor.toNat
  baseFeeDenominator_pos : 0 < p.baseFeeMaxChangeDenominator.toNat
  emissionDecayDivisor_pos : 0 < p.emissionDecayDivisor.toNat
  randomXKeyInterval_pos : 0 < p.randomXKeyInterval.toNat
  target_le_capacity : p.seqGasTargetGenesis.toNat ≤ p.seqGasCapacity.toNat
  capacity_burst : 8 * p.seqGasCapacity.toNat < 2 ^ 64
  capacity_parallel : 2 * p.parGasRatio.toNat * p.seqGasCapacity.toNat < 2 ^ 64
  healthGate_le : p.healthGateBps.toNat ≤ 10000
  seqBaseFee_ge : p.minBaseFee ≤ p.initialSeqBaseFee
  parBaseFee_ge : p.minBaseFee ≤ p.initialParBaseFee
  minBaseFee_pos : 0 < p.minBaseFee.toNat
  treasuryShare_lt : p.treasuryShareBps.toNat < 10000
  tail_le_genesis : p.tailEmission ≤ p.genesisEmission
  emissionTable_built : ∃ table, p.buildEmissionTable = some table

variable {fields : List (String × FieldValue)} {n : String} {v : Int64} {p : Params}

section

variable (h : checkPositive fields = .ok ())

include h

theorem not_positive_of_check {f : String × FieldValue} (hf : f ∈ fields) :
    f.2.notPositive = false := by
  unfold checkPositive at h
  split at h
  · simp at h
  · rename_i hnone
    simpa using List.find?_eq_none.mp hnone f hf

theorem u64_pos_of_check {v : UInt64} (hf : (n, .u64 v) ∈ fields) : 0 < v.toNat := by
  have hv := not_positive_of_check h hf
  simp only [FieldValue.notPositive, decide_eq_false_iff_not] at hv
  exact Nat.pos_of_ne_zero fun h0 => hv (UInt64.toNat_inj.mp h0)

theorem u256_pos_of_check {v : U256} (hf : (n, .u256 v) ∈ fields) : 0 < v.toNat := by
  have hv := not_positive_of_check h hf
  simp only [FieldValue.notPositive, isZero, decide_eq_false_iff_not] at hv
  exact to_nat_pos hv

theorem int_pos_of_check (hf : (n, .int v) ∈ fields) : 0 < v.toInt := by
  have hv := not_positive_of_check h hf
  simp only [FieldValue.notPositive, decide_eq_false_iff_not, Int64.le_iff_toInt_le, not_le] at hv
  exact hv

end

/-- The capacity check leaves room for every multiple the ceilings take. -/
theorem capacity_mul_widest (hratio : ¬ p.parGasRatio > 0xFFFFFFFFFFFFFFFF / 2)
    (hcap : ¬ p.seqGasCapacity > 0xFFFFFFFFFFFFFFFF / p.widest) :
    8 * p.seqGasCapacity.toNat < 2 ^ 64 ∧
      2 * p.parGasRatio.toNat * p.seqGasCapacity.toNat < 2 ^ 64 := by
  have hr : p.parGasRatio.toNat ≤ (2 ^ 64 - 1) / 2 := by
    simpa [lt_iff_toNat_lt] using hratio
  have h2 : (2 * p.parGasRatio).toNat = 2 * p.parGasRatio.toNat := by
    exact mod_eq_of_lt (by simp; omega)
  have hw : 8 ≤ p.widest.toNat ∧ 2 * p.parGasRatio.toNat ≤ p.widest.toNat := by
    unfold widest
    split_ifs with hgt
    · have hgt' : 8 < (2 * p.parGasRatio).toNat := hgt
      omega
    · have hle' : ¬ 8 < (2 * p.parGasRatio).toNat := hgt
      exact ⟨by decide, by have h8 : (8 : UInt64).toNat = 8 := rfl; omega⟩
  have hc : p.seqGasCapacity.toNat ≤ (2 ^ 64 - 1) / p.widest.toNat := by
    simpa [UInt64.lt_iff_toNat_lt, UInt64.toNat_div] using hcap
  have hprod : p.widest.toNat * p.seqGasCapacity.toNat ≤ 2 ^ 64 - 1 :=
    (mul_le_mul_left _ hc).trans (mul_div_le _ _)
  constructor
  · have := mul_le_mul_right p.seqGasCapacity.toNat hw.1
    omega
  · have := mul_le_mul_right p.seqGasCapacity.toNat hw.2
    omega

section

variable (h : p.validate = .ok ())

include h

/-- Accepted parameters are valid. -/
theorem valid_of_validate : p.Valid := by
  simp only [validate, validateRelations, seq_eq_ok, reject_if_eq_ok] at h
  obtain ⟨-, -, hall, -, -, -, -, -, -, -, -, hcap, -, -, hratio, hwide, -, -, -,
    hgate, hfees, -, -, htail, hshare, -, -, htable⟩ := h
  have h64 : ∀ (n : String) {v : UInt64}, (n, .u64 v) ∈ p.consensusFields → 0 < v.toNat :=
    fun _ _ hf => u64_pos_of_check hall hf
  rw [not_or, not_lt, not_lt] at hfees
  exact {
    epochLength_pos := h64 "epoch_length" (by simp [consensusFields])
    coinbaseMaturity_pos := h64 "coinbase_maturity" (by simp [consensusFields])
    seqGasTargetGenesis_pos := h64 "seq_gas_target_genesis" (by simp [consensusFields])
    parGasRatio_pos := h64 "par_gas_ratio" (by simp [consensusFields])
    ceilingGrowthDivisor_pos := h64 "ceiling_growth_divisor" (by simp [consensusFields])
    ceilingDecayDivisor_pos := h64 "ceiling_decay_divisor" (by simp [consensusFields])
    baseFeeDenominator_pos := h64 "base_fee_max_change_denominator" (by simp [consensusFields])
    emissionDecayDivisor_pos := h64 "emission_decay_divisor" (by simp [consensusFields])
    randomXKeyInterval_pos := h64 "randomx_key_interval" (by simp [consensusFields])
    target_le_capacity := by simpa [lt_iff_toNat_lt] using hcap
    capacity_burst := (capacity_mul_widest hratio hwide).1
    capacity_parallel := (capacity_mul_widest hratio hwide).2
    healthGate_le := by simpa [lt_iff_toNat_lt] using hgate
    seqBaseFee_ge := hfees.1
    parBaseFee_ge := hfees.2
    minBaseFee_pos := u256_pos_of_check (n := "min_base_fee") hall (by simp [consensusFields])
    treasuryShare_lt := by simpa [le_iff_toNat_le] using hshare
    tail_le_genesis := not_lt.mp htail
    emissionTable_built := Option.ne_none_iff_exists'.mp htable }

theorem int_pos_of_validate (hf : (n, .int v) ∈ p.consensusFields) : 0 < v.toInt := by
  simp only [validate, validateRelations, seq_eq_ok] at h
  obtain ⟨-, -, hall, -⟩ := h
  exact int_pos_of_check hall hf

theorem cert_list_capacity_pos : 0 < p.certListCapacity.toInt :=
  int_pos_of_validate (n := "cert_list_capacity") h (by simp [consensusFields])

end

/-! ## The ceilings as numbers -/

/-- A scaled ceiling as a number. -/
def scaledNat (p : Params) (t : UInt64) (genesis : Int64) : ℕ :=
  genesis.toUInt64.toNat * t.toNat / p.seqGasTargetGenesis.toNat

theorem scaled_eq (p : Params) (t : UInt64) (genesis : Int64) :
    p.scaled t genesis =
      (UInt64.ofNat (p.scaledNat t genesis), decide (p.scaledNat t genesis < 2 ^ 64)) := by
  have hg := genesis.toUInt64.toNat_lt
  have ht := t.toNat_lt
  have hq : p.scaledNat t genesis < 2 ^ 256 := by
    calc p.scaledNat t genesis ≤ genesis.toUInt64.toNat * t.toNat := div_le_self _ _
      _ ≤ 2 ^ 64 * 2 ^ 64 := Nat.mul_le_mul hg.le ht.le
      _ < 2 ^ 256 := by decide
  have hdiv : ((fromUint64 genesis.toUInt64).mulDiv64 t p.seqGasTargetGenesis).toNat =
      p.scaledNat t genesis := by
    exact congrArg U256.toNat (dif_pos hq)
  simp only [scaled, uint64, hdiv]

theorem to_nat_of_nonneg {v : Int64} (h : 0 ≤ v.toInt) : (v.toUInt64.toNat : ℤ) = v.toInt := by
  have hbits := BitVec.toInt_eq_toNat_cond v.toBitVec
  change v.toInt = _ at hbits
  have hword : v.toUInt64.toNat = v.toBitVec.toNat := rfl
  split at hbits <;> omega

theorem to_int_of_small {u : UInt64} (h : u.toNat < 2 ^ 63) : u.toInt64.toInt = u.toNat :=
  BitVec.toInt_eq_toNat_of_lt (show 2 * u.toNat < 2 ^ 64 by omega)

/-- The clamp of a quotient is its minimum with the cap. -/
theorem to_int_clamped {cap : Int64} (hcap : 0 < cap.toInt) (q : ℕ) :
    (if !decide (q < 2 ^ 64) || UInt64.ofNat q > cap.toUInt64 then cap
      else (UInt64.ofNat q).toInt64).toInt = min (q : ℤ) cap.toInt := by
  have hword := to_nat_of_nonneg hcap.le
  have hlt := cap.toInt_lt
  by_cases hq : q < 2 ^ 64
  · have hofNat : (UInt64.ofNat q).toNat = q := UInt64.toNat_ofNat_of_lt' hq
    by_cases hover : UInt64.ofNat q > cap.toUInt64
    · rw [if_pos (by simp [hover])]
      rw [gt_iff_lt, UInt64.lt_iff_toNat_lt] at hover
      omega
    · rw [if_neg (by rw [decide_eq_true hq]; simpa using hover)]
      rw [gt_iff_lt, UInt64.lt_iff_toNat_lt] at hover
      rw [to_int_of_small (by omega)]
      omega
  · rw [if_pos (by rw [decide_eq_false hq]; rfl)]
    omega

theorem to_int_max_certs (h : 0 < p.certListCapacity.toInt) (t : UInt64) :
    (p.maxCertsPerBlock t).toInt =
      min (p.scaledNat t p.maxCertsPerBlockGenesis : ℤ) p.certListCapacity.toInt := by
  simp only [maxCertsPerBlock, scaled_eq]
  exact to_int_clamped h _

theorem to_int_byte_limit (h : 0 < p.blockByteCapacity.toInt) (t : UInt64) :
    (p.blockByteLimit t).toInt =
      min (p.scaledNat t p.blockByteLimitGenesis : ℤ) p.blockByteCapacity.toInt := by
  simp only [blockByteLimit, scaled_eq]
  exact to_int_clamped h _

theorem max_certs_le_capacity (h : 0 < p.certListCapacity.toInt) (t : UInt64) :
    (p.maxCertsPerBlock t).toInt ≤ p.certListCapacity.toInt := by
  rw [to_int_max_certs h]
  exact min_le_right _ _

theorem block_byte_limit_mono (h : 0 < p.blockByteCapacity.toInt) {t t' : UInt64}
    (ht : t.toNat ≤ t'.toNat) : (p.blockByteLimit t).toInt ≤ (p.blockByteLimit t').toInt := by
  have hscaled : p.scaledNat t p.blockByteLimitGenesis ≤ p.scaledNat t' p.blockByteLimitGenesis :=
    Nat.div_le_div_right (Nat.mul_le_mul_left _ ht)
  rw [to_int_byte_limit h, to_int_byte_limit h]
  omega

end Zycord.Params
