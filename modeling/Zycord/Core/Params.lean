import Zycord.Core.Ssz

/-!
# The genesis parameter set

Package `core/params`: the parameters themselves, the ceilings and schedules computed from them,
the check `validate` that a node runs on loading them and the commitment `consensusRoot` to
their values. A Go `int` is an `Int64`. The source caches the emission table in the structure;
here it is recomputed from the fields.
-/

namespace Zycord

/-- The complete genesis parameter set. The prose notes, which no rule reads, are left out. -/
structure Params where
  name : String
  chainID : UInt64
  maxReads : Int64
  maxWrites : Int64
  maxSigs : Int64
  maxMovesPerTransfer : Int64
  maxRetireAddrs : Int64
  ttlMax : UInt64
  seqGasTargetGenesis : UInt64
  parGasRatio : UInt64
  maxCertsPerBlockGenesis : Int64
  blockByteLimitGenesis : Int64
  maxSigsPerBlockGenesis : Int64
  certListCapacity : Int64
  blockByteCapacity : Int64
  seqGasCapacity : UInt64
  maxCitesPerBlock : Int64
  ceilingGrowthDivisor : UInt64
  ceilingDecayDivisor : UInt64
  healthGateBps : UInt64
  gasSeqPerRead : UInt64
  gasSeqPerWrite : UInt64
  gasSeqPerRegistryInsert : UInt64
  gasSeqPerSeenInsert : UInt64
  gasParPerSig : UInt64
  gasParPerByte : UInt64
  gasParPerDeriveUnit : UInt64
  initialSeqBaseFee : U256
  initialParBaseFee : U256
  minBaseFee : U256
  baseFeeMaxChangeDenominator : UInt64
  skipFee : U256
  genesisEmission : U256
  tailEmission : U256
  emissionDecayDivisor : UInt64
  coinbaseMaturity : UInt64
  treasuryShareBps : UInt64
  targetBlockSeconds : UInt64
  epochLength : UInt64
  difficultyWindow : UInt64
  difficultyClampFactor : UInt64
  medianTimeBlocks : Int64
  futureTimeLimitSeconds : UInt64
  undoDepth : UInt64
  powEngine : String
  randomXKeyInterval : UInt64
  randomXKeyLag : UInt64
  genesisTarget : U256
  maxTarget : U256
  genesisTime : UInt64
  h1Bond : UInt64
  h1VM : UInt64
  h2PoS : UInt64

namespace Params

/-! ## Ceilings that follow the sequential target -/

section Ceilings

variable (p : Params) (t : UInt64)

/-- The sequential ceiling at target `t`. -/
def seqGasLimit (_p : Params) (t : UInt64) : UInt64 := 2 * t

/-- The burst bound at target `t`. -/
def seqGasBurst (_p : Params) (t : UInt64) : UInt64 := 4 * t

/-- The parallel ceiling at target `t`. -/
def parGasLimit : UInt64 := p.parGasRatio * p.seqGasLimit t

/-- The parallel target that goes with a sequential one. -/
def parGasTarget : UInt64 := p.parGasRatio * t

/-- A genesis ceiling scaled with the target: the low word and whether it fits in one. -/
def scaled (genesis : Int64) : UInt64 × Bool :=
  ((U256.fromUint64 genesis.toUInt64).mulDiv64 t p.seqGasTargetGenesis).uint64

/-- The certificate ceiling. -/
def maxCertsPerBlock : Int64 :=
  let v := p.scaled t p.maxCertsPerBlockGenesis
  if !v.2 || v.1 > p.certListCapacity.toUInt64 then p.certListCapacity else v.1.toInt64

/-- The signature-count ceiling. -/
def maxSigsPerBlock : UInt64 :=
  let v := p.scaled t p.maxSigsPerBlockGenesis
  if !v.2 then 0xFFFFFFFFFFFFFFFF else v.1

/-- The byte ceiling. -/
def blockByteLimit : Int64 :=
  let v := p.scaled t p.blockByteLimitGenesis
  if !v.2 || v.1 > p.blockByteCapacity.toUInt64 then p.blockByteCapacity else v.1.toInt64

/-- The epoch controller: twice the median applied gas, clamped to the step bounds, then to the
capacity, then to the genesis floor. -/
def nextSeqGasTarget (medianApplied2x : UInt64) (healthy : Bool) : UInt64 :=
  let lo := t - t / p.ceilingDecayDivisor
  let hi := if healthy then t + t / p.ceilingGrowthDivisor else t
  let next := medianApplied2x
  let next := if next < lo then lo else next
  let next := if next > hi then hi else next
  let next := if next > p.seqGasCapacity then p.seqGasCapacity else next
  if next < p.seqGasTargetGenesis then p.seqGasTargetGenesis else next

end Ceilings

variable (p : Params)

/-- Whether an epoch begins at a height. -/
def isEpochBoundary (height : UInt64) : Bool := height % p.epochLength = 0

/-- The epoch of a height. -/
def epoch (height : UInt64) : UInt64 := height / p.epochLength

/-! ## Emission -/

/-- The longest emission table `buildEmissionTable` is willing to build. -/
def maxEmissionEpochs : ℕ := 2 ^ 20

/-- The rate of the epoch after one that pays `e`. -/
def decayStep (e : U256) : U256 :=
  let step := (e.div64 p.emissionDecayDivisor).1
  let step := if step.isZero then 1 else step
  let e := e.satSub step
  if e < p.tailEmission then p.tailEmission else e

/-- The table loop of `buildEmissionTable`: extend the table until the rate is down to the
tail, or give up. -/
def emissionLoop : ℕ → U256 → List U256 → Option (List U256)
  | 0, _, _ => none
  | fuel + 1, e, table =>
    if e > p.tailEmission then
      if table.length ≥ maxEmissionEpochs then none
      else emissionLoop fuel (p.decayStep e) (table ++ [p.decayStep e])
    else some table

/-- The per-epoch rates down to the tail, if the decay gets there. -/
def buildEmissionTable : Option (List U256) :=
  p.emissionLoop maxEmissionEpochs p.genesisEmission [p.genesisEmission]

/-- The table the schedule reads; a table that could not be built reads as empty. -/
def emissionTable : List U256 := p.buildEmissionTable.getD []

/-- What a block at a height emits. -/
def emission (height : UInt64) : U256 :=
  if height = 0 then 0
  else p.emissionTable.getD (p.epoch height).toNat p.tailEmission

/-- What the first table entry pays per block times its blocks, and so on: entry `i + 1` is the
total through epoch `i`, saturating. Block 0 pays nothing. -/
def cumulativeLoop : List U256 → Bool → U256 → List U256
  | [], _, _ => []
  | rate :: rest, first, acc =>
    let blocks := if first then (if p.epochLength > 0 then p.epochLength - 1 else 0)
      else p.epochLength
    let paid := rate.mul (U256.fromUint64 blocks)
    let acc := acc.satAdd (if paid.2 then U256.max else paid.1)
    acc :: cumulativeLoop rest false acc

/-- The totals paid before each epoch of the table, and after its last. -/
def cumulativeTable : List U256 :=
  match p.buildEmissionTable with
  | none => []
  | some table => 0 :: p.cumulativeLoop table true 0

/-- The total coinbase paid through a height, saturating. -/
def cumulativeEmission (height : UInt64) : U256 :=
  if p.epochLength = 0 then U256.max
  else
    let epoch := height / p.epochLength
    let within := height % p.epochLength
    let n := UInt64.ofNat p.emissionTable.length
    -- `none` where the source returns the saturated value early
    let paid : Option (U256 × U256) :=
      if epoch < n then
        some (p.cumulativeTable.getD epoch.toNat 0, p.emissionTable.getD epoch.toNat 0)
      else
        let total := if n > 0 then p.cumulativeTable.getD n.toNat 0 else 0
        let blocks := (U256.fromUint64 (epoch - n)).mul (U256.fromUint64 p.epochLength)
        if blocks.2 then none
        else
          let blocks := if n = 0 && epoch > 0 then blocks.1.satSub 1 else blocks.1
          let paid := p.tailEmission.mul blocks
          if paid.2 then none else some (total.satAdd paid.1, p.tailEmission)
    match paid with
    | none => U256.max
    | some (total, rate) =>
      let blocks := if epoch > 0 then within + 1 else within
      let part := rate.mul (U256.fromUint64 blocks)
      if part.2 then U256.max else total.satAdd part.1

/-! ## Fee markets -/

/-- The next base fee of one market. -/
def nextBaseFee (base : U256) (gasUsed gasTarget : UInt64) : U256 :=
  if gasTarget = 0 || gasUsed = gasTarget then U256.maxOf base p.minBaseFee
  else if gasUsed > gasTarget then
    let delta := base.mulDiv64 (gasUsed - gasTarget) gasTarget
    let delta := (delta.div64 p.baseFeeMaxChangeDenominator).1
    let delta := if delta.isZero then 1 else delta
    base.satAdd delta
  else
    let delta := base.mulDiv64 (gasTarget - gasUsed) gasTarget
    let delta := (delta.div64 p.baseFeeMaxChangeDenominator).1
    U256.maxOf (base.satSub delta) p.minBaseFee

/-! ## Commitment to the values -/

/-- A parameter value, by its type. -/
inductive FieldValue where
  | u64 (v : UInt64)
  | int (v : Int64)
  | u256 (v : U256)
  | str (v : String)

/-- A field's type code and bytes. -/
def FieldValue.encoding : FieldValue → UInt8 × Bytes
  | u64 v => (1, Ssz.uint64 v)
  | int v => (2, Ssz.uint64 v.toUInt64)
  | u256 v => (3, v.bytes32.bytes)
  | str v => (4, textBytes v)

/-- Whether a field that has to be positive is not. -/
def FieldValue.notPositive : FieldValue → Bool
  | u64 v => v = 0
  | int v => v ≤ 0
  | u256 v => v.isZero
  | str _ => false

/-- Every consensus parameter under the name its file gives it, in declaration order. -/
def consensusFields : List (String × FieldValue) :=
  [("name", .str p.name), ("chain_id", .u64 p.chainID), ("max_reads", .int p.maxReads),
   ("max_writes", .int p.maxWrites), ("max_sigs", .int p.maxSigs),
   ("max_moves_per_transfer", .int p.maxMovesPerTransfer),
   ("max_retire_addrs", .int p.maxRetireAddrs), ("ttl_max", .u64 p.ttlMax),
   ("seq_gas_target_genesis", .u64 p.seqGasTargetGenesis), ("par_gas_ratio", .u64 p.parGasRatio),
   ("max_certs_per_block_genesis", .int p.maxCertsPerBlockGenesis),
   ("block_byte_limit_genesis", .int p.blockByteLimitGenesis),
   ("max_sigs_per_block_genesis", .int p.maxSigsPerBlockGenesis),
   ("cert_list_capacity", .int p.certListCapacity),
   ("block_byte_capacity", .int p.blockByteCapacity), ("seq_gas_capacity", .u64 p.seqGasCapacity),
   ("max_cites_per_block", .int p.maxCitesPerBlock),
   ("ceiling_growth_divisor", .u64 p.ceilingGrowthDivisor),
   ("ceiling_decay_divisor", .u64 p.ceilingDecayDivisor),
   ("health_gate_bps", .u64 p.healthGateBps), ("gas_seq_per_read", .u64 p.gasSeqPerRead),
   ("gas_seq_per_write", .u64 p.gasSeqPerWrite),
   ("gas_seq_per_registry_insert", .u64 p.gasSeqPerRegistryInsert),
   ("gas_seq_per_seen_insert", .u64 p.gasSeqPerSeenInsert),
   ("gas_par_per_sig", .u64 p.gasParPerSig), ("gas_par_per_byte", .u64 p.gasParPerByte),
   ("gas_par_per_derive_unit", .u64 p.gasParPerDeriveUnit),
   ("initial_seq_base_fee", .u256 p.initialSeqBaseFee),
   ("initial_par_base_fee", .u256 p.initialParBaseFee), ("min_base_fee", .u256 p.minBaseFee),
   ("base_fee_max_change_denominator", .u64 p.baseFeeMaxChangeDenominator),
   ("skip_fee", .u256 p.skipFee), ("genesis_emission", .u256 p.genesisEmission),
   ("tail_emission", .u256 p.tailEmission),
   ("emission_decay_divisor", .u64 p.emissionDecayDivisor),
   ("coinbase_maturity", .u64 p.coinbaseMaturity), ("treasury_share_bps", .u64 p.treasuryShareBps),
   ("target_block_seconds", .u64 p.targetBlockSeconds), ("epoch_length", .u64 p.epochLength),
   ("difficulty_window", .u64 p.difficultyWindow),
   ("difficulty_clamp_factor", .u64 p.difficultyClampFactor),
   ("median_time_blocks", .int p.medianTimeBlocks),
   ("future_time_limit_seconds", .u64 p.futureTimeLimitSeconds), ("undo_depth", .u64 p.undoDepth),
   ("pow_engine", .str p.powEngine), ("randomx_key_interval", .u64 p.randomXKeyInterval),
   ("randomx_key_lag", .u64 p.randomXKeyLag), ("genesis_target", .u256 p.genesisTarget),
   ("max_target", .u256 p.maxTarget), ("genesis_time", .u64 p.genesisTime),
   ("h1_bond", .u64 p.h1Bond), ("h1_vm", .u64 p.h1VM), ("h2_pos", .u64 p.h2PoS)]

/-- Bytes with their length in front. -/
def lenPrefixed (b : Bytes) : Bytes := Ssz.uint64 (UInt64.ofNat b.length) ++ b

/-- The commitment to every consensus parameter, by value. -/
def consensusRoot [Crypto] : Hash :=
  Crypto.sum .consensusRoot (p.consensusFields.flatMap fun f =>
    lenPrefixed (textBytes f.1) ++ [f.2.encoding.1] ++ lenPrefixed f.2.encoding.2)

end Params

end Zycord
