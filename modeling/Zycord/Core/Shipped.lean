import Zycord.Core.Params

/-!
# The shipped parameter sets

The parameters of the networks, as their files give them: `spec/params.json`,
`spec/params.testnet.json`, `spec/params.devnet.json` and
`docs/localnet/params.randomx-localnet.json`.
-/

namespace Zycord.Shipped

/-- The main network. -/
def mainnet : Params where
  name := "zycord"
  chainID := 1
  maxReads := 64
  maxWrites := 64
  maxSigs := 16
  maxMovesPerTransfer := 32
  maxRetireAddrs := 64
  ttlMax := 240
  seqGasTargetGenesis := 1600000
  parGasRatio := 3
  maxCertsPerBlockGenesis := 4000
  blockByteLimitGenesis := 2500000
  maxSigsPerBlockGenesis := 6000
  certListCapacity := 33554432
  blockByteCapacity := 8000000
  seqGasCapacity := 5120000
  maxCitesPerBlock := 4
  ceilingGrowthDivisor := 512
  ceilingDecayDivisor := 1024
  healthGateBps := 200
  gasSeqPerRead := 100
  gasSeqPerWrite := 200
  gasSeqPerRegistryInsert := 500
  gasSeqPerSeenInsert := 100
  gasParPerSig := 200
  gasParPerByte := 2
  gasParPerDeriveUnit := 50
  initialSeqBaseFee := .ofNat 1000
  initialParBaseFee := .ofNat 10
  minBaseFee := .ofNat 1
  baseFeeMaxChangeDenominator := 8
  skipFee := .ofNat 1000000
  genesisEmission := .ofNat 2100000000
  tailEmission := .ofNat 33000000
  emissionDecayDivisor := 1054
  coinbaseMaturity := 100
  treasuryShareBps := 300
  targetBlockSeconds := 30
  epochLength := 2880
  difficultyWindow := 90
  difficultyClampFactor := 16
  medianTimeBlocks := 11
  futureTimeLimitSeconds := 180
  undoDepth := 1024
  powEngine := "randomx-v2"
  randomXKeyInterval := 2048
  randomXKeyLag := 64
  genesisTarget := .ofNat (2 ^ 238)
  maxTarget := .ofNat (2 ^ 250)
  genesisTime := 1789430400
  h1Bond := 525600
  h1VM := 552960
  h2PoS := 1576800

/-- The parameters of the test network. -/
def testnet : Params :=
  { mainnet with
    name := "zycord-testnet"
    chainID := 2
    randomXKeyInterval := 512
    genesisTarget := .ofNat (2 ^ 246)
    maxTarget := .ofNat (2 ^ 252)
    genesisTime := 1788526800 }

/-- The development network. -/
def devnet : Params :=
  { mainnet with
    name := "zycord-devnet"
    chainID := 1337
    ttlMax := 32
    maxCertsPerBlockGenesis := 256
    maxSigsPerBlockGenesis := 384
    coinbaseMaturity := 10
    targetBlockSeconds := 5
    epochLength := 64
    undoDepth := 128
    powEngine := "dev-blake3"
    randomXKeyInterval := 64
    randomXKeyLag := 8
    genesisTarget := .ofNat (2 ^ 248)
    maxTarget := .ofNat (2 ^ 251)
    genesisTime := 1767225600
    h1Bond := 100000
    h1VM := 110000
    h2PoS := 200000 }

/-- The local network with the hash of the main one. -/
def localnet : Params :=
  { devnet with
    name := "zycord-randomx-localnet"
    powEngine := "randomx-v2"
    randomXKeyInterval := 16
    randomXKeyLag := 2 }

/-- All of them. -/
def sets : List Params := [mainnet, testnet, devnet, localnet]

end Zycord.Shipped
