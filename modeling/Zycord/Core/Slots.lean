import Zycord.Core.Types

/-!
# The storage layout

Which cell holds what (`core/types/slots.go`). Every storage word is a domain-separated hash of a
label; `WordLabel` lists the purposes a word can have and `storageWord` computes the word of each.
That no two purposes share a cell is a property of the hash: `WordsDistinct`.
-/

namespace Zycord

/-- The native asset. -/
def nativeAsset : Address := 0

/-- The purposes of storage words. -/
inductive WordLabel where
  | spent
  | balance (asset : Address)
  | assetCap | assetDecimals | assetSymbol | assetMinter | assetMinted
  | beaconEpoch | beaconHeight | beaconEntropy
  | seqBaseFee | parBaseFee
  | seqGasTarget | citedCount | prevParentID | prevTarget
  | appliedGasSample (index : UInt64)
  | coinbaseAddr (index : UInt64)
  | coinbaseAmount (index : UInt64)
deriving DecidableEq

/-- An address that names an asset. -/
def IsAssetID (a : Address) : Prop := a = nativeAsset ∨ a.version = Crypto.addrVersionAsset

/-- Naming an asset can be decided. -/
instance (a : Address) : Decidable (IsAssetID a) := inferInstanceAs (Decidable (_ ∨ _))

theorem native_is_asset_id : IsAssetID nativeAsset := Or.inl rfl

/-- A label the protocol uses: balances are only kept for asset ids. -/
def WordLabel.Proper : WordLabel → Prop
  | balance asset => IsAssetID asset
  | _ => True

section

variable [Crypto]

/-- The storage word of a label. -/
def word (tag : Tag) (label : String) : Word := Crypto.sum tag (textBytes label)

/-- The storage word of a label with an index. -/
def indexedWord (label : String) (index : UInt64) : Word :=
  Crypto.sum .protocolWord (textBytes label ++ Ssz.uint64 index)

/-- The storage word of each purpose. The all-zero word belongs to no value. -/
def storageWord : WordLabel → Word
  | .spent => 0
  | .balance asset => Crypto.sum .balanceWord asset.bytes
  | .assetCap => word .assetWord "cap"
  | .assetDecimals => word .assetWord "decimals"
  | .assetSymbol => word .assetWord "symbol"
  | .assetMinter => word .assetWord "minter"
  | .assetMinted => word .assetWord "minted"
  | .beaconEpoch => word .beaconWord "epoch"
  | .beaconHeight => word .beaconWord "height"
  | .beaconEntropy => word .beaconWord "entropy"
  | .seqBaseFee => word .protocolWord "seq_base_fee"
  | .parBaseFee => word .protocolWord "par_base_fee"
  | .seqGasTarget => word .protocolWord "seq_gas_target"
  | .citedCount => word .protocolWord "cited_count"
  | .prevParentID => word .protocolWord "prev_parent_id"
  | .prevTarget => word .protocolWord "prev_target"
  | .appliedGasSample index => indexedWord "applied_gas_sample" index
  | .coinbaseAddr index => indexedWord "coinbase_addr" index
  | .coinbaseAmount index => indexedWord "coinbase_amount" index

/-- No two purposes share a storage word. -/
def WordsDistinct : Prop := Set.InjOn storageWord {l | l.Proper}

/-! ## Slots -/

/-- The word of a balance. -/
def balanceWord (asset : Address) : Word := storageWord (.balance asset)

/-- The cell of a balance. -/
def balanceSlot (holder asset : Address) : Slot := ⟨holder, balanceWord asset⟩

/-- The cell of a native balance. -/
def nativeBalanceSlot (holder : Address) : Slot := balanceSlot holder nativeAsset

/-- Whether a cell is a native balance. -/
def isNativeBalanceSlot (s : Slot) : Bool := s.word = balanceWord nativeAsset

/-- The cell the treasury share accrues into. -/
def treasurySlot : Slot := nativeBalanceSlot protocolAddress

theorem treasury_slot_word : treasurySlot.word = balanceWord nativeAsset := rfl

/-- The cell by which an address is burned. -/
def spentSlot (a : Address) : Slot := ⟨a, storageWord .spent⟩

/-- The cell of an asset's cap. -/
def assetCapSlot (asset : Address) : Slot := ⟨asset, storageWord .assetCap⟩

/-- The cell of an asset's decimals. -/
def assetDecimalsSlot (asset : Address) : Slot := ⟨asset, storageWord .assetDecimals⟩

/-- The cell of an asset's symbol. -/
def assetSymbolSlot (asset : Address) : Slot := ⟨asset, storageWord .assetSymbol⟩

/-- The cell of an asset's minter. -/
def assetMinterSlot (asset : Address) : Slot := ⟨asset, storageWord .assetMinter⟩

/-- The cell of what was minted. -/
def assetMintedSlot (asset : Address) : Slot := ⟨asset, storageWord .assetMinted⟩

/-- A cell of the protocol. -/
def protocolSlot (label : WordLabel) : Slot := ⟨protocolAddress, storageWord label⟩

/-- The cell holding the current epoch number. -/
def beaconEpochSlot : Slot := protocolSlot .beaconEpoch

/-- The cell holding the height at which the current epoch began. -/
def beaconHeightSlot : Slot := protocolSlot .beaconHeight

/-- The cell holding the epoch's entropy. -/
def beaconEntropySlot : Slot := protocolSlot .beaconEntropy

/-- The sequential base fee. -/
def seqBaseFeeSlot : Slot := protocolSlot .seqBaseFee

/-- The parallel base fee. -/
def parBaseFeeSlot : Slot := protocolSlot .parBaseFee

/-- The sequential gas target. -/
def seqGasTargetSlot : Slot := protocolSlot .seqGasTarget

/-- The cell counting the headers cited in the current epoch. -/
def citedCountSlot : Slot := protocolSlot .citedCount

/-- The last block's parent. -/
def prevParentIDSlot : Slot := protocolSlot .prevParentID

/-- The cell holding the previous block's difficulty target. -/
def prevTargetSlot : Slot := protocolSlot .prevTarget

/-- The cell holding one epoch position's applied sequential gas. -/
def appliedGasSampleSlot (index : UInt64) : Slot := protocolSlot (.appliedGasSample index)

/-- The cell holding the payout address of the pending reward at a ring index. -/
def pendingCoinbaseAddrSlot (index : UInt64) : Slot := protocolSlot (.coinbaseAddr index)

/-- What waits in a cell of the coinbase ring. -/
def pendingCoinbaseAmountSlot (index : UInt64) : Slot := protocolSlot (.coinbaseAmount index)

/-- The address of an issued asset. -/
def deriveAssetAddress (chainID : UInt64) (issuer : Address) (seq : UInt64) : Address :=
  deriveAddress Crypto.addrVersionAsset
    (Ssz.uint64 chainID ++ issuer.bytes ++ Ssz.uint64 seq)

/-! ## Distinct cells -/

variable {l m : WordLabel}

section

variable (hw : WordsDistinct)

include hw

theorem WordsDistinct.eq_iff (h : l.Proper) (h' : m.Proper) :
    storageWord l = storageWord m ↔ l = m := Set.InjOn.eq_iff hw h h'

theorem WordsDistinct.ne (h : l.Proper) (h' : m.Proper) (hne : l ≠ m) :
    storageWord l ≠ storageWord m :=
  fun heq => hne ((hw.eq_iff h h').mp heq)

theorem WordsDistinct.protocol_slot_eq_iff (h : l.Proper) (h' : m.Proper) :
    protocolSlot l = protocolSlot m ↔ l = m := by
  simp [protocolSlot, hw.eq_iff h h']

theorem WordsDistinct.balance_word_eq_iff {a b : Address} (ha : IsAssetID a) (hb : IsAssetID b) :
    balanceWord a = balanceWord b ↔ a = b := by
  simp [balanceWord, hw.eq_iff (l := .balance a) (m := .balance b) ha hb]

theorem WordsDistinct.balance_word_ne {a : Address} (ha : IsAssetID a) (h : l.Proper)
    (hne : ∀ b, l ≠ .balance b) : balanceWord a ≠ storageWord l := hw.ne ha h (Ne.symm (hne a))

end

@[simp] theorem version_derive_asset_address (chainID seq : UInt64) (issuer : Address) :
    (deriveAssetAddress chainID issuer seq).version = Crypto.addrVersionAsset :=
  version_derive_address _ _

end

end Zycord
