import Zycord.Core.Slots

/-!
# A reference instance of the primitives

A hash that is only good enough to run the rules with: it reads its payload as a number and puts
a tag-dependent offset in front. Its purpose is to show that what the development assumes of the
hash can be met (`Reference.words_distinct`) and to let blocks be executed.
-/

namespace Zycord.Reference

open Bytes32 Nat Ssz ByteString

theorem mod_size_lt (n : ℕ) : n % 2 ^ 256 < 2 ^ 256 := mod_lt _ size_pos

/-- A number as a hash. -/
def digest (n : ℕ) : Hash := ⟨n % 2 ^ 256, mod_size_lt n⟩

/-- The region of the digests that the words of a tag lie in. -/
def region : Tag → ℕ
  | .balanceWord => 0x10 * 2 ^ 248
  | .assetWord => 0x20 * 2 ^ 248
  | .beaconWord => 0x21 * 2 ^ 248
  | .protocolWord => 0x22 * 2 ^ 248
  | .cert => 1
  | .certID => 2
  | .certBody => 3
  | .block => 4
  | .sig => 5
  | .sszNode => 6
  | .stateCell => 7
  | .stateSpent => 8
  | .stateRoot => 9
  | .consensusRoot => 10
  | .pow => 11
  | .powKey => 12
  | .addr => 0

/-- The reference hash. Balance words keep the whole asset id, the other words their label and
index; addresses and digests of longer payloads are reduced modulo a prime. The commitment to the
parameters is a constant: a chain runs under one set of them. -/
def sum (tag : Tag) (payload : Bytes) : Hash :=
  match tag with
  | .balanceWord => digest (region tag + bigEndianNat payload)
  | .assetWord | .beaconWord | .protocolWord => digest (region tag + littleEndianNat payload)
  | .consensusRoot => digest (region tag)
  | .addr => digest (littleEndianNat payload % (2 ^ 247 - 309) * 2 ^ 8)
  | _ => digest ((region tag + 256 * littleEndianNat payload) % (2 ^ 256 - 189))

/-- The reference primitives: a signature is the key written down. -/
@[reducible] def crypto : Crypto where
  sum := sum
  verifyStrict key _ sig := sig.r = key

/-! ## Storage words do not collide -/

theorem little_endian_nat_uint64 (v : UInt64) : littleEndianNat (uint64 v) = v.toNat := by
  have hv := v.toNat_lt
  rw [uint64, littleEndian, little_endian_nat_bytes]
  exact mod_eq_of_lt (by simpa using hv)

/-- The number of a storage word. -/
def wordNat : WordLabel → ℕ
  | .spent => 0
  | .balance asset => region .balanceWord + asset.toNat
  | .assetCap => region .assetWord + littleEndianNat (textBytes "cap")
  | .assetDecimals => region .assetWord + littleEndianNat (textBytes "decimals")
  | .assetSymbol => region .assetWord + littleEndianNat (textBytes "symbol")
  | .assetMinter => region .assetWord + littleEndianNat (textBytes "minter")
  | .assetMinted => region .assetWord + littleEndianNat (textBytes "minted")
  | .beaconEpoch => region .beaconWord + littleEndianNat (textBytes "epoch")
  | .beaconHeight => region .beaconWord + littleEndianNat (textBytes "height")
  | .beaconEntropy => region .beaconWord + littleEndianNat (textBytes "entropy")
  | .seqBaseFee => region .protocolWord + littleEndianNat (textBytes "seq_base_fee")
  | .parBaseFee => region .protocolWord + littleEndianNat (textBytes "par_base_fee")
  | .seqGasTarget => region .protocolWord + littleEndianNat (textBytes "seq_gas_target")
  | .citedCount => region .protocolWord + littleEndianNat (textBytes "cited_count")
  | .prevParentID => region .protocolWord + littleEndianNat (textBytes "prev_parent_id")
  | .prevTarget => region .protocolWord + littleEndianNat (textBytes "prev_target")
  | .appliedGasSample i =>
    region .protocolWord + (littleEndianNat (textBytes "applied_gas_sample") + 256 ^ 18 * i.toNat)
  | .coinbaseAddr i =>
    region .protocolWord + (littleEndianNat (textBytes "coinbase_addr") + 256 ^ 13 * i.toNat)
  | .coinbaseAmount i =>
    region .protocolWord + (littleEndianNat (textBytes "coinbase_amount") + 256 ^ 15 * i.toNat)

/-- The label of a word above the balance region: the first eleven bytes of the texts are all
different, and an index stands behind its text. -/
def labels : List (String × (ℕ → WordLabel)) :=
  [("cap", fun _ => .assetCap), ("decimals", fun _ => .assetDecimals),
   ("symbol", fun _ => .assetSymbol), ("minter", fun _ => .assetMinter),
   ("minted", fun _ => .assetMinted), ("epoch", fun _ => .beaconEpoch),
   ("height", fun _ => .beaconHeight), ("entropy", fun _ => .beaconEntropy),
   ("seq_base_fee", fun _ => .seqBaseFee), ("par_base_fee", fun _ => .parBaseFee),
   ("seq_gas_target", fun _ => .seqGasTarget), ("cited_count", fun _ => .citedCount),
   ("prev_parent_id", fun _ => .prevParentID), ("prev_target", fun _ => .prevTarget),
   ("applied_gas_sample", fun n => .appliedGasSample (.ofNat (n / 256 ^ 18))),
   ("coinbase_addr", fun n => .coinbaseAddr (.ofNat (n / 256 ^ 13))),
   ("coinbase_amount", fun n => .coinbaseAmount (.ofNat (n / 256 ^ 15)))]

/-- The label of a text, given as a number. -/
def labelOfKey (key : ℕ) : ℕ → WordLabel :=
  match labels.find? fun e => littleEndianNat (textBytes e.1) % 256 ^ 11 = key with
  | some e => e.2
  | none => fun _ => .spent

/-- The label of a storage word. -/
def labelOf (n : ℕ) : WordLabel :=
  if n < region .assetWord then
    if n = 0 then .spent else .balance (digest (n - region .balanceWord))
  else labelOfKey (n % 256 ^ 11) (n % 2 ^ 248)

theorem asset_id_lt {asset : Address} (h : IsAssetID asset) : asset.toNat < 4 * 2 ^ 248 := by
  rcases h with rfl | h
  · decide
  · have hlt := asset.isLt
    have hv : (asset.toNat / 2 ^ 248) % 256 = 3 := by
      simpa [version, Crypto.addrVersionAsset, UInt8.ext_iff, ← UInt8.toNat_inj] using h
    omega

/-- The label of an indexed word is read from its first eleven bytes. -/
theorem label_of_indexed {text width : ℕ} (i : UInt64) (hw : 11 ≤ width ∧ width ≤ 18)
    (ht : text < 256 ^ width) :
    labelOf (region .protocolWord + (text + 256 ^ width * i.toNat)) =
      labelOfKey (text % 256 ^ 11) (text + 256 ^ width * i.toNat) := by
  obtain ⟨k, rfl⟩ := Nat.exists_eq_add_of_le hw.1
  have hi := i.toNat_lt
  have hbound : text + 256 ^ (11 + k) * i.toNat < 2 ^ 248 := by
    have hpow : 256 ^ (11 + k) ≤ 256 ^ 18 := Nat.pow_le_pow_right (by decide) hw.2
    calc text + 256 ^ (11 + k) * i.toNat < 256 ^ (11 + k) + 256 ^ (11 + k) * i.toNat := by omega
      _ = 256 ^ (11 + k) * (i.toNat + 1) := by ring
      _ ≤ 256 ^ 18 * 2 ^ 64 := Nat.mul_le_mul hpow hi
      _ ≤ 2 ^ 248 := by decide
  have hkey : (region .protocolWord + (text + 256 ^ (11 + k) * i.toNat)) % 256 ^ 11 =
      text % 256 ^ 11 := by
    have hsplit : region .protocolWord + (text + 256 ^ (11 + k) * i.toNat) =
        text + 256 ^ 11 * (0x22 * 256 ^ 20 + 256 ^ k * i.toNat) := by
      simp only [region]
      ring
    rw [hsplit, add_mul_mod_self_left]
  have hmod : (region .protocolWord + (text + 256 ^ (11 + k) * i.toNat)) % 2 ^ 248 =
      text + 256 ^ (11 + k) * i.toNat := by
    simp only [region]
    omega
  rw [labelOf, if_neg (by simp only [region]; omega), hkey, hmod]

theorem index_of_indexed {text width : ℕ} (i : UInt64) (ht : text < 256 ^ width) :
    UInt64.ofNat ((text + 256 ^ width * i.toNat) / 256 ^ width) = i := by
  rw [Nat.add_mul_div_left _ _ (Nat.pow_pos (by decide)), Nat.div_eq_of_lt ht, Nat.zero_add,
    UInt64.ofNat_toNat]

/-- Every proper label is read back from its number. -/
theorem label_of_word_nat {l : WordLabel} (h : l.Proper) : labelOf (wordNat l) = l := by
  cases l with
  | balance asset =>
    have hlt := asset_id_lt h
    have hdig : digest (region .balanceWord + asset.toNat - region .balanceWord) = asset := by
      rw [Nat.add_sub_cancel_left]
      exact ext (mod_eq_of_lt asset.isLt)
    rw [wordNat, labelOf, if_pos (by simp only [region]; omega),
      if_neg (by simp only [region]; omega), hdig]
  | appliedGasSample i =>
    rw [wordNat, label_of_indexed i (by decide) (by decide)]
    exact congrArg WordLabel.appliedGasSample (index_of_indexed i (by decide))
  | coinbaseAddr i =>
    rw [wordNat, label_of_indexed i (by decide) (by decide)]
    exact congrArg WordLabel.coinbaseAddr (index_of_indexed i (by decide))
  | coinbaseAmount i =>
    rw [wordNat, label_of_indexed i (by decide) (by decide)]
    exact congrArg WordLabel.coinbaseAmount (index_of_indexed i (by decide))
  | _ => decide

section

attribute [local instance] crypto

/-- The number of an indexed word: region, text, then index. -/
theorem indexed_word_to_nat {label : String} (i : UInt64)
    (hlen : (textBytes label).length ≤ 18)
    (ht : littleEndianNat (textBytes label) < 256 ^ (textBytes label).length) :
    (indexedWord label i).toNat = region .protocolWord +
      (littleEndianNat (textBytes label) + 256 ^ (textBytes label).length * i.toNat) := by
  have hi := i.toNat_lt
  have hpow : 256 ^ (textBytes label).length ≤ 256 ^ 18 := Nat.pow_le_pow_right (by decide) hlen
  have hmul : 256 ^ (textBytes label).length * (i.toNat + 1) ≤ 256 ^ 18 * 2 ^ 64 :=
    Nat.mul_le_mul hpow hi
  show (region .protocolWord + littleEndianNat (textBytes label ++ uint64 i)) % 2 ^ 256 = _
  rw [little_endian_nat_append, little_endian_nat_uint64]
  refine mod_eq_of_lt ?_
  calc region .protocolWord +
        (littleEndianNat (textBytes label) + 256 ^ (textBytes label).length * i.toNat)
      < region .protocolWord + 256 ^ (textBytes label).length * (i.toNat + 1) := by
        rw [mul_succ]
        omega
    _ ≤ region .protocolWord + 256 ^ 18 * 2 ^ 64 := by omega
    _ < 2 ^ 256 := by decide

theorem storage_word_to_nat {l : WordLabel} (h : l.Proper) : (storageWord l).toNat = wordNat l := by
  cases l with
  | balance asset =>
    have hlt := asset_id_lt h
    show (region .balanceWord + bigEndianNat asset.bytes) % 2 ^ 256 = _
    rw [big_endian_nat_bytes, wordNat]
    exact mod_eq_of_lt (by simp only [region]; omega)
  | appliedGasSample i | coinbaseAddr i | coinbaseAmount i =>
    exact indexed_word_to_nat i (by decide) (by decide)
  | _ => decide

/-- The assumption on storage words can be met. -/
theorem words_distinct : WordsDistinct := by
  intro l hl l' hl' h
  have hnat : wordNat l = wordNat l' := by
    rw [← storage_word_to_nat hl, ← storage_word_to_nat hl', h]
  rw [← label_of_word_nat hl, hnat, label_of_word_nat hl']

end

end Zycord.Reference
