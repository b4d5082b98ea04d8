import Zycord.Core.U256
import Zycord.Lib.ByteString

/-!
# Digests, addresses and the cryptographic primitives

The surface of package `core/crypto` that the consensus rules use. The two primitives, the
domain-separated hash and the signature check, are the fields of the class `Crypto`; every
result of the development holds for all of its instances, and a result that needs more of the
hash (that storage words do not collide, say) has it as a hypothesis.
-/

namespace Zycord

/-- Byte strings. -/
abbrev Bytes := List UInt8

/-- Thirty-two bytes, held as the number they spell big-endian: comparing two of them byte by
byte from the left is comparing those numbers. -/
structure Bytes32 where
  toNat : ℕ
  isLt : toNat < 2 ^ 256

namespace Bytes32

theorem size_pos : 0 < 2 ^ 256 := by decide

/-- All bytes zero. -/
instance : Zero Bytes32 := ⟨⟨0, size_pos⟩⟩

/-- Zero is the default. -/
instance : Inhabited Bytes32 := ⟨0⟩

@[ext] theorem ext {a b : Bytes32} (h : a.toNat = b.toNat) : a = b := by
  cases a; cases b; simpa using h

theorem to_nat_injective : Function.Injective toNat := fun _ _ => ext

/-- Compared as big-endian numbers, which is the order of the bytes. -/
instance : LinearOrder Bytes32 := LinearOrder.lift' toNat to_nat_injective

/-- Equality is decided by the numbers. -/
instance : LawfulBEq Bytes32 := inferInstance

/-- The bytes, most significant first. -/
def bytes (b : Bytes32) : Bytes :=
  (List.range 32).map fun i => UInt8.ofNat (b.toNat / 256 ^ (31 - i))

@[simp] theorem length_bytes (b : Bytes32) : b.bytes.length = 32 := by
  simp [bytes]

theorem reverse_bytes (b : Bytes32) :
    b.bytes.reverse = (List.range 32).map fun i => UInt8.ofNat (b.toNat / 256 ^ i) := by
  simp [bytes, List.range_succ]

theorem big_endian_nat_bytes (b : Bytes32) : ByteString.bigEndianNat b.bytes = b.toNat := by
  rw [ByteString.bigEndianNat, reverse_bytes, ByteString.little_endian_nat_bytes]
  exact Nat.mod_eq_of_lt (by simpa using b.isLt)

end Bytes32

/-- A domain-separated digest. -/
abbrev Hash := Bytes32

/-- An account, asset or protocol identifier: a version byte and 31 bytes of digest. -/
abbrev Address := Bytes32

/-- A storage word within an address. -/
abbrev Word := Bytes32

/-- An Ed25519 public key in compressed form. -/
abbrev PubKey := Bytes32

/-- A 64-byte signature, as its two halves. -/
structure SigBytes where
  r : Bytes32
  s : Bytes32
deriving DecidableEq

/-- Read 32 big-endian bytes as a number. -/
def U256.fromBytes (b : Bytes32) : U256 := ⟨b.toNat, b.isLt⟩

/-- The canonical big-endian encoding of a number. -/
def U256.bytes32 (u : U256) : Bytes32 := ⟨u.toNat, u.isLt⟩

@[simp] theorem U256.from_bytes_bytes32 (u : U256) : U256.fromBytes u.bytes32 = u := rfl

@[simp] theorem U256.bytes32_from_bytes (b : Bytes32) : (U256.fromBytes b).bytes32 = b := rfl

/-- A text in UTF-8. -/
def textBytes (text : String) : Bytes := text.toList.flatMap String.utf8EncodeChar

/-- The domain tags of the hashes that the modelled rules compute. -/
inductive Tag where
  | cert | certID | certBody | block | addr | pow | powKey | sig
  | balanceWord | assetWord | beaconWord | protocolWord
  | sszNode | stateCell | stateSpent | stateRoot | consensusRoot
deriving DecidableEq

/-- The cryptographic primitives. `sum tag payload` is the 32-byte digest of the tag followed by
the concatenated payload; no tag is the beginning of another, so the pair determines the
preimage. `verifyStrict` is the strict Ed25519 check. -/
class Crypto where
  sum : Tag → Bytes → Hash
  verifyStrict : PubKey → Bytes → SigBytes → Bool

namespace Crypto

/-- Version byte of the single fold-owned address. -/
def addrVersionProtocol : UInt8 := 0x00

/-- Version byte of an address whose signing authority the first debit burns. -/
def addrVersionOneShot : UInt8 := 0x01

/-- Accounts that can be used again. -/
def addrVersionPersistent : UInt8 := 0x02

/-- Assets. -/
def addrVersionAsset : UInt8 := 0x03

/-- The highest version byte this release defines. -/
def knownAddressVersion : UInt8 := addrVersionAsset

end Crypto

/-- An address's first byte. -/
def Bytes32.version (a : Address) : UInt8 := UInt8.ofNat (a.toNat / 2 ^ 248)

/-- The fold-owned address: version `0x00` and 31 zero bytes. -/
def protocolAddress : Address := 0

/-- Whether debits of the address are authorised by a signature of the key that hashes to it. -/
def isUserAddress (a : Address) : Bool :=
  a.version = Crypto.addrVersionOneShot || a.version = Crypto.addrVersionPersistent

/-- Whether the version byte is one this release defines. -/
def isKnownAddressVersion (a : Address) : Bool := a.version ≤ Crypto.knownAddressVersion

section

variable [Crypto]

/-- The address of a version and a payload. -/
def deriveAddress (version : UInt8) (payload : Bytes) : Address :=
  ⟨version.toNat * 2 ^ 248 + (Crypto.sum .addr (version :: payload)).toNat / 2 ^ 8, by
    have hv := version.toNat_lt
    have hh := (Crypto.sum .addr (version :: payload)).isLt
    omega⟩

/-- The address of a key. -/
def addressFromPubKey (version : UInt8) (pub : PubKey) : Address :=
  deriveAddress version pub.bytes

@[simp] theorem version_derive_address (version : UInt8) (payload : Bytes) :
    (deriveAddress version payload).version = version := by
  have hh := (Crypto.sum .addr (version :: payload)).isLt
  have hdiv : (version.toNat * 2 ^ 248 +
      (Crypto.sum .addr (version :: payload)).toNat / 2 ^ 8) / 2 ^ 248 = version.toNat := by
    omega
  simp only [Bytes32.version, deriveAddress, hdiv, UInt8.ofNat_toNat]

end

theorem not_user_protocol_address : isUserAddress protocolAddress = false := by decide

theorem not_user_of_version_asset {a : Address} (h : a.version = Crypto.addrVersionAsset) :
    isUserAddress a = false := by
  simp [isUserAddress, h, Crypto.addrVersionAsset, Crypto.addrVersionOneShot,
    Crypto.addrVersionPersistent]

theorem version_protocol_address : protocolAddress.version = Crypto.addrVersionProtocol := by
  decide

end Zycord
