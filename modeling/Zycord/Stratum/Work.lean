import Zycord.Core.Decode
import Zycord.Core.Reference
import Zycord.Fold.BlockRules

/-!
# The bytes a miner searches

The proof-of-work input of a header (`core/types/block.go`), the checks of package `core/pow` over
it, and the seam of the stratum endpoint to them (`node/stratum/seam.go`): the blob a job carries,
the header a submitted nonce is sealed into, and the 64-bit filter on shares. `sealed_input_iff`
says when the input of the sealed header is the blob with the nonce written into it.
-/

namespace Zycord

open Bytes32 List Ssz

/-! ## The input -/

namespace Header

/-- Where the nonce stands. -/
def powInputNonceOffset : ℕ := 39

/-- Where the reserved zero bytes between the seed and the nonce begin. -/
def powInputReservedOffset : ℕ := 32

/-- A header without nonce and digest. -/
def sansNonce (h : Header) : Header := { h with pow := { h.pow with nonce := 0 }, powHash := 0 }

section

variable [Crypto]

/-- The part of the input that does not change with the nonce. -/
def powSeed (h : Header) : Hash := Crypto.sum .pow h.sansNonce.marshal

/-- What is hashed for a nonce. -/
def powInput (h : Header) : Bytes :=
  h.powSeed.bytes ++ List.replicate (powInputNonceOffset - powInputReservedOffset) 0 ++
    Ssz.uint32 h.pow.nonce.toNat

end

end Header

namespace Stratum

/-! ## The work rule -/

/-- The hash functions of the proof of work: the work function of the engine under a key, and
BLAKE2b-256. -/
class WorkHash where
  hash : Hash → Bytes → Hash
  blake2b : Bytes → Hash

/-- A work function good enough to tell inputs apart. -/
@[reducible] def Sample.workHash : WorkHash where
  hash _ input := Reference.digest (ByteString.littleEndianNat input % (2 ^ 256 - 189))
  blake2b input := Reference.digest (ByteString.littleEndianNat input % (2 ^ 256 - 189))

/-- Why a header has not enough work behind it. -/
inductive WorkError where
  | targetMissing
  | workTooLow
  | hashMismatch
deriving DecidableEq

section

variable [Crypto]

/-- The key of a height. -/
def keyFor (height : UInt64) (p : Params) : Hash :=
  Crypto.sum .powKey (Ssz.uint64 p.chainID ++ Ssz.uint64 (Fold.seedEpochFor height p))

variable [WorkHash]

/-- The value that is compared with the target. -/
def commitment (h : Header) : Hash := WorkHash.blake2b (h.powInput ++ h.powHash.bytes)

/-- A digest as a number, its first byte the least significant. -/
def fromLEBytes (b : Bytes32) : ℕ := ByteString.littleEndianNat b.bytes

/-- The cheap half of the work check. -/
def checkCommitment (h : Header) : Except WorkError Unit :=
  if h.height = 0 then .ok ()
  else if h.target.isZero then .error .targetMissing
  else if fromLEBytes (commitment h) > h.target.toNat then .error .workTooLow
  else .ok ()

/-- The work check. -/
def checkWork (h : Header) (p : Params) : Except WorkError Unit := do
  checkCommitment h
  if h.height = 0 then .ok ()
  else if WorkHash.hash (keyFor h.height p) h.powInput ≠ h.powHash then .error .hashMismatch
  else .ok ()

/-! ## The seam -/

/-- The 64 bits of a digest that a miner filters its shares on: the last eight bytes. -/
def topLimb (b : Bytes32) : UInt64 := UInt64.ofNat (ByteString.littleEndianNat (b.bytes.drop 24))

/-- The quantity the endpoint filters shares on. -/
def jobTargetValue (h : Header) : UInt64 := topLimb (commitment h)

/-- Whether a share is good enough for its job. -/
def meetsJobTarget (h : Header) (target : UInt64) : Bool := jobTargetValue h < target

/-- The job target of a header target: its upper 64 bits, rounded up and never zero. -/
def truncateTarget (target : U256) : UInt64 :=
  let plusOne := target.add 1
  if plusOne.2 then 0xFFFFFFFFFFFFFFFF
  else
    let t64 := UInt64.ofNat (plusOne.1.toNat / 2 ^ 192)
    if t64 = 0 then 1 else t64

/-- What a miner is sent. -/
def blobFor (h : Header) : Bytes :=
  h.powInput.take Header.powInputNonceOffset ++ List.replicate 4 0 ++
    h.powInput.drop (Header.powInputNonceOffset + 4)

/-- A header with both nonces. -/
def sealNonce (h : Header) (nonce extraNonce : UInt32) : Header :=
  { h with pow := { h.pow with nonce, extraNonce } }

/-- Recompute the digest of a header. -/
def recoverPoWHash (h : Header) (p : Params) : Header :=
  { h with powHash := WorkHash.hash (keyFor h.height p) h.powInput }

/-- A blob with a nonce. -/
def writeNonce (blob : Bytes) (nonce : UInt32) : Bytes :=
  blob.take Header.powInputNonceOffset ++ Ssz.uint32 nonce.toNat ++
    blob.drop (Header.powInputNonceOffset + 4)

/-- What a miner compares with its target. -/
def shareValue (key : Hash) (input : Bytes) : UInt64 :=
  topLimb (WorkHash.blake2b (input ++ (WorkHash.hash key input).bytes))

variable (h : Header) (nonce extraNonce : UInt32)

/-! ## When the two inputs agree -/

/-- Two extra nonces with one seed. -/
def SeedClash (h : Header) (extraNonce : UInt32) : Prop :=
  (sealNonce h 0 extraNonce).sansNonce.marshal ≠ h.sansNonce.marshal ∧
    (sealNonce h 0 extraNonce).powSeed = h.powSeed

omit [WorkHash] in
theorem pow_seed_seal_nonce :
    (sealNonce h nonce extraNonce).powSeed = (sealNonce h 0 extraNonce).powSeed := rfl

omit [WorkHash] in
theorem pow_seed_eq_iff : (sealNonce h 0 extraNonce).powSeed = h.powSeed ↔
      extraNonce = h.pow.extraNonce ∨ SeedClash h extraNonce := by
  constructor
  · intro hseed
    by_cases hpre : (sealNonce h 0 extraNonce).sansNonce.marshal = h.sansNonce.marshal
    · have hheader := header_marshal_injective hpre
      exact Or.inl (congrArg (fun h => h.pow.extraNonce) hheader)
    · exact Or.inr ⟨hpre, hseed⟩
  · intro hcase
    rcases hcase with rfl | hclash
    · rfl
    · exact hclash.2

omit [WorkHash] in
theorem write_nonce_blob : writeNonce (blobFor h) nonce = h.powSeed.bytes ++
      List.replicate (Header.powInputNonceOffset - Header.powInputReservedOffset) 0 ++
      Ssz.uint32 nonce.toNat := by
  have hseed : h.powSeed.bytes.length = 32 := length_bytes _
  have hgap : (h.powSeed.bytes ++ replicate 7 0).length = 39 := by simp
  have hnonce : (uint32 h.pow.nonce.toNat).length = 4 := by simp [bytesPerLengthOffset]
  have hblob : blobFor h = h.powSeed.bytes ++ replicate 7 0 ++ replicate 4 0 := by
    show (h.powSeed.bytes ++ replicate 7 0 ++ uint32 h.pow.nonce.toNat).take 39 ++ _ ++
      (h.powSeed.bytes ++ replicate 7 0 ++ uint32 h.pow.nonce.toNat).drop 43 = _
    rw [take_left' hgap, drop_of_length_le (by rw [length_append]; omega), append_nil]
  rw [hblob]
  show (h.powSeed.bytes ++ replicate 7 0 ++ replicate 4 0).take 39 ++ _ ++
    (h.powSeed.bytes ++ replicate 7 0 ++ replicate 4 0).drop 43 = _
  rw [take_left' hgap, drop_of_length_le (by rw [length_append]; simp), append_nil]
  rfl

omit [WorkHash] in
/-- The input of the sealed header is the blob with the nonce written into it when the extra nonce
is the candidate's own, or when the seeds clash. -/
theorem sealed_input_iff : (sealNonce h nonce extraNonce).powInput = writeNonce (blobFor h) nonce ↔
      extraNonce = h.pow.extraNonce ∨ SeedClash h extraNonce := by
  rw [write_nonce_blob, ← pow_seed_eq_iff, ← pow_seed_seal_nonce h nonce]
  show (sealNonce h nonce extraNonce).powSeed.bytes ++ _ ++ uint32 nonce.toNat = _ ↔ _
  rw [append_left_inj, append_left_inj]
  exact bytes_injective.eq_iff

end

end Stratum

end Zycord
