import Zycord.Core.Types

/-!
# Headers and blocks

Headers, blocks, their encodings, ids and the two list roots a header commits to
(`core/types/block.go`).
-/

namespace Zycord

/-- The proof-of-work seal of a header. -/
structure PoWSeal where
  nonce : UInt32
  extraNonce : UInt32
  seedEpoch : UInt64
deriving DecidableEq

/-- The canonical encoding. -/
def PoWSeal.marshal (s : PoWSeal) : Bytes :=
  Ssz.uint32 s.nonce.toNat ++ Ssz.uint32 s.extraNonce.toNat ++ Ssz.uint64 s.seedEpoch

/-- The only header version. -/
def headerVersion : UInt32 := 1

/-- A block header. -/
structure Header where
  version : UInt32
  height : UInt64
  parentID : Hash
  time : UInt64
  certRoot : Hash
  citesRoot : Hash
  stateRoot : Hash
  emissionAddr : Address
  pow : PoWSeal
  target : U256
  powHash : Hash
deriving DecidableEq

namespace Header

/-- The layout of an encoded header. -/
def layout : List Ssz.Width :=
  [.fixed 4, .fixed 8, .fixed 32, .fixed 8, .fixed 32, .fixed 32, .fixed 32, .fixed 32,
   .fixed 16, .fixed 32, .fixed 32]

/-- The canonical encoding. -/
def marshal (h : Header) : Bytes :=
  Ssz.encode layout [Ssz.uint32 h.version.toNat, Ssz.uint64 h.height, h.parentID.bytes,
    Ssz.uint64 h.time, h.certRoot.bytes, h.citesRoot.bytes, h.stateRoot.bytes,
    h.emissionAddr.bytes, h.pow.marshal, h.target.bytes32.bytes, h.powHash.bytes]

/-- The header's hash. -/
def id [Crypto] (h : Header) : Hash := Crypto.sum .block h.marshal

end Header

/-- The encoded width of a header. -/
def headerSize : ℕ := 260

theorem Header.length_marshal (h : Header) : h.marshal.length = headerSize := by
  simp [marshal, layout, Ssz.length_encode, Ssz.fieldSize, PoWSeal.marshal,
    Ssz.bytesPerLengthOffset, headerSize]

/-- A block: a header, its certificates in the proposer's order, and the competing headers it
cites. -/
structure Block where
  header : Header
  certs : List Certificate
  cites : List Header
deriving DecidableEq

namespace Block

/-- A block in its encoding. -/
def marshal (b : Block) : Bytes :=
  Ssz.encode [.fixed headerSize, .var, .var]
    [b.header.marshal, Ssz.encodeVariableList (b.certs.map Certificate.marshal),
     Ssz.encodeVariableList (b.cites.map Header.marshal)]

/-- The length of the encoding. -/
def sizeBytes (b : Block) : ℕ := b.marshal.length

theorem size_bytes_of_perm {b b' : Block} (hperm : b'.certs.Perm b.certs)
    (hcites : b'.cites = b.cites) : b'.sizeBytes = b.sizeBytes := by
  have hcerts := Ssz.length_encode_variable_list_perm (hperm.map Certificate.marshal)
  simp [sizeBytes, marshal, Ssz.length_encode, Ssz.fieldSize, Header.length_marshal, hcerts, hcites]

/-- The hashes under the certificate root. -/
def certExemplars [Crypto] (b : Block) : List Hash := b.certs.map Certificate.exemplarHash

/-- The root over the certificates. -/
def computeCertRoot [Crypto] (b : Block) (p : Params) : Hash :=
  Ssz.listRoot b.certExemplars p.certListCapacity.toInt.toNat

/-- The ids of the cited headers. -/
def citeIDs [Crypto] (b : Block) : List Hash := b.cites.map Header.id

/-- The citation root the header has to carry. -/
def computeCitesRoot [Crypto] (b : Block) (p : Params) : Hash :=
  Ssz.listRoot b.citeIDs p.maxCitesPerBlock.toInt.toNat

end Block

end Zycord
