import Zycord.Core.SszDecode
import Zycord.Core.Validate
import Zycord.Fold.Apply

/-!
# Selecting certificates

The producer's choice of certificates for a block (`node/miner/select.go`): the ones that could be
in a block at all are ranked by what they pay per unit of the scarcer gas and packed greedily under
every ceiling of the block rules. `Packed` is a list within all of them, and `Room` one that leaves
the space of some citations.
-/

namespace Zycord

open Header List Ssz

/-- The revenue a producer earns from including a certificate, assuming it applies. -/
def Certificate.minerTip (c : Certificate) (p : Params) (seqBaseFee parBaseFee : U256) : U256 :=
  ((c.fees p seqBaseFee parBaseFee).map FeeSplit.tip).getD 0

/-! ## Encoded sizes -/

/-- What a block takes before any certificate. -/
def emptyBlockBytes : ℕ :=
  Block.sizeBytes ⟨⟨0, 0, 0, 0, 0, 0, 0, 0, ⟨0, 0, 0⟩, 0, 0⟩, [], []⟩

/-- The envelope of a block. -/
def blockOverheadBytes (nCerts : ℕ) (nCites : ℤ) : ℤ :=
  emptyBlockBytes + Ssz.bytesPerLengthOffset * nCerts +
    (headerSize + Ssz.bytesPerLengthOffset) * nCites

/-- The sizes of certificates. -/
def bytesOf (certs : List Certificate) : ℕ := (certs.map Certificate.sizeBytes).sum

/-- The signatures of certificates. -/
def sigsOf (certs : List Certificate) : ℕ := (certs.map fun c => c.sigs.length).sum

theorem empty_block_bytes_eq : emptyBlockBytes = headerSize + 2 * Ssz.bytesPerLengthOffset := by
  simp [emptyBlockBytes, Block.sizeBytes, Block.marshal, length_encode, fieldSize,
    length_marshal, encodeVariableList, length_encode_fields]
  omega

theorem length_encode_certs (certs : List Certificate) :
    (Ssz.encodeVariableList (certs.map Certificate.marshal)).length =
      Ssz.bytesPerLengthOffset * certs.length + bytesOf certs := by
  rw [length_encode_variable_list, map_map, bytesOf]
  induction certs with
  | nil => simp
  | cons c rest ih =>
    have hsize : c.marshal.length = c.sizeBytes := rfl
    simp only [map_cons, sum_cons, Function.comp_apply, length_cons, Nat.mul_add, hsize] at ih ⊢
    omega

theorem size_bytes_eq {b : Block} (h : b.cites = []) :
    (b.sizeBytes : ℤ) = blockOverheadBytes b.certs.length 0 + bytesOf b.certs := by
  have hcites : (Ssz.encodeVariableList (b.cites.map Header.marshal)).length = 0 := by
    rw [h]
    rfl
  simp only [blockOverheadBytes, empty_block_bytes_eq, Block.sizeBytes, Block.marshal,
    length_encode, zip_cons_cons, zip_nil_right, map_cons, map_nil,
    sum_cons, sum_nil, fieldSize, length_marshal, length_encode_certs, hcites]
  omega

theorem sigs_le_size (c : Certificate) : c.sigs.length ≤ c.sizeBytes := by
  have hflat : c.sigs.length ≤ (c.sigs.flatMap Sig.marshal).length := by
    induction c.sigs with
    | nil => simp
    | cons sig rest ih =>
      have hsig : 1 ≤ sig.marshal.length := by simp [Sig.marshal]
      simp only [List.flatMap_cons, List.length_append, List.length_cons]
      omega
  simp only [Certificate.sizeBytes, Certificate.marshal, Certificate.marshalWith,
    Certificate.layout, Ssz.length_encode, List.zip_cons_cons, List.map_cons, List.sum_cons,
    Ssz.fieldSize]
  omega

theorem sigs_of_le_bytes_of (certs : List Certificate) : sigsOf certs ≤ bytesOf certs :=
  sum_le_sum fun c _ => sigs_le_size c

end Zycord

namespace Zycord.Miner

open Fold

section

variable [Crypto]

/-! ## The model -/

/-- A candidate with what the ranking and the packing read of it. -/
structure Scored where
  cert : Certificate
  tip : U256
  weight : U256
  seqGas : UInt64
  parGas : UInt64
  id : Hash

/-- Score a certificate; one that no block could carry is left out. -/
def score (p : Params) (seqBaseFee parBaseFee : U256) (t : UInt64) (c : Certificate) :
    Option Scored :=
  let seqLimit := p.seqGasLimit t
  let parLimit := p.parGasLimit t
  let seqGas := c.seqGas p
  let parGas := c.parGas p
  if seqGas > seqLimit ∨ parGas > parLimit then none
  else if c.feeBid.seqMax < seqBaseFee ∨ c.feeBid.parMax < parBaseFee then none
  else
    -- consumption of the scarcer gas, on the common denominator of both limits
    let seqShare := ((U256.fromUint64 seqGas).mul (.fromUint64 parLimit)).1
    let parShare := ((U256.fromUint64 parGas).mul (.fromUint64 seqLimit)).1
    some ⟨c, c.minerTip p seqBaseFee parBaseFee, U256.maxOf seqShare parShare, seqGas, parGas, c.id⟩

/-- The comparison of the ranking: tip per weight by cross multiplication, then the id. -/
def denser (a b : Scored) : Bool :=
  let left := a.tip.mul b.weight
  let right := b.tip.mul a.weight
  if left.2 ≠ right.2 then left.2
  else if left.1 ≠ right.1 then left.1 > right.1
  else a.id < b.id

/-- A way of putting scored candidates into an order. The comparison above is no order when both
of its products overflow, so what the source's sort does then depends on its algorithm. -/
structure Ranking where
  sort : List Scored → List Scored
  perm : ∀ cands, (sort cands).Perm cands

/-- The stable ranking by the comparison. -/
def Ranking.byDensity : Ranking where
  sort := List.insertionSort fun a b => !denser b a
  perm := List.perm_insertionSort _

/-- What has been packed so far. -/
structure Packing where
  out : List Certificate
  seqUsed : UInt64
  parUsed : UInt64
  sigsUsed : UInt64
  bytes : ℕ

namespace Packing

/-- Nothing is packed yet. -/
def empty : Packing := ⟨[], 0, 0, 0, 0⟩

/-- Whether a candidate does not fit any more. The sizes are added as machine integers, and the
space of every citation the block might carry is reserved. -/
def passesOver (acc : Packing) (p : Params) (t : UInt64) (c : Scored) : Bool :=
  acc.seqUsed + c.seqGas > p.seqGasLimit t || acc.parUsed + c.parGas > p.parGasLimit t ||
    Int64.ofInt (blockOverheadBytes (acc.out.length + 1) p.maxCitesPerBlock.toInt + acc.bytes +
      c.cert.sizeBytes) > p.blockByteLimit t ||
    acc.sigsUsed + UInt64.ofNat c.cert.sigs.length > p.maxSigsPerBlock t

/-- Take a candidate. -/
def take (acc : Packing) (c : Scored) : Packing where
  out := acc.out ++ [c.cert]
  seqUsed := acc.seqUsed + c.seqGas
  parUsed := acc.parUsed + c.parGas
  sigsUsed := acc.sigsUsed + UInt64.ofNat c.cert.sigs.length
  bytes := acc.bytes + c.cert.sizeBytes

end Packing

/-- The greedy loop: stop at the certificate ceiling, pass over what does not fit. -/
def pack (p : Params) (t : UInt64) : List Scored → Packing → Packing
  | [], acc => acc
  | c :: rest, acc =>
    if acc.out.length ≥ (p.maxCertsPerBlock t).toInt then acc
    else if acc.passesOver p t c then pack p t rest acc
    else pack p t rest (acc.take c)

/-- Choose certificates for a block at the sequential target `t`. -/
def select (rank : Ranking) (pool : List Certificate) (p : Params) (seqBaseFee parBaseFee : U256)
    (t : UInt64) : List Certificate :=
  (pack p t (rank.sort (pool.filterMap (score p seqBaseFee parBaseFee t))) .empty).out

/-! ## Lists within the ceilings -/

/-- The exact sequential gas of certificates. -/
def seqGasOf (p : Params) (certs : List Certificate) : ℕ :=
  (certs.map fun c => (c.seqGas p).toNat).sum

/-- The exact parallel gas. -/
def parGasOf (p : Params) (certs : List Certificate) : ℕ :=
  (certs.map fun c => (c.parGas p).toNat).sum

/-- The gas of no block of valid certificates wraps. -/
def GasFits (p : Params) : Prop :=
  ∀ certs : List Certificate, (certs.length : ℤ) ≤ p.certListCapacity.toInt →
    (∀ c ∈ certs, Validity.check c p = .ok ()) →
      seqGasOf p certs < 2 ^ 64 ∧ parGasOf p certs < 2 ^ 64

/-- The sizes of a list of candidates can be added up in a machine integer, together with the
space reserved for citations. -/
def SizesFit (p : Params) (pool : List Certificate) : Prop :=
  blockOverheadBytes pool.length p.maxCitesPerBlock.toInt + bytesOf pool < 2 ^ 63

/-- A list of certificates that is within every ceiling of the block rules at target `t`. -/
structure Packed (p : Params) (t : UInt64) (certs : List Certificate) : Prop where
  valid : ∀ c ∈ certs, Validity.check c p = .ok ()
  nodup : (certs.map Certificate.id).Nodup
  count : (certs.length : ℤ) ≤ (p.maxCertsPerBlock t).toInt
  sigs : sigsOf certs ≤ (p.maxSigsPerBlock t).toNat
  bytes : blockOverheadBytes certs.length 0 + bytesOf certs ≤ (p.blockByteLimit t).toInt
  seqGas : seqGasOf p certs ≤ (p.seqGasLimit t).toNat
  parGas : parGasOf p certs ≤ (p.parGasLimit t).toNat

/-- A list of certificates within the ceilings at target `t`, with the space of some citations
reserved. -/
structure Room (p : Params) (t : UInt64) (cites : ℤ) (certs : List Certificate) : Prop where
  seqGas : seqGasOf p certs ≤ (p.seqGasLimit t).toNat
  parGas : parGasOf p certs ≤ (p.parGasLimit t).toNat
  count : (certs.length : ℤ) ≤ (p.maxCertsPerBlock t).toInt
  sigs : sigsOf certs ≤ (p.maxSigsPerBlock t).toNat
  bytes : blockOverheadBytes certs.length cites + bytesOf certs ≤ (p.blockByteLimit t).toInt

section
variable {p : Params} {t : UInt64} {cites : ℤ} {certs fewer pool : List Certificate}

omit [Crypto] in
/-- Fewer certificates still have room. -/
theorem Room.sublist (h : Room p t cites certs) (hsub : fewer.Sublist certs) :
    Room p t cites fewer := by
  have hlen := hsub.length_le
  have hsum : ∀ f : Certificate → ℕ, (fewer.map f).sum ≤ (certs.map f).sum := fun f =>
    (hsub.map f).sum_le_sum fun _ _ => Nat.zero_le _
  refine ⟨(hsum _).trans h.seqGas, (hsum _).trans h.parGas, ?_, (hsum _).trans h.sigs, ?_⟩
  · have := h.count
    omega
  · have hbytes : bytesOf fewer ≤ bytesOf certs := hsum _
    have hfit := h.bytes
    simp only [blockOverheadBytes, Ssz.bytesPerLengthOffset] at hfit ⊢
    omega

theorem Room.packed (h : Room p t cites certs) (hcites : 0 ≤ cites)
    (hvalid : ∀ c ∈ certs, Validity.check c p = .ok ())
    (hnodup : (certs.map Certificate.id).Nodup) :
    Packed p t certs := by
  refine ⟨hvalid, hnodup, h.count, h.sigs, ?_, h.seqGas, h.parGas⟩
  have hfit := h.bytes
  simp only [blockOverheadBytes, Ssz.bytesPerLengthOffset, headerSize] at hfit ⊢
  omega

theorem Packed.sublist (h : Packed p t certs) (hsub : fewer.Sublist certs) : Packed p t fewer :=
  (Room.sublist ⟨h.seqGas, h.parGas, h.count, h.sigs, h.bytes⟩ hsub).packed le_rfl
    (fun c hc => h.valid c (hsub.mem hc)) ((hsub.map _).nodup h.nodup)

omit [Crypto] in
theorem bytes_of_subperm (h : certs.Subperm pool) : bytesOf certs ≤ bytesOf pool := by
  obtain ⟨l, hperm, hsub⟩ := h
  have hle := (hsub.map Certificate.sizeBytes).sum_le_sum fun _ _ => Nat.zero_le _
  rwa [(hperm.map Certificate.sizeBytes).sum_nat] at hle

end

end

end Zycord.Miner
