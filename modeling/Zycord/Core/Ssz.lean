import Zycord.Core.Crypto

/-!
# Canonical encodings and list roots

The encoder half of package `core/ssz` and its merkleisation. A container is encoded as its
fixed-width fields followed by its variable-width ones, each variable field leaving a four-byte
offset behind; a list root is a Merkle root over a fixed capacity with the length mixed in.
-/

namespace Zycord.Ssz

open Crypto

/-- A number in little-endian bytes. -/
def littleEndian (width n : ℕ) : Bytes := (List.range width).map fun i => UInt8.ofNat (n / 256 ^ i)

/-- The encoding of a 32-bit offset; longer lengths wrap as in the source. -/
def uint32 (n : ℕ) : Bytes := littleEndian 4 (n % 2 ^ 32)

/-- The encoding of a 64-bit integer. -/
def uint64 (v : UInt64) : Bytes := littleEndian 8 v.toNat

/-- Width of a variable-field offset. -/
def bytesPerLengthOffset : ℕ := 4

/-- How a container lays a field out. -/
inductive Width where
  | fixed (n : ℕ)
  | var
deriving DecidableEq

/-- The number of bytes a field takes in the fixed section. -/
def Width.fixedLen : Width → ℕ
  | fixed n => n
  | var => bytesPerLengthOffset

/-- The length of the fixed part. -/
def fixedLen (layout : List Width) : ℕ := (layout.map Width.fixedLen).sum

/-- Lay out the remaining fields behind the fixed section `head` and the variable section
`tail` written so far. -/
def encodeFields (fixed : ℕ) : List (Width × Bytes) → Bytes → Bytes → Bytes
  | [], head, tail => head ++ tail
  | (.var, field) :: rest, head, tail =>
    encodeFields fixed rest (head ++ uint32 (fixed + tail.length)) (tail ++ field)
  | (.fixed _, field) :: rest, head, tail => encodeFields fixed rest (head ++ field) tail

/-- Encode fields by a layout. -/
def encode (layout : List Width) (fields : List Bytes) : Bytes :=
  encodeFields (fixedLen layout) (layout.zip fields) [] []

/-- Encode a list of elements of any length. -/
def encodeVariableList (elems : List Bytes) : Bytes :=
  encodeFields (bytesPerLengthOffset * elems.length) (elems.map fun e => (.var, e)) [] []

/-! ## Encoded lengths -/

@[simp] theorem length_little_endian (width n : ℕ) : (littleEndian width n).length = width := by
  simp [littleEndian]

@[simp] theorem length_uint32 (n : ℕ) : (uint32 n).length = bytesPerLengthOffset := by
  simp [uint32, bytesPerLengthOffset]

@[simp] theorem length_uint64 (v : UInt64) : (uint64 v).length = 8 := by
  simp [uint64]

/-- What a field takes up. -/
def fieldSize : Width × Bytes → ℕ
  | (.var, field) => bytesPerLengthOffset + field.length
  | (.fixed _, field) => field.length

theorem length_encode_fields (fixed : ℕ) (fields : List (Width × Bytes)) (head tail : Bytes) :
    (encodeFields fixed fields head tail).length =
      head.length + tail.length + (fields.map fieldSize).sum := by
  induction fields generalizing head tail with
  | nil => simp [encodeFields]
  | cons f rest ih =>
    obtain ⟨w, field⟩ := f
    cases w with
    | fixed n =>
      simp only [encodeFields, ih, List.length_append, List.map_cons, List.sum_cons, fieldSize]
      omega
    | var =>
      simp only [encodeFields, ih, List.length_append, length_uint32, List.map_cons,
        List.sum_cons, fieldSize]
      omega

theorem length_encode (layout : List Width) (fields : List Bytes) :
    (encode layout fields).length = ((layout.zip fields).map fieldSize).sum := by
  simp [encode, length_encode_fields]

theorem length_encode_variable_list_perm {xs ys : List Bytes} (h : xs.Perm ys) :
    (encodeVariableList xs).length = (encodeVariableList ys).length := by
  simp only [encodeVariableList, length_encode_fields, List.map_map]
  rw [(h.map _).sum_nat]

/-- The depth of a tree over so many leaves. -/
def depthLoop (limit : ℕ) : ℕ → ℕ → ℕ
  | 0, depth => depth
  | fuel + 1, depth => if 2 ^ depth < limit then depthLoop limit fuel (depth + 1) else depth

section

variable [Crypto]

/-- An internal node of a Merkle tree. -/
def node (l r : Hash) : Hash := sum .sszNode (l.bytes ++ r.bytes)

/-- The root of a perfect subtree of a given height whose leaves are all zero. -/
def zeroHash : ℕ → Hash
  | 0 => 0
  | d + 1 => node (zeroHash d) (zeroHash d)

/-- One layer of the tree: pair the nodes up; a missing right sibling is a zero subtree. -/
def nextLayer (zero : Hash) : List Hash → List Hash
  | l :: r :: rest => node l r :: nextLayer zero rest
  | [l] => [node l zero]
  | [] => []

/-- Build the tree from layer `d` up to the root, `steps` layers above. -/
def climb : ℕ → ℕ → List Hash → List Hash
  | 0, _, layer => layer
  | steps + 1, d, layer => climb steps (d + 1) (nextLayer (zeroHash d) layer)

/-- The Merkle root of a list padded with zero subtrees to `limit` leaves. The source panics
when the list is longer than the limit. -/
def merkleize (chunks : List Hash) (limit : ℕ) : Hash :=
  let depth := depthLoop limit 63 0
  match climb depth 0 chunks with
  | [] => zeroHash depth
  | root :: _ => root

/-- Hash a root with a length. -/
def mixInLength (root : Hash) (length : UInt64) : Hash :=
  sum .sszNode (root.bytes ++ uint64 length ++ List.replicate 24 0)

/-- The root of a list. -/
def listRoot (chunks : List Hash) (limit : ℕ) : Hash :=
  mixInLength (merkleize chunks limit) (UInt64.ofNat chunks.length)

end

end Zycord.Ssz
