import Zycord.Core.Params

/-!
# Consensus objects

The objects of package `core/types` that a certificate is made of, their canonical encodings, and
the gas and fee functions of a certificate. A program is a tagged union in the source whose tag
and body always agree after decoding; here it is an inductive type.
-/

namespace Zycord

/-! ## Slots -/

/-- A cell coordinate: an address and a word within it. -/
structure Slot where
  addr : Address
  word : Word

namespace Slot

/-- A slot as a number. -/
def rank (s : Slot) : ℕ := s.addr.toNat * 2 ^ 256 + s.word.toNat

theorem rank_injective : Function.Injective rank := by
  intro a b h
  have ha := a.word.isLt
  have hb := b.word.isLt
  have h' : a.addr.toNat * 2 ^ 256 + a.word.toNat = b.addr.toNat * 2 ^ 256 + b.word.toNat := h
  have haddr : a.addr = b.addr := Bytes32.ext (by omega)
  have hword : a.word = b.word := Bytes32.ext (by rw [haddr] at h'; omega)
  cases a; cases b
  simp_all

/-- Slots in the order of their bytes. -/
instance : LinearOrder Slot := LinearOrder.lift' rank rank_injective

/-- The canonical encoding. -/
def marshal (s : Slot) : Bytes := s.addr.bytes ++ s.word.bytes

end Slot

/-! ## Reads and writes -/

/-- How a declared read is evaluated. `unknown` is a byte that no rule gives a meaning to. -/
inductive Access where
  | exact
  | guardGE
  | guardLE
  | guardEQ
  | unknown (code : Fin 252)
deriving DecidableEq

/-- The code of an access. -/
def Access.byte : Access → UInt8
  | exact => 0
  | guardGE => 1
  | guardLE => 2
  | guardEQ => 3
  | unknown code => UInt8.ofNat (code + 4)

/-- A declared input. -/
structure Read where
  slot : Slot
  access : Access
  operand : U256
deriving DecidableEq

/-- The canonical encoding. -/
def Read.marshal (r : Read) : Bytes :=
  r.slot.marshal ++ [r.access.byte] ++ r.operand.bytes32.bytes

/-- What a declared write does. `unknown` is a byte that no rule gives a meaning to. -/
inductive Op where
  | set
  | deltaAdd
  | deltaSub
  | markSpent
  | unknown (code : Fin 252)
deriving DecidableEq

/-- The byte of a write operation. -/
def Op.byte : Op → UInt8
  | set => 0
  | deltaAdd => 1
  | deltaSub => 2
  | markSpent => 3
  | unknown code => UInt8.ofNat (code + 4)

/-- A declared output. -/
structure Write where
  slot : Slot
  op : Op
  value : U256
deriving DecidableEq

/-- The canonical encoding. -/
def Write.marshal (w : Write) : Bytes :=
  w.slot.marshal ++ [w.op.byte] ++ w.value.bytes32.bytes

/-- A public key with its signature over the certificate's signing message. -/
structure Sig where
  pubKey : PubKey
  sig : SigBytes
deriving DecidableEq

/-- The canonical encoding. -/
def Sig.marshal (s : Sig) : Bytes := s.pubKey.bytes ++ s.sig.r.bytes ++ s.sig.s.bytes

/-- The reservation that makes a certificate billable. -/
structure Deposit where
  cell : Slot
  amount : U256
  refundTo : Slot
deriving DecidableEq

/-- The canonical encoding. -/
def Deposit.marshal (d : Deposit) : Bytes :=
  d.cell.marshal ++ d.amount.bytes32.bytes ++ d.refundTo.marshal

/-- The signer's offer in the two fee markets. -/
structure FeeBid where
  seqMax : U256
  seqPriority : U256
  parMax : U256
  parPriority : U256
deriving DecidableEq

/-- The canonical encoding. -/
def FeeBid.marshal (f : FeeBid) : Bytes :=
  f.seqMax.bytes32.bytes ++ f.seqPriority.bytes32.bytes ++ f.parMax.bytes32.bytes ++
    f.parPriority.bytes32.bytes

/-! ## Programs -/

/-- One value motion inside a transfer. A zero asset is the native coin. -/
structure Move where
  asset : Address
  src : Address
  dst : Address
  amount : U256
deriving DecidableEq

/-- The canonical encoding. -/
def Move.marshal (m : Move) : Bytes :=
  m.asset.bytes ++ m.src.bytes ++ m.dst.bytes ++ m.amount.bytes32.bytes

/-- The parameters of an asset to be created. -/
structure IssueArgs where
  issuer : Address
  cap : U256
  symbolHash : Hash
  minter : PubKey
  decimals : UInt8
deriving DecidableEq

/-- The canonical encoding. -/
def IssueArgs.marshal (a : IssueArgs) : Bytes :=
  a.issuer.bytes ++ a.cap.bytes32.bytes ++ a.symbolHash.bytes ++ a.minter.bytes ++ [a.decimals]

/-- A mint against a supply cap, with the declared values of the asset's authority cells. -/
structure MintArgs where
  asset : Address
  dst : Address
  amount : U256
  cap : U256
  minter : PubKey
deriving DecidableEq

/-- The canonical encoding. -/
def MintArgs.marshal (a : MintArgs) : Bytes :=
  a.asset.bytes ++ a.dst.bytes ++ a.amount.bytes32.bytes ++ a.cap.bytes32.bytes ++ a.minter.bytes

/-- The Era-0 operation set. -/
inductive Program where
  | transfer (moves : List Move)
  | issue (args : IssueArgs)
  | mint (args : MintArgs)
  | retire (addrs : List Address)
deriving DecidableEq

namespace Program

/-- The tag byte of a program. -/
def kind : Program → UInt8
  | transfer _ => 0
  | issue _ => 1
  | mint _ => 2
  | retire _ => 3

/-- The bytes of a program. -/
def body : Program → Bytes
  | transfer moves => moves.flatMap Move.marshal
  | issue args => args.marshal
  | mint args => args.marshal
  | retire addrs => addrs.flatMap Bytes32.bytes

/-- A program in its encoding. -/
def marshal (prog : Program) : Bytes :=
  Ssz.encode [.fixed 1, .var] [[prog.kind], prog.body]

/-- The number of independent sub-derivations a verifier performs. -/
def deriveUnits : Program → UInt64
  | transfer moves => UInt64.ofNat moves.length
  | retire addrs => UInt64.ofNat addrs.length
  | _ => 1

end Program

/-! ## Certificates -/

/-- A signed, self-contained statement of what it reads, writes and pays. -/
structure Certificate where
  chainID : UInt64
  seq : UInt64
  program : Program
  reads : List Read
  writes : List Write
  sigs : List Sig
  deposit : Deposit
  ttl : UInt64
  feeBid : FeeBid
deriving DecidableEq

/-- What a certificate pays: the whole charge, the part burned and the part tipped. -/
structure FeeSplit where
  charge : U256
  burned : U256
  tip : U256
deriving DecidableEq

/-- What one fee market burns and tips; `none` when the bid does not cover the base fee or a
product overflows. -/
def market (gas base maxPrice priority : U256) : Option (U256 × U256) := do
  let headroom ← U256.checked (maxPrice.sub base)
  let effective := U256.minOf priority headroom
  let burn ← U256.checked (gas.mul base)
  let tip ← U256.checked (gas.mul effective)
  return (burn, tip)

namespace Certificate

variable (c : Certificate) (p : Params)

/-- The layout of an encoded certificate. -/
def layout : List Ssz.Width :=
  [.fixed 8, .fixed 8, .var, .var, .var, .var, .fixed 160, .fixed 8, .fixed 128]

/-- The encoding with a given signature list. -/
def marshalWith (sigs : List Sig) : Bytes :=
  Ssz.encode layout [Ssz.uint64 c.chainID, Ssz.uint64 c.seq, c.program.marshal,
    c.reads.flatMap Read.marshal, c.writes.flatMap Write.marshal, sigs.flatMap Sig.marshal,
    c.deposit.marshal, Ssz.uint64 c.ttl, c.feeBid.marshal]

/-- The canonical encoding. -/
def marshal : Bytes := c.marshalWith c.sigs

/-- The encoding with an empty signature list: what is authorised. -/
def marshalBody : Bytes := c.marshalWith []

/-- The length of the encoding. -/
def sizeBytes : ℕ := c.marshal.length

/-- Who pays. -/
def underwriterID : Address := c.deposit.cell.addr

/-- The number of addresses the certificate burns. -/
def markSpentCount : ℕ := c.writes.countP fun w => w.op = .markSpent

/-- The sequential gas of the certificate. -/
def seqGas : UInt64 :=
  p.gasSeqPerRead * UInt64.ofNat c.reads.length + p.gasSeqPerWrite * UInt64.ofNat c.writes.length +
    p.gasSeqPerRegistryInsert * UInt64.ofNat c.markSpentCount +
    p.gasSeqPerSeenInsert

/-- The parallel gas of the certificate. -/
def parGas : UInt64 :=
  p.gasParPerSig * UInt64.ofNat c.sigs.length + p.gasParPerByte * UInt64.ofNat c.sizeBytes +
    p.gasParPerDeriveUnit * c.program.deriveUnits

/-- What the certificate pays at the given base fees. -/
def fees (seqBaseFee parBaseFee : U256) : Option FeeSplit := do
  let (seqBurn, seqTip) ← market (.fromUint64 (c.seqGas p)) seqBaseFee c.feeBid.seqMax
    c.feeBid.seqPriority
  let (parBurn, parTip) ← market (.fromUint64 (c.parGas p)) parBaseFee c.feeBid.parMax
    c.feeBid.parPriority
  let burned ← U256.checked (seqBurn.add parBurn)
  let tip ← U256.checked (seqTip.add parTip)
  let charge ← U256.checked (burned.add tip)
  return { charge, burned, tip }

/-- The most the certificate can ever be charged, which its deposit has to cover. -/
def feeCeiling : Option U256 := do
  let seq ← U256.checked ((U256.fromUint64 (c.seqGas p)).mul c.feeBid.seqMax)
  let par ← U256.checked ((U256.fromUint64 (c.parGas p)).mul c.feeBid.parMax)
  let total ← U256.checked (seq.add par)
  return U256.maxOf p.skipFee total

/-- The certificate id: the seen-set key and the fold's tiebreak. -/
def id [Crypto] (c : Certificate) : Hash := Crypto.sum .certID c.marshalBody

/-- The hash of the whole certificate. -/
def exemplarHash [Crypto] (c : Certificate) : Hash := Crypto.sum .cert c.marshal

/-- The root of the authorised fields. -/
def bodyRoot [Crypto] (c : Certificate) : Hash := Crypto.sum .certBody c.marshalBody

/-- What is signed. -/
def signingMessage [Crypto] (c : Certificate) (p : Params) : Bytes :=
  (Crypto.sum .sig (Ssz.uint64 c.chainID ++ p.consensusRoot.bytes ++ c.bodyRoot.bytes)).bytes

end Certificate

end Zycord
