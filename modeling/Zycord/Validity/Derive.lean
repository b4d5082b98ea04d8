import Zycord.Core.Slots
import Zycord.Lib.FinMap
import Zycord.Lib.Mut

/-!
# Derivation

The Era-0 instruction set (`core/validity/derive.go`): the reads and writes a program implies. A
certificate is valid only if it declares exactly what `deriveCert` returns.
-/

namespace Zycord.Validity

open Crypto

/-- The ways a program can be nonsense without looking at any state. -/
inductive DeriveError where
  | emptyProgram | zeroAmount | selfMove | slotBothWays | badSrc | badDst | badIssuer | badAsset
  | zeroCap | amountOverCap | retireNotOwned | retireOrder
deriving DecidableEq

/-- The error text. -/
def DeriveError.message : DeriveError → String
  | emptyProgram => "validity: program has no effect"
  | zeroAmount => "validity: zero-amount operation"
  | selfMove => "validity: move from an address to itself"
  | slotBothWays => "validity: slot is both debited and credited"
  | badSrc => "validity: source is not a user address"
  | badDst => "validity: destination is not a user address"
  | badIssuer => "validity: issuer is not a user address"
  | badAsset => "validity: asset id is not an asset address"
  | zeroCap => "validity: asset cap must be positive"
  | amountOverCap => "validity: mint amount exceeds the supply cap"
  | retireNotOwned => "validity: retire target is not a one-shot address"
  | retireOrder => "validity: retire list is not sorted and deduplicated"

/-- Per-slot totals. -/
abbrev SlotSums := FinMap Slot U256

/-- The sum for a slot. -/
def SlotSums.total (sums : SlotSums) (slot : Slot) : U256 := (sums.find? slot).getD 0

/-- Add to the sum of a slot. -/
def SlotSums.add (sums : SlotSums) (slot : Slot) (v : U256) : Except DeriveError SlotSums :=
  match U256.checked ((SlotSums.total sums slot).add v) with
  | none => .error .amountOverCap
  | some sum => .ok (sums.insert slot sum)

/-- Reads in the order of their slots. -/
def sortReads (reads : List Read) : List Read :=
  reads.insertionSort fun a b => a.slot ≤ b.slot

/-- Writes in the order of their slots. -/
def sortWrites (writes : List Write) : List Write :=
  writes.insertionSort fun a b => a.slot ≤ b.slot

/-- What the moves of a transfer add up to. -/
structure TransferSums where
  debits : SlotSums
  credits : SlotSums
  oneShotDebited : FinMap Address Unit

/-- Check the retire list, each target against the one before it. -/
def checkRetire : Option Address → List Address → Except DeriveError Unit
  | _, [] => .ok ()
  | last, a :: rest => do
      rejectIf (a.version ≠ addrVersionOneShot) .retireNotOwned
      rejectIf (∃ b ∈ last, ¬ b < a) .retireOrder
      checkRetire (some a) rest

section

variable [Crypto]

/-- The write that burns an address. -/
def markSpentWrite (a : Address) : Write := ⟨spentSlot a, .markSpent, 0⟩

/-- Check one move and add it to the totals. -/
def addMove (acc : TransferSums) (m : Move) : Except DeriveError TransferSums := do
  rejectIf (m.asset ≠ nativeAsset ∧ m.asset.version ≠ addrVersionAsset) .badAsset
  rejectIf (m.amount.isZero = true) .zeroAmount
  rejectIf (isUserAddress m.src = false) .badSrc
  rejectIf (isUserAddress m.dst = false) .badDst
  rejectIf (m.src = m.dst) .selfMove
  let debits ← acc.debits.add (balanceSlot m.src m.asset) m.amount
  let credits ← acc.credits.add (balanceSlot m.dst m.asset) m.amount
  return {
    debits
    credits
    oneShotDebited :=
      if m.src.version = addrVersionOneShot then acc.oneShotDebited.insert m.src ()
      else acc.oneShotDebited }

/-- The sums of moves. -/
def sumMoves (moves : List Move) : Except DeriveError TransferSums :=
  moves.foldlM addMove ⟨FinMap.empty, FinMap.empty, FinMap.empty⟩

/-- The writes of a transfer. -/
def transferWrites (sums : TransferSums) : List Write :=
  sums.debits.entries.map (fun e => ⟨e.1, .deltaSub, e.2⟩) ++
    sums.credits.entries.map (fun e => ⟨e.1, .deltaAdd, e.2⟩) ++
    sums.oneShotDebited.entries.map fun e => markSpentWrite e.1

/-- The guards of a transfer. -/
def transferReads (sums : TransferSums) : List Read :=
  sums.debits.entries.map fun e => ⟨e.1, .guardGE, e.2⟩

/-- The read and write set of a transfer. -/
def deriveTransfer (moves : List Move) : Except DeriveError (List Read × List Write) := do
  rejectIf (moves.isEmpty = true) .emptyProgram
  let sums ← sumMoves moves
  rejectIf (∃ e ∈ sums.debits.entries, sums.credits.contains e.1 = true) .slotBothWays
  return (sortReads (transferReads sums), sortWrites (transferWrites sums))

/-- The read and write set of an issue. The exact read of the cap cell is the write-once lock. -/
def deriveIssue (args : IssueArgs) (chainID seq : UInt64) :
    Except DeriveError (List Read × List Write) := do
  rejectIf (isUserAddress args.issuer = false) .badIssuer
  rejectIf (args.cap.isZero = true) .zeroCap
  let asset := deriveAssetAddress chainID args.issuer seq
  return (sortReads [⟨assetCapSlot asset, .exact, 0⟩],
    sortWrites [⟨assetCapSlot asset, .set, args.cap⟩,
      ⟨assetDecimalsSlot asset, .set, .fromUint64 args.decimals.toUInt64⟩,
      ⟨assetSymbolSlot asset, .set, .fromBytes args.symbolHash⟩,
      ⟨assetMinterSlot asset, .set, .fromBytes args.minter⟩])

/-- The read and write set of a mint. -/
def deriveMint (args : MintArgs) : Except DeriveError (List Read × List Write) := do
  rejectIf (args.asset.version ≠ addrVersionAsset) .badAsset
  rejectIf (isUserAddress args.dst = false) .badDst
  rejectIf (args.amount.isZero = true) .zeroAmount
  rejectIf (args.cap.isZero = true) .zeroCap
  rejectIf (args.amount > args.cap) .amountOverCap
  let remainder := (args.cap.sub args.amount).1
  return (sortReads [⟨assetCapSlot args.asset, .exact, args.cap⟩,
      ⟨assetMinterSlot args.asset, .exact, .fromBytes args.minter⟩,
      ⟨assetMintedSlot args.asset, .guardLE, remainder⟩],
    sortWrites [⟨assetMintedSlot args.asset, .deltaAdd, args.amount⟩,
      ⟨balanceSlot args.dst args.asset, .deltaAdd, args.amount⟩])

/-- What a retirement reads and writes. -/
def deriveRetire (addrs : List Address) : Except DeriveError (List Read × List Write) := do
  rejectIf (addrs.isEmpty = true) .emptyProgram
  checkRetire none addrs
  return ([], sortWrites (addrs.map markSpentWrite))

/-- The canonical read and write set of a program. -/
def derive (prog : Program) (chainID seq : UInt64) : Except DeriveError (List Read × List Write) :=
  match prog with
  | .transfer moves => deriveTransfer moves
  | .issue args => deriveIssue args chainID seq
  | .mint args => deriveMint args
  | .retire addrs => deriveRetire addrs

/-- Add the burn of a one-shot deposit address, unless the program already burns it. -/
def withDepositMarkSpent (writes : List Write) (deposit : Address) : List Write :=
  if deposit.version ≠ addrVersionOneShot then writes
  else if ∃ w ∈ writes, w.op = .markSpent ∧ w.slot.addr = deposit then writes
  else sortWrites (writes ++ [markSpentWrite deposit])

/-- What a certificate reads and writes. -/
def deriveCert (prog : Program) (chainID seq : UInt64) (depositCell : Address) :
    Except DeriveError (List Read × List Write) := do
  let (reads, writes) ← derive prog chainID seq
  return (reads, withDepositMarkSpent writes depositCell)

end

end Zycord.Validity
