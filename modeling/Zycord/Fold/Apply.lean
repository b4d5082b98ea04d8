import Zycord.Fold.BlockRules

/-!
# The state-transition function

The fold (`core/fold/fold.go`): what a block does to the state, certificate by certificate in fold
order, and then the end-of-block steps. The functions that cannot fail work on a `Journal`, the
state with its undo log; the others run in `FoldM`, where a failure keeps what was written, so
that every exit after the first write has to undo by itself, as in the source.
-/

namespace Zycord.Fold

open Crypto

/-! ## Results -/

/-- What happened to one certificate at its committed position. -/
inductive Outcome where
  | applied
  | skippedStale
  | skippedOverflow
  | dropped
deriving DecidableEq

/-- What the fold did with one certificate. -/
structure CertOutcome where
  id : Hash
  outcome : Outcome
  charged : U256
  refunded : U256
  refundBurned : U256
  swept : U256
  sweptStranded : U256
  strandedCells : UInt32
deriving DecidableEq

/-- The record of a certificate whose deposit could not be reserved. -/
def CertOutcome.drop (id : Hash) : CertOutcome := ⟨id, .dropped, 0, 0, 0, 0, 0, 0⟩

/-- Everything the fold produces besides the new state. -/
structure Result where
  outcomes : List CertOutcome
  seqGasUsed : UInt64
  parGasUsed : UInt64
  seqGasApplied : UInt64
  parGasApplied : UInt64
  burned : U256
  minerReward : U256
  treasury : U256
  matured : U256
  stateRoot : Hash
  undo : UndoLog
deriving DecidableEq

/-- The result a block starts with. -/
def Result.empty : Result := ⟨[], 0, 0, 0, 0, 0, 0, 0, 0, 0, UndoLog.empty⟩

/-! ## The journal -/

/-- The state together with the log of what was changed in it. -/
structure Journal where
  s : State
  log : UndoLog

namespace Journal

/-- Write a cell, recording what it held. -/
def set (j : Journal) (slot : Slot) (v : U256) : Journal where
  s := j.s.set slot v
  log := { j.log with cells := j.log.cells ++ [⟨slot, j.s.get slot⟩] }

/-- Burn an address, unless it is burned already. -/
def markSpent (j : Journal) (a : Address) : Journal :=
  if j.s.isSpent a then j
  else ⟨j.s.markSpent a, { j.log with spentAdded := j.log.spentAdded ++ [a] }⟩

/-- Record an id, unless it is recorded already. -/
def markSeen (j : Journal) (id : Hash) (ttl : UInt64) : Journal :=
  if (j.s.seenTTL id).isSome then j
  else ⟨j.s.markSeen id ttl, { j.log with seenAdded := j.log.seenAdded ++ [id] }⟩

/-- Drop the expired ids, recording them. -/
def pruneSeen (j : Journal) (below : UInt64) : Journal :=
  ⟨j.s.pruneSeen below, { j.log with seenRemoved := j.s.expired below }⟩

/-- Reverse everything recorded. -/
def undo (j : Journal) : Journal := ⟨j.s.undo j.log, j.log⟩

/-- Write cells in order. -/
def setAll (j : Journal) (cells : List (Slot × U256)) : Journal :=
  cells.foldl (fun j e => j.set e.1 e.2) j

/-- Burn addresses in order. -/
def markAllSpent (j : Journal) (addrs : List Address) : Journal := addrs.foldl markSpent j

end Journal

/-- What the fold computes on. -/
structure FoldState where
  j : Journal
  res : Result

/-- Steps of the fold. -/
abbrev FoldM := Mut FoldState FoldError

/-- The state as it stands. -/
def getState : FoldM State := fun σ => (.ok σ.j.s, σ)

/-- A step on the journal. -/
def onJournal (f : Journal → Journal) : FoldM Unit := Mut.modify fun σ => { σ with j := f σ.j }

/-- A step on the result. -/
def onResult (f : Result → Result) : FoldM Unit := Mut.modify fun σ => { σ with res := f σ.res }

/-- Undo everything when a computation fails: the error exits of `apply`. -/
def orUndo {α : Type} (m : FoldM α) : FoldM α := m.orElse fun σ => { σ with j := σ.j.undo }

/-- Fail with a conservation assertion when an operation's flag is up. -/
def conserve (r : U256 × Bool) (what : String) : FoldM U256 :=
  Mut.ofOption (U256.checked r) (.conservationFailure what)

/-- Add to the value the block destroys. -/
def addBurned (v : U256) (what : String) : FoldM Unit := do
  let σ ← Mut.get
  let burned ← conserve (σ.res.burned.add v) what
  onResult fun res => { res with burned }

/-! ## One certificate -/

/-- Whether one declared read holds. -/
def readHolds (s : State) (r : Read) : Bool :=
  !s.isSpent r.slot.addr &&
    match r.access with
    | .exact | .guardEQ => s.get r.slot = r.operand
    | .guardGE => !(s.get r.slot < r.operand)
    | .guardLE => !(s.get r.slot > r.operand)
    | .unknown _ => false

/-- Whether every declared read holds. -/
def readsHold (s : State) (c : Certificate) : Bool := c.reads.all (readHolds s)

/-- The cells and burns a certificate is about to commit. -/
structure Overlay where
  cells : List (Slot × U256)
  spend : List Address
deriving DecidableEq

/-- Stage one write against the pre-certificate state. -/
def stageWrite (s : State) (ov : Overlay) (w : Write) : Except Outcome Overlay :=
  if s.isSpent w.slot.addr then .error .skippedStale
  else
    match w.op with
    | .markSpent => .ok { ov with spend := ov.spend ++ [w.slot.addr] }
    | .set => .ok { ov with cells := ov.cells ++ [(w.slot, w.value)] }
    | .deltaAdd =>
      match U256.checked ((s.get w.slot).add w.value) with
      | none => .error .skippedOverflow
      | some v => .ok { ov with cells := ov.cells ++ [(w.slot, v)] }
    | .deltaSub =>
      match U256.checked ((s.get w.slot).sub w.value) with
      | none => .error .skippedOverflow
      | some v => .ok { ov with cells := ov.cells ++ [(w.slot, v)] }
    | .unknown _ => .error .skippedOverflow

/-- Stage the writes of a certificate in order. -/
def stageWrites (s : State) (c : Certificate) : Except Outcome Overlay :=
  c.writes.foldlM (stageWrite s) ⟨[], []⟩

/-- Empty one cell under a burned address into the same word under `dst`; returns what was moved
and what had to be left behind. -/
def moveResidual (j : Journal) (src : Slot) (dst : Address) : Journal × U256 × U256 :=
  let v := j.s.get src
  if v.isZero then (j, 0, 0)
  else if j.s.isSpent dst then (j, 0, v)
  else
    match U256.checked ((j.s.get ⟨dst, src.word⟩).add v) with
    | none => (j, 0, v)
    | some sum => ((j.set src 0).set ⟨dst, src.word⟩ sum, v, 0)

/-- The running state of the sweep. -/
structure Sweep where
  j : Journal
  swept : U256
  stranded : U256
  cells : UInt32

/-- Sweep one cell the certificate names under a burned address; asset amounts are counted as
cells only. -/
def sweepCell (dst a : Address) (native : Slot → Bool) (acc : Sweep) (x : Write) : Sweep :=
  if x.slot.addr ≠ a || x.op = .markSpent || native x.slot then acc
  else
    let r := moveResidual acc.j x.slot dst
    { acc with j := r.1, cells := if r.2.2.isZero then acc.cells else acc.cells + 1 }

section

variable [Crypto]

/-- Sweep the native balance of a burned address. -/
def sweepNative (c : Certificate) (acc : Sweep) (a : Address) : Sweep :=
  let r := moveResidual acc.j (nativeBalanceSlot a) c.deposit.refundTo.addr
  ⟨r.1, acc.swept.satAdd r.2.1, acc.stranded.satAdd r.2.2,
    if r.2.2.isZero then acc.cells else acc.cells + 1⟩

/-- Sweep what an address holds that a write burns. -/
def sweepAddress (c : Certificate) (acc : Sweep) (w : Write) : Sweep :=
  if w.op ≠ .markSpent then acc
  else
    c.writes.foldl (sweepCell c.deposit.refundTo.addr w.slot.addr isNativeBalanceSlot)
      (sweepNative c acc w.slot.addr)

/-- Sweep all addresses a certificate burns. -/
def sweepBurned (c : Certificate) (j : Journal) : Sweep :=
  c.writes.foldl (sweepAddress c) ⟨j, 0, 0, 0⟩

/-- Pay the remainder of the deposit out, or burn it when its destination is burned; returns
what was refunded and what was burned. -/
def payRefund (c : Certificate) (refund : U256) : FoldM (U256 × U256) := do
  let s ← getState
  if refund.isZero then pure (0, 0)
  else if s.isSpent c.deposit.refundTo.addr then do
    addBurned refund "accumulated burn overflows 256 bits"
    pure (0, refund)
  else do
    let credited ← conserve ((s.get c.deposit.refundTo).add refund)
      "a refund overflows its destination cell"
    onJournal fun j => j.set c.deposit.refundTo credited
    pure (refund, 0)

/-- Charge the deposit, refund the remainder and mark the certificate seen. -/
def settle (c : Certificate) (id : Hash) (outcome : Outcome) (charge : U256) :
    FoldM CertOutcome := do
  (if outcome ≠ .applied then addBurned charge "accumulated burn overflows 256 bits"
    else pure ())
  let refund ← conserve (c.deposit.amount.sub charge) "charge exceeded a deposit that passed V5"
  let (refunded, refundBurned) ← payRefund c refund
  onJournal fun j => j.markSeen id c.ttl
  pure ⟨id, outcome, charge, refunded, refundBurned, 0, 0, 0⟩

/-- Commit the staged writes, sweep, and settle at actual cost: what is left to do for a
certificate that applies. -/
def commit (c : Certificate) (id : Hash) (p : Params) (seqBaseFee parBaseFee : U256)
    (ov : Overlay) : FoldM (CertOutcome × U256) := do
  onJournal fun j => (j.setAll ov.cells).markAllSpent ov.spend
  let σ ← Mut.get
  let sweep := sweepBurned c σ.j
  onJournal fun _ => sweep.j
  let fees ← Mut.ofOption (c.fees p seqBaseFee parBaseFee)
    (.conservationFailure "fee arithmetic overflowed a certificate that passed V5 and B4")
  addBurned fees.burned "accumulated burn overflows 256 bits"
  let out ← settle c id .applied fees.charge
  pure ({ out with
    swept := sweep.swept, sweptStranded := sweep.stranded, strandedCells := sweep.cells },
    fees.tip)

/-- Charge the skip fee and do nothing else. -/
def skip (c : Certificate) (id : Hash) (p : Params) (outcome : Outcome) :
    FoldM (CertOutcome × U256) := do
  let out ← settle c id outcome p.skipFee
  pure (out, 0)

/-- Execute one certificate: reserve the deposit, then apply, skip or drop it. Returns the record
and the tip. -/
def applyCertificate (c : Certificate) (id : Hash) (p : Params) (seqBaseFee parBaseFee : U256) :
    FoldM (CertOutcome × U256) := do
  Mut.require (isUserAddress c.deposit.cell.addr = true)
    (.invalid .F3 ("certificate " ++ hex id ++ " deposits from a non-user address"))
  let s ← getState
  if s.isSpent c.deposit.cell.addr then pure (.drop id, 0)
  else if s.get c.deposit.cell < c.deposit.amount then pure (.drop id, 0)
  else do
    onJournal fun j => j.set c.deposit.cell ((s.get c.deposit.cell).sub c.deposit.amount).1
    let s ← getState
    if !readsHold s c then skip c id p .skippedStale
    else
      match stageWrites s c with
      | .error reason => skip c id p reason
      | .ok ov => commit c id p seqBaseFee parBaseFee ov

/-! ## The block -/

/-- The order in which certificates are folded. -/
def foldLess (a b : Carried) : Bool :=
  if a.cert.underwriterID ≠ b.cert.underwriterID then
    a.cert.underwriterID < b.cert.underwriterID
  else if a.cert.seq ≠ b.cert.seq then a.cert.seq < b.cert.seq
  else a.id < b.id

/-- The canonical order; the proposer's is erased. -/
def foldOrder (cc : List Carried) : List Carried := cc.insertionSort fun a b => !foldLess b a

/-- Write the cells of the beacon. -/
def writeBeacon (h : Header) (p : Params) (j : Journal) : Journal :=
  ((j.set beaconEpochSlot (.fromUint64 (p.epoch h.height))).set
    beaconHeightSlot (.fromUint64 h.height)).set
    beaconEntropySlot (.ofNat (h.parentID.toNat / 2 ^ 128 * 2 ^ 128))

/-- The gas samples of the epoch in order. -/
def sortedSamples (p : Params) (s : State) : List UInt64 :=
  ((List.range p.epochLength.toNat).map fun i =>
    (s.get (appliedGasSampleSlot (UInt64.ofNat i))).uint64.1).insertionSort (· ≤ ·)

/-- Whether the epoch's citation rate is within the gate. -/
def healthy (p : Params) (s : State) : Bool :=
  let cited := (s.get citedCountSlot).uint64.1
  let citedRate := ((U256.fromUint64 cited).mul (.fromUint64 10000)).1
  let gateRate := ((U256.fromUint64 p.healthGateBps).mul (.fromUint64 p.epochLength)).1
  !(citedRate > gateRate)

/-- The epoch controller: move the target toward twice the median applied gas and restart the
citation count. -/
def updateSeqGasTarget (p : Params) (j : Journal) : Journal :=
  let median := (sortedSamples p j.s).getD ((p.epochLength - 1) / 2).toNat 0
  let t := (j.s.get seqGasTargetSlot).uint64.1
  let next := p.nextSeqGasTarget t (2 * median) (healthy p j.s)
  (j.set seqGasTargetSlot (.fromUint64 next)).set citedCountSlot 0

/-- The cells of the markets at genesis. -/
def initMarkets (p : Params) (j : Journal) : Journal :=
  ((j.set seqBaseFeeSlot p.initialSeqBaseFee).set parBaseFeeSlot p.initialParBaseFee).set
    seqGasTargetSlot (.fromUint64 p.seqGasTargetGenesis)

/-- The steps before any certificate runs. -/
def openBlock (h : Header) (p : Params) (j : Journal) : Journal :=
  let j := if p.isEpochBoundary h.height then writeBeacon h p j else j
  let j := if p.isEpochBoundary h.height && h.height > 0 then updateSeqGasTarget p j else j
  if h.height = 0 then initMarkets p j else j

/-- Count the gas of a certificate. -/
def countUsed (c : Certificate) (p : Params) (res : Result) : Result :=
  { res with
    seqGasUsed := res.seqGasUsed + c.seqGas p
    parGasUsed := res.parGasUsed + c.parGas p }

/-- Count the gas of an applied certificate. -/
def countApplied (c : Certificate) (p : Params) (res : Result) : Result :=
  { res with
    seqGasApplied := res.seqGasApplied + c.seqGas p
    parGasApplied := res.parGasApplied + c.parGas p }

/-- One iteration of the certificate loop; the accumulator is the producer's tips. -/
def applyNext (p : Params) (seqBaseFee parBaseFee : U256) (tips : U256) (cy : Carried) :
    FoldM U256 := do
  onResult (countUsed cy.cert p)
  let (out, tip) ← orUndo (applyCertificate cy.cert cy.id p seqBaseFee parBaseFee)
  onResult fun res => if out.outcome = .applied then countApplied cy.cert p res else res
  let tips ← orUndo (conserve (tips.add tip) "accumulated tips overflow 256 bits")
  onResult fun res => { res with outcomes := res.outcomes ++ [out] }
  pure tips

/-- Apply certificates in order and add up the tips. -/
def applyCerts (p : Params) (seqBaseFee parBaseFee : U256) (ordered : List Carried) : FoldM U256 :=
  ordered.foldlM (applyNext p seqBaseFee parBaseFee) 0

/-- The bookkeeping of the epoch controller and of the next block's citations. -/
def recordBlock (h : Header) (cites : List Header) (p : Params) (seqGasApplied : UInt64)
    (j : Journal) : Journal :=
  let j := j.set (appliedGasSampleSlot (h.height % p.epochLength)) (.fromUint64 seqGasApplied)
  let j :=
    if cites.length > 0 then
      j.set citedCountSlot
        (.fromUint64 ((j.s.get citedCountSlot).uint64.1 + UInt64.ofNat cites.length))
    else j
  (j.set prevParentIDSlot (.fromBytes h.parentID)).set prevTargetSlot h.target

/-- Forget the ids no block can include again. -/
def pruneExpired (h : Header) (j : Journal) : Journal :=
  if h.height ≥ 1 then j.pruneSeen (h.height - 1) else j

/-- The burst valve: a block above the sequential ceiling forfeits revenue quadratically. -/
def forfeitBurst (p : Params) (t : UInt64) (reward : U256) : FoldM U256 := do
  let σ ← Mut.get
  if σ.res.seqGasUsed > p.seqGasLimit t then do
    let excess := σ.res.seqGasUsed - p.seqGasLimit t
    let forfeit := (reward.mulDiv64 excess (p.seqGasLimit t)).mulDiv64 excess (p.seqGasLimit t)
    orUndo (addBurned forfeit "the burst forfeiture overflows the accumulated burn")
    pure (reward.satSub forfeit)
  else pure reward

/-- Credit the treasury; a zero credit is not written. -/
def creditTreasury (treasury : U256) : FoldM Unit := do
  let s ← getState
  if treasury.isZero then pure ()
  else do
    let credited ← orUndo (conserve ((s.get treasurySlot).add treasury)
      "the treasury cell overflows 256 bits")
    onJournal fun j => j.set treasurySlot credited

/-- Split the subsidy, add the tips, and pay the treasury. -/
def payReward (h : Header) (p : Params) (t : UInt64) (minerTips : U256) : FoldM Unit := do
  let subsidy := p.emission h.height
  let treasury := subsidy.mulDiv64 p.treasuryShareBps 10000
  let producer ← orUndo (conserve (subsidy.sub treasury) "the treasury share exceeds the subsidy")
  let reward ← orUndo (conserve (producer.add minerTips) "the block reward overflows 256 bits")
  let reward ← forfeitBurst p t reward
  onResult fun res => { res with minerReward := reward, treasury := treasury }
  creditTreasury treasury

/-- Release the reward that matures at this height, or burn it when its payee is burned. -/
def releaseMatured (index : UInt64) : FoldM U256 := do
  let s ← getState
  let amount := s.get (pendingCoinbaseAmountSlot index)
  let payee := (s.get (pendingCoinbaseAddrSlot index)).bytes32
  if amount.isZero then pure 0
  else if s.isSpent payee then do
    addBurned amount "accumulated burn overflows 256 bits"
    pure 0
  else do
    let credited ← conserve ((s.get (nativeBalanceSlot payee)).add amount)
      "a matured reward overflows its destination cell"
    onJournal fun j => j.set (nativeBalanceSlot payee) credited
    pure amount

/-- Put a reward into its ring entry; a zero reward clears the entry. -/
def storePending (index : UInt64) (payee : Address) (reward : U256) (j : Journal) : Journal :=
  if reward.isZero then
    (j.set (pendingCoinbaseAddrSlot index) 0).set (pendingCoinbaseAmountSlot index) 0
  else
    (j.set (pendingCoinbaseAddrSlot index) (.fromBytes payee)).set
      (pendingCoinbaseAmountSlot index) reward

/-- Release the reward that matured and store the new one in its place. -/
def rollCoinbaseRing (h : Header) (p : Params) : FoldM U256 := do
  let matured ← releaseMatured (h.height % p.coinbaseMaturity)
  let σ ← Mut.get
  onJournal (storePending (h.height % p.coinbaseMaturity) h.emissionAddr σ.res.minerReward)
  pure matured

/-- Steer the two base fees towards their targets by the gas applied. -/
def updateBaseFees (h : Header) (p : Params) (t : UInt64) (seqBaseFee parBaseFee : U256)
    (res : Result) (j : Journal) : Journal :=
  if h.height > 0 then
    let seqFeeInput :=
      if res.seqGasApplied > p.seqGasLimit t then p.seqGasLimit t else res.seqGasApplied
    (j.set seqBaseFeeSlot (p.nextBaseFee seqBaseFee seqFeeInput t)).set
      parBaseFeeSlot (p.nextBaseFee parBaseFee res.parGasApplied (p.parGasTarget t))
  else j

/-- Compute the epoch state root and compare it with the header's. -/
def sealRoot (h : Header) (p : Params) (checkRoot : Bool) : FoldM Unit := do
  let s ← getState
  if p.isEpochBoundary h.height then do
    onResult fun res => { res with stateRoot := s.root }
    orUndo (Mut.require (¬ (checkRoot = true ∧ s.root ≠ h.stateRoot))
      (.invalid .F14 ("state root mismatch at epoch boundary height " ++ toString h.height)))
  else pure ()

/-- Everything a block does once its rules are checked, on its certificates in fold order. -/
def transition (h : Header) (cites : List Header) (ordered : List Carried) (p : Params)
    (t : UInt64) (checkRoot : Bool) : FoldM Unit := do
  onJournal (openBlock h p)
  let s ← getState
  let seqBaseFee := s.get seqBaseFeeSlot
  let parBaseFee := s.get parBaseFeeSlot
  let minerTips ← applyCerts p seqBaseFee parBaseFee ordered
  let σ ← Mut.get
  onJournal (recordBlock h cites p σ.res.seqGasApplied)
  onJournal (pruneExpired h)
  payReward h p t minerTips
  let matured ← orUndo (rollCoinbaseRing h p)
  onResult fun res => { res with matured }
  let σ ← Mut.get
  onJournal (updateBaseFees h p t seqBaseFee parBaseFee σ.res)
  sealRoot h p checkRoot

/-- Apply a block: the result or the error, and the state as it is left. -/
def apply (s : State) (b : Block) (p : Params) (checkRoot : Bool) :
    Except FoldError Result × State :=
  let cc := carry b.certs
  match checkBlockRules s b p cc with
  | .error e => (.error e, s)
  | .ok () =>
    let t := currentSeqGasTarget s p b.header.height
    match transition b.header b.cites (foldOrder cc) p t checkRoot
        ⟨⟨s, UndoLog.empty⟩, Result.empty⟩ with
    | (.ok (), σ) => (.ok { σ.res with undo := σ.j.log }, σ.j.s)
    | (.error e, σ) => (.error e, σ.j.s)

/-- The state-transition function. -/
def applyBlock (s : State) (b : Block) (p : Params) : Except FoldError Result × State :=
  apply s b p true

/-- Report what a block would do, without committing it: the fold on a copy, with the comparison
of the state root off. -/
def sealOutcomes (s : State) (b : Block) (p : Params) : Except FoldError Result :=
  (apply s b p false).1

/-- The root that a block has to name. -/
def sealStateRoot (s : State) (b : Block) (p : Params) : Except FoldError Hash :=
  (apply s b p false).1.map Result.stateRoot

/-- Reverse the application of a block. -/
def undoBlock (s : State) (log : UndoLog) : State := s.undo log

/-! ## Reading one application -/

variable {s s' : State} {b : Block} {p : Params} {checkRoot : Bool}

/-- A block that applies meets the rules and its transition succeeds. -/
theorem apply_eq_ok {r : Result} (h : apply s b p checkRoot = (.ok r, s')) :
    BlockOK s b p ∧ ∃ σ, transition b.header b.cites (foldOrder (carry b.certs)) p
        (currentSeqGasTarget s p b.header.height) checkRoot
        ⟨⟨s, UndoLog.empty⟩, Result.empty⟩ = (.ok (), σ) ∧
      r = { σ.res with undo := σ.j.log } ∧ s' = σ.j.s := by
  unfold apply at h
  dsimp only at h
  split at h
  · simp at h
  · rename_i hrules
    split at h
    · rename_i σ hσ
      simp only [Prod.mk.injEq, Except.ok.injEq] at h
      exact ⟨check_block_rules_eq_ok.mp hrules, σ, hσ, h.1.symm, h.2.symm⟩
    · simp at h

/-- Where a failed application failed, and the state it leaves. -/
theorem apply_eq_error {e : FoldError} (h : apply s b p checkRoot = (.error e, s')) :
    (checkBlockRules s b p (carry b.certs) = .error e ∧ s' = s) ∨ BlockOK s b p ∧ ∃ σ,
        transition b.header b.cites (foldOrder (carry b.certs)) p
          (currentSeqGasTarget s p b.header.height) checkRoot
          ⟨⟨s, UndoLog.empty⟩, Result.empty⟩ = (.error e, σ) ∧ s' = σ.j.s := by
  unfold apply at h
  dsimp only at h
  split at h
  · rename_i hrules
    simp only [Prod.mk.injEq, Except.error.injEq] at h
    exact Or.inl ⟨h.1 ▸ hrules, h.2.symm⟩
  · rename_i hrules
    split at h
    · simp at h
    · rename_i e' σ hσ
      simp only [Prod.mk.injEq, Except.error.injEq] at h
      exact Or.inr ⟨check_block_rules_eq_ok.mp hrules, σ, h.1 ▸ hσ, h.2.symm⟩

omit [Crypto] in
theorem fold_order_perm (cc : List Carried) : (foldOrder cc).Perm cc := List.perm_insertionSort _ _

theorem mem_fold_order {cy : Carried} :
    cy ∈ foldOrder (carry b.certs) ↔ ∃ c ∈ b.certs, cy = ⟨c, c.id⟩ := by
  rw [(fold_order_perm _).mem_iff, carry, List.mem_map]
  constructor <;> rintro ⟨c, hc, h⟩ <;> exact ⟨c, hc, h.symm⟩

end

end Zycord.Fold
