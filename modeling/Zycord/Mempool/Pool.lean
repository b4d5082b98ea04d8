import Zycord.Core.Block
import Zycord.Core.State
import Zycord.Lib.Heap
import Zycord.Validity.Check

/-!
# The certificate pool

The pool of validated certificates (`node/mempool`): admission with its screen and its two
room-making passes, the heap that bounds the eviction floor, removal, and the sweep after a block.
The pool's fields stand in three groups: the `Book` of who is pooled and what is counted about
them, the `FloorHint` behind the cheap refusal, and the `Counts` that are only reported.

Go visits a map in an order of its own choosing. `Visit` holds such orders, and every loop of an
admission over the pooled entries takes one. Methods that return an error are `Mut Pool PoolError`:
an error keeps what was written before it. The `int` fields of a policy are 64-bit, with the wrap of
their products; sizes and counts of what is held in memory are natural numbers.
-/

namespace Zycord.Mempool

open Validity

variable [Crypto]

/-! ## Refusals and policy -/

/-- Why a certificate is not pooled. -/
inductive PoolError where
  | invalid (cause : RuleError)
  | alreadyPooled
  | alreadyCommitted
  | expired
  | ttlTooFar
  | ttlTooNear
  | underfunded
  | belowFloor
  | tooManyInFlight
  | full
  | belowEvictionFloor
deriving DecidableEq

/-- The text of a refusal. -/
def PoolError.message : PoolError → String
  | invalid cause => "mempool: " ++ cause.rule.name ++ ": " ++ cause.err
  | alreadyPooled => "mempool: already pooled"
  | alreadyCommitted => "mempool: already committed on this chain"
  | expired => "mempool: TTL has passed"
  | ttlTooFar => "mempool: TTL is beyond the consensus bound"
  | ttlTooNear => "mempool: TTL leaves no room to be included"
  | underfunded => "mempool: the deposit does not cover at the current tip"
  | belowFloor => "mempool: fee maximum is below the current base fee"
  | tooManyInFlight => "mempool: the underwriter has too many certificates in flight"
  | full => "mempool: full"
  | belowEvictionFloor =>
    "mempool: full, and this certificate does not outbid the cheapest resident " ++
      "by the required margin"

/-- The half of admission that is not consensus. -/
structure Policy where
  maxCertificates : Int64
  maxBytes : Int64
  maxPerUnderwriter : Int64
  minTTLLead : UInt64
  evictionBumpPercent : UInt64
  evictionHighWater : UInt64
  evictionLowWater : UInt64

/-- The shipped policy. -/
def defaultPolicy : Policy where
  maxCertificates := 20000
  maxBytes := 32 * 1024 * 1024
  maxPerUnderwriter := 64
  minTTLLead := 2
  evictionBumpPercent := 10
  evictionHighWater := 90
  evictionLowWater := 85

namespace Policy

variable (policy : Policy)

/-- The occupancy of a budget at which eviction engages. -/
def highMark (limit : Int64) : Int64 :=
  let n := limit * policy.evictionHighWater.toInt64 / 100
  let n := if n < 1 then 1 else n
  if n > limit then limit else n

/-- The occupancy of a budget that eviction clears down to. -/
def lowMark (limit : Int64) : Int64 :=
  let n := limit * policy.evictionLowWater.toInt64 / 100
  let n := if n < 0 then 0 else n
  if n ≥ policy.highMark limit then policy.highMark limit - 1 else n

/-- The certificate count at which eviction engages. -/
def highWater : Int64 := policy.highMark policy.maxCertificates

/-- The certificate count that eviction clears down to. -/
def lowWater : Int64 := policy.lowMark policy.maxCertificates

/-- The encoded size at which eviction engages. -/
def byteHighWater : Int64 := policy.highMark policy.maxBytes

/-- The encoded size that eviction clears down to. -/
def byteLowWater : Int64 := policy.lowMark policy.maxBytes

end Policy

/-! ## The pool -/

/-- A pooled certificate and what is cached about it: its id, its encoded size and what the fold
would reserve for it. -/
structure Entry where
  cert : Certificate
  id : Hash
  bytes : ℕ
  reserve : U256
deriving DecidableEq

namespace Entry

/-- The price an entry declares for sequential gas. -/
def priority (e : Entry) : U256 := e.cert.feeBid.seqPriority

/-- Who pays for an entry. -/
def underwriter (e : Entry) : Address := e.cert.underwriterID

/-- An entry's place in its underwriter's chain. -/
def seq (e : Entry) : UInt64 := e.cert.seq

end Entry

/-- What the pool holds: the entries by id, and per underwriter how many they are and what they
reserve together, and the size of them all. -/
structure Book where
  byID : FinMap Hash Entry
  keyed : ∀ x ∈ byID.entries, x.2.id = x.1
  byUnderwriter : FinFun Address ℕ
  byUnderwriterReserve : FinFun Address U256
  totalBytes : ℕ

namespace Book

/-- The book without an entry. -/
def empty : Book := ⟨.empty, by simp [FinMap.empty], .empty, .empty, 0⟩

/-- The pooled entries, in the order of their ids. -/
def residents (b : Book) : List Entry := b.byID.entries.map Prod.snd

/-- Whether an id is pooled. -/
def has (b : Book) (id : Hash) : Bool := b.byID.contains id

/-- Enter a certificate. -/
def insert (b : Book) (e : Entry) : Book where
  byID := b.byID.insert e.id e
  keyed := fun x hx => by
    rcases FinMap.mem_insert_list hx with rfl | hx
    · rfl
    · exact b.keyed x hx
  byUnderwriter := b.byUnderwriter.set e.underwriter (b.byUnderwriter.get e.underwriter + 1)
  byUnderwriterReserve := b.byUnderwriterReserve.set e.underwriter
    ((b.byUnderwriterReserve.get e.underwriter).satAdd e.reserve)
  totalBytes := b.totalBytes + e.bytes

/-- Take an entry out. The last entry of an underwriter takes the underwriter's figures along. -/
def take (b : Book) (e : Entry) : Book where
  byID := b.byID.erase e.id
  keyed := fun x hx => b.keyed x (List.mem_of_mem_filter hx)
  byUnderwriter :=
    if b.byUnderwriter.get e.underwriter ≤ 1 then b.byUnderwriter.set e.underwriter 0
    else b.byUnderwriter.set e.underwriter (b.byUnderwriter.get e.underwriter - 1)
  byUnderwriterReserve :=
    if b.byUnderwriter.get e.underwriter ≤ 1 then b.byUnderwriterReserve.set e.underwriter 0
    else b.byUnderwriterReserve.set e.underwriter
      ((b.byUnderwriterReserve.get e.underwriter).satSub e.reserve)
  totalBytes := b.totalBytes - e.bytes

end Book

/-- One admitted certificate's price in the heap of the floor hint. -/
structure HintItem where
  price : U256
  id : Hash
  underwriter : Address
  seq : UInt64
deriving DecidableEq

/-- What the cheap refusal is read from: a min-heap of prices, the highest pooled `Seq` of each
underwriter as of the last rebuild, and whether something was removed since. -/
structure FloorHint where
  heap : List HintItem
  tailSeq : FinFun Address UInt64
  stale : Bool

/-- What the pool reports about itself. -/
structure Counts where
  admitted : UInt64
  rejected : UInt64
  evicted : UInt64

/-- A pool. -/
structure Pool where
  policy : Policy
  book : Book
  hint : FloorHint
  counts : Counts

/-- The read-only view of consensus state that the pool screens against. -/
structure StateReader where
  get : Slot → U256
  isSpent : Address → Bool
  seen : Hash → Option UInt64

/-- The loops of an admission that visit the pooled entries. -/
inductive Loop where
  | prices
  | candidates
  | tails
  | fresh

/-- The orders in which the loops of one call visit the pooled entries. -/
structure Visit where
  order : Loop → List Entry → List Entry
  perm : ∀ loop l, (order loop l).Perm l

/-- The order of the ids. -/
def Visit.byID : Visit := ⟨fun _ l => l, fun _ _ => .refl _⟩

namespace Pool

/-- A pool without entries. -/
def new (policy : Policy) : Pool := ⟨policy, .empty, ⟨[], .empty, false⟩, ⟨0, 0, 0⟩⟩

/-- Whether an id is pooled. -/
def has (pool : Pool) (id : Hash) : Bool := pool.book.has id

/-- Count a refusal. -/
def countRejected (pool : Pool) : Pool :=
  { pool with counts := { pool.counts with rejected := pool.counts.rejected + 1 } }

/-- Count an admission. -/
def countAdmitted (pool : Pool) : Pool :=
  { pool with counts := { pool.counts with admitted := pool.counts.admitted + 1 } }

/-- Count an eviction. -/
def countEvicted (pool : Pool) : Pool :=
  { pool with counts := { pool.counts with evicted := pool.counts.evicted + 1 } }

/-- Drop a certificate by id. What was removed may have made a chain interior a tail, which the
hint has to learn. -/
def removeLocked (pool : Pool) (id : Hash) : Pool :=
  match pool.book.byID.find? id with
  | none => pool
  | some e => { pool with book := pool.book.take e, hint := { pool.hint with stale := true } }

/-- Drop certificates by id. -/
def remove (pool : Pool) (ids : List Hash) : Pool := ids.foldl removeLocked pool

/-- Remove entries and count them. -/
def evictAll (pool : Pool) (ids : List Hash) : Pool :=
  ids.foldl (fun pool id => (pool.removeLocked id).countEvicted) pool

end Pool

/-! ## The screen -/

/-- What the gates of the screen computed that admission needs again. -/
structure Screened where
  underwriter : Address
  reserve : U256

/-- The gates that refuse at a price that does not depend on the pool's size. -/
def gates (p : Params) (pool : Pool) (c : Certificate) (id : Hash) (s : StateReader)
    (tipHeight : UInt64) : Except PoolError Screened := do
  rejectIf (pool.has id = true) .alreadyPooled
  let next := tipHeight + 1
  rejectIf (c.ttl < next) .expired
  rejectIf (c.ttl - next > p.ttlMax) .ttlTooFar
  rejectIf (c.ttl - tipHeight < pool.policy.minTTLLead) .ttlTooNear
  rejectIf ((s.seen id).isSome = true) .alreadyCommitted
  rejectIf (c.feeBid.seqMax < s.get seqBaseFeeSlot ∨ c.feeBid.parMax < s.get parBaseFeeSlot)
    .belowFloor
  match c.feeCeiling p with
  | none => .error .underfunded
  | some ceiling => do
      let reserve := U256.maxOf c.deposit.amount ceiling
      let required := (pool.book.byUnderwriterReserve.get c.underwriterID).satAdd reserve
      rejectIf (s.isSpent c.deposit.cell.addr = true ∨ s.get c.deposit.cell < required)
        .underfunded
      rejectIf (pool.policy.maxPerUnderwriter.toInt ≤ pool.book.byUnderwriter.get c.underwriterID)
        .tooManyInFlight
      return ⟨c.underwriterID, reserve⟩

/-- Screen an arrival. A refusal is counted, except that of a certificate already pooled. -/
def screen (p : Params) (c : Certificate) (id : Hash) (s : StateReader) (tipHeight : UInt64) :
    Mut Pool PoolError Screened := fun pool =>
  match gates p pool c id s tipHeight with
  | .ok passed => (.ok passed, pool)
  | .error e => (.error e, if e = .alreadyPooled then pool else pool.countRejected)

/-! ## Making room -/

/-- Whether an arrival's price exceeds a resident's by at least the bump, which is at least one
drop. -/
def beatsByBump (arrival resident : U256) (bumpPercent : UInt64) : Bool :=
  let bump := resident.mulDiv64 bumpPercent 100
  let bump := if bump.isZero then 1 else bump
  resident.satAdd bump ≤ arrival

/-- What the pool knows about one underwriter's entries: their highest `Seq` and the lowest price
among them. -/
structure ChainPrice where
  maxSeq : UInt64
  price : U256

/-- Add an entry to the summary of its underwriter. -/
def addPrice (out : FinMap Address ChainPrice) (e : Entry) : FinMap Address ChainPrice :=
  match out.find? e.underwriter with
  | none => out.insert e.underwriter ⟨e.seq, e.priority⟩
  | some c =>
    out.insert e.underwriter
      ⟨if e.seq > c.maxSeq then e.seq else c.maxSeq, U256.minOf c.price e.priority⟩

/-- The summary of every underwriter's entries. -/
def chainPrices (visit : Visit) (b : Book) : FinMap Address ChainPrice :=
  (visit.order .prices b.residents).foldl addPrice .empty

/-- The summary of one underwriter; one without entries reads as zeros. -/
def priceOf (prices : FinMap Address ChainPrice) (u : Address) : ChainPrice :=
  (prices.find? u).getD ⟨0, 0⟩

/-- Whether an entry may leave without stranding one above it. -/
def evictable (prices : FinMap Address ChainPrice) (e : Entry) : Bool :=
  e.seq = (priceOf prices e.underwriter).maxSeq

/-- Whether a place is below the arrival in the arrival's own chain. -/
def ownChainBase (arrival : Certificate) (seq : UInt64) (underwriter : Address) : Bool :=
  seq < arrival.seq ∧ underwriter = arrival.underwriterID

/-- A resident an arrival may take, with the price of its chain. -/
structure Candidate where
  entry : Entry
  chainPrice : U256

/-- The residents this arrival could take, and the lowest price among them. -/
def evictionCandidates (visit : Visit) (b : Book) (prices : FinMap Address ChainPrice)
    (arrival : Certificate) : Option (List Candidate × U256) :=
  let out := ((visit.order .candidates b.residents).filter fun e =>
      evictable prices e && !ownChainBase arrival e.seq e.underwriter).map
    fun e => (⟨e, (priceOf prices e.underwriter).price⟩ : Candidate)
  match out with
  | [] => none
  | first :: rest =>
    some (out, rest.foldl (fun floor c =>
      if c.entry.priority < floor then c.entry.priority else floor) first.entry.priority)

/-- The order in which residents leave: by the price of their chain, then by their own, then by
id. -/
def Candidate.Before (a b : Candidate) : Prop :=
  a.chainPrice < b.chainPrice ∨ a.chainPrice = b.chainPrice ∧
    (a.entry.priority < b.entry.priority ∨ a.entry.priority = b.entry.priority ∧
      a.entry.id ≤ b.entry.id)

/-- The order of candidates can be decided. -/
instance : DecidableRel Candidate.Before := fun _ _ => inferInstanceAs (Decidable (_ ∨ _))

/-- The residents the arrival outbids, cheapest chain first. -/
def evictionOrder (candidates : List Candidate) (arrival : Certificate) (bump : UInt64) :
    List Entry :=
  ((candidates.filter fun c =>
    beatsByBump arrival.feeBid.seqPriority c.entry.priority bump).insertionSort
      Candidate.Before).map Candidate.entry

/-- Remove residents in order until a mark is reached. Both conditions on a victim are checked
again at its removal. -/
def evict (reached : Book → Bool) (arrival : Certificate) : List Entry → Pool → Pool
  | [], pool => pool
  | v :: rest, pool =>
    if reached pool.book then pool
    else if !beatsByBump arrival.feeBid.seqPriority v.priority pool.policy.evictionBumpPercent then
      evict reached arrival rest pool
    else if ownChainBase arrival v.seq v.underwriter then evict reached arrival rest pool
    else evict reached arrival rest (pool.removeLocked v.id).countEvicted

/-! ## The floor hint -/

/-- Raise an underwriter's highest `Seq`. An underwriter without an entry reads as zero, so one
whose only `Seq` is zero needs no entry. -/
def raiseTail (tails : FinFun Address UInt64) (u : Address) (seq : UInt64) :
    FinFun Address UInt64 :=
  if seq > tails.get u then tails.set u seq else tails

/-- The item of an entry. -/
def hintItem (e : Entry) : HintItem := ⟨e.priority, e.id, e.underwriter, e.seq⟩

/-- The hint recomputed from the pooled entries, holding only those that may leave. -/
def rebuildFloorHint (visit : Visit) (b : Book) : FloorHint :=
  let tails := (visit.order .tails b.residents).foldl
    (fun t e => raiseTail t e.underwriter e.seq) .empty
  let fresh := ((visit.order .fresh b.residents).filter fun e =>
    e.seq = tails.get e.underwriter).map hintItem
  ⟨Heap.heapify HintItem.price fresh, tails, false⟩

/-- How far the heap may outgrow the pool before it is rebuilt. -/
def floorHintRebuildSlack : ℕ := 64

/-- Record the price of a certificate just admitted. -/
def pushFloorHint (visit : Visit) (pool : Pool) (item : HintItem) : Pool :=
  let hint : FloorHint := { pool.hint with
    tailSeq := raiseTail pool.hint.tailSeq item.underwriter item.seq
    heap := Heap.push HintItem.price pool.hint.heap item }
  if hint.heap.length > 2 * pool.book.residents.length ∧
      hint.heap.length > floorHintRebuildSlack then
    { pool with hint := rebuildFloorHint visit pool.book }
  else { pool with hint := hint }

/-- Take items off the heap until one surfaces that is pooled and may leave. -/
def cleanTop (b : Book) (tailSeq : FinFun Address UInt64) :
    ℕ → List HintItem → Option HintItem × List HintItem
  | 0, heap => (none, heap)
  | _ + 1, [] => (none, [])
  | fuel + 1, top :: rest =>
    if b.has top.id = true ∧ top.seq = tailSeq.get top.underwriter then (some top, top :: rest)
    else cleanTop b tailSeq fuel (Heap.pop HintItem.price (top :: rest))

/-- The cheapest item of the heap that is pooled and may leave. -/
def floorHintTop (visit : Visit) (pool : Pool) : Option HintItem × Pool :=
  let hint := if pool.hint.stale then rebuildFloorHint visit pool.book else pool.hint
  let (top, heap) := cleanTop pool.book hint.tailSeq hint.heap.length hint.heap
  (top, { pool with hint := { hint with heap := heap } })

/-- A lower bound on the eviction floor for one arrival, past the arrival's own chain. -/
def floorLowerBoundFor (visit : Visit) (arrival : Certificate) (pool : Pool) : Option U256 × Pool :=
  match floorHintTop visit pool with
  | (none, pool) => (none, pool)
  | (some top, pool) =>
    if ownChainBase arrival top.seq top.underwriter = false then (some top.price, pool)
    else
      (Heap.frontier HintItem.price (fun item => ownChainBase arrival item.seq item.underwriter)
        pool.hint.heap, pool)

/-- How an arrival's eviction floor is bounded before it is computed. -/
abbrev Bound := Visit → Certificate → Pool → Option U256 × Pool

/-- No bound: the fast path switched off. -/
def unbounded : Bound := fun _ _ pool => (none, pool)

/-- One room-making pass: refuse an arrival that does not clear the floor, else remove what it
outbids until the mark is reached, and refuse it still if the budget is exceeded. -/
def makeRoom (bound : Bound) (visit : Visit) (reached overfull : Book → Bool)
    (arrival : Certificate) : Mut Pool PoolError Unit := fun pool =>
  let bump := pool.policy.evictionBumpPercent
  let (hint, pool) := bound visit arrival pool
  if (hint.any fun h => !beatsByBump arrival.feeBid.seqPriority h bump) = true then
    (.error .belowEvictionFloor, pool)
  else
    match evictionCandidates visit pool.book (chainPrices visit pool.book) arrival with
    | none => (.error .full, pool)
    | some (candidates, floor) =>
      if beatsByBump arrival.feeBid.seqPriority floor bump = false then
        (.error .belowEvictionFloor, pool)
      else
        let pool := evict reached arrival (evictionOrder candidates arrival bump) pool
        if overfull pool.book then (.error .full, pool) else (.ok (), pool)

/-- The number of entries is down to the low-water mark. -/
def countReached (policy : Policy) (b : Book) : Bool :=
  b.residents.length ≤ policy.lowWater.toInt

/-- The number of entries is at the cap. -/
def countFull (policy : Policy) (b : Book) : Bool :=
  policy.maxCertificates.toInt ≤ b.residents.length

/-- The encoded size is down to the low-water mark. -/
def bytesReached (policy : Policy) (b : Book) : Bool := b.totalBytes ≤ policy.byteLowWater.toInt

/-- The encoded size with the arrival is over the cap. -/
def bytesFull (policy : Policy) (arrivalBytes : ℕ) (b : Book) : Bool :=
  policy.maxBytes.toInt < (b.totalBytes + arrivalBytes : ℕ)

/-- Make room by count. -/
def makeRoomFor (bound : Bound) (visit : Visit) (arrival : Certificate) :
    Mut Pool PoolError Unit := fun pool =>
  makeRoom bound visit (countReached pool.policy) (countFull pool.policy) arrival pool

/-- Make room by size. -/
def makeByteRoomFor (bound : Bound) (visit : Visit) (arrival : Certificate) (arrivalBytes : ℕ) :
    Mut Pool PoolError Unit := fun pool =>
  makeRoom bound visit (bytesReached pool.policy) (bytesFull pool.policy arrivalBytes) arrival pool

/-! ## Admission -/

/-- Count a refusal before passing it on. -/
def counted (m : Mut Pool PoolError Unit) : Mut Pool PoolError Unit :=
  m.orElse Pool.countRejected

/-- The count budget of an arrival. -/
def countPass (bound : Bound) (visit : Visit) (c : Certificate) : Mut Pool PoolError Unit := do
  let pool ← Mut.get
  if pool.policy.highWater.toInt ≤ pool.book.residents.length then
    counted (makeRoomFor bound visit c)

/-- The byte budget of an arrival. -/
def bytePass (bound : Bound) (visit : Visit) (c : Certificate) : Mut Pool PoolError Unit := do
  let pool ← Mut.get
  if pool.policy.byteHighWater.toInt < (pool.book.totalBytes + c.sizeBytes : ℕ) then
    counted (makeByteRoomFor bound visit c c.sizeBytes)

/-- Enter an arrival that passed every gate. -/
def enter (visit : Visit) (c : Certificate) (reserve : U256) (pool : Pool) : Pool :=
  let e : Entry := ⟨c, c.id, c.sizeBytes, reserve⟩
  pushFloorHint visit { pool with book := pool.book.insert e }.countAdmitted (hintItem e)

/-- The part of `Add` that runs under one lock: screen again, make room, insert. -/
def admitCert (bound : Bound) (p : Params) (visit : Visit) (c : Certificate) (s : StateReader)
    (tipHeight : UInt64) : Mut Pool PoolError Unit := do
  let passed ← screen p c c.id s tipHeight
  countPass bound visit c
  bytePass bound visit c
  Mut.modify (enter visit c passed.reserve)

/-- The structural half of the validity rules, outside the lock; a failure is counted. -/
def checked (r : Except RuleError Unit) : Mut Pool PoolError Unit :=
  match r with
  | .ok () => pure ()
  | .error cause => counted (Mut.fail (.invalid cause))

/-- `Add` with a given bound on the floor: the cheap rules, the screen, the signatures, and the
admission proper. -/
def addWith (bound : Bound) (p : Params) (visit : Visit) (c : Certificate) (s : StateReader)
    (tipHeight : UInt64) : Mut Pool PoolError Unit := do
  checked (checkStructural c p)
  let _ ← screen p c c.id s tipHeight
  checked (checkSignatures c p)
  admitCert bound p visit c s tipHeight

/-- Admit a certificate, with the fast path on. -/
def add (p : Params) (visit : Visit) (c : Certificate) (s : StateReader) (tipHeight : UInt64) :
    Mut Pool PoolError Unit :=
  addWith floorLowerBoundFor p visit c s tipHeight

/-! ## The sweep after a block -/

/-- What the sweep finds about an entry: it may stay, it is committed, or it cannot be included
any more and strands what sits above it. -/
inductive Fate where
  | stays
  | committed
  | strands
deriving DecidableEq

/-- The checks of the sweep that look at one entry. -/
def fate (p : Params) (s : StateReader) (tipHeight : UInt64) (e : Entry) : Fate :=
  let next := tipHeight + 1
  if e.cert.ttl < next then .strands
  else if e.cert.ttl - next > p.ttlMax then .strands
  else if (s.seen e.id).isSome then .committed
  else if e.cert.feeBid.seqMax < s.get seqBaseFeeSlot ∨
      e.cert.feeBid.parMax < s.get parBaseFeeSlot then .strands
  else .stays

/-- From the end of a chain on. -/
def TailFirst (a b : Entry) : Prop := b.seq < a.seq ∨ a.seq = b.seq ∧ a.id ≤ b.id

/-- That order can be decided. -/
instance : DecidableRel TailFirst := fun _ _ => inferInstanceAs (Decidable (_ ∨ _))

/-- Drop entries until the balance covers the rest. -/
def shedLoop (balance : U256) : U256 → List Entry → List Entry
  | _, [] => []
  | sum, e :: rest =>
    if balance < sum then e :: shedLoop balance (sum.satSub e.reserve) rest else []

/-- What an underwriter's cell can no longer cover: everything if the address is burned, else
entries from the tail. -/
def shed (s : StateReader) (u : Address) (entries : List Entry) : List Entry :=
  if s.isSpent u then entries
  else
    match entries.insertionSort TailFirst with
    | [] => []
    | first :: rest =>
      shedLoop (s.get first.cert.deposit.cell)
        ((first :: rest).foldl (fun sum e => sum.satAdd e.reserve) 0) (first :: rest)

/-- What every underwriter sheds. -/
def shedAll (s : StateReader) (entries : List Entry) : List Entry :=
  (entries.map Entry.underwriter).dedup.flatMap fun u =>
    shed s u (entries.filter fun e => e.underwriter = u)

/-- Whether an entry stands at a place of an underwriter's chain. -/
def occupied (b : Book) (u : Address) (seq : UInt64) : Bool :=
  b.residents.any fun e => e.underwriter = u && e.seq = seq

/-- The lowest of some places. -/
def lowest (seqs : List UInt64) : Option UInt64 :=
  seqs.foldl (fun found seq => if found.all fun low => seq < low then some seq else found) none

/-- The lowest place an underwriter lost to a stranding removal that no entry stands at. -/
def cut (b : Book) (vacated : List Entry) (u : Address) : Option UInt64 :=
  lowest (((vacated.filter fun e => e.underwriter = u).map Entry.seq).filter fun seq =>
    !occupied b u seq)

/-- Whether a place below an entry was vacated. -/
def stranded (b : Book) (vacated : List Entry) (e : Entry) : Bool :=
  (cut b vacated e.underwriter).any fun seq => seq < e.seq

/-- Remove what sits above a vacated place of its chain. -/
def truncateStrandedLocked (vacated : List Entry) (pool : Pool) : Pool :=
  pool.evictAll (((pool.book.residents.filter (stranded pool.book vacated)).map
    Entry.id).insertionSort (· ≤ ·))

/-- What one sweep decides over the entries: which leave, and which of them strand. -/
structure Sweep where
  doomed : List Entry
  vacated : List Entry

/-- The decisions of a sweep against a state and a tip. -/
def sweep (p : Params) (s : StateReader) (tipHeight : UInt64) (entries : List Entry) : Sweep :=
  let shed := shedAll s (entries.filter fun e => fate p s tipHeight e = .stays)
  { doomed := (entries.filter fun e => fate p s tipHeight e ≠ .stays) ++ shed
    vacated := (entries.filter fun e => fate p s tipHeight e = .strands) ++ shed }

/-- Bring the pool into line with a state: drop what cannot be included any more, and what that
strands. -/
def rescreenLocked (p : Params) (s : StateReader) (tipHeight : UInt64) (pool : Pool) : Pool :=
  let found := sweep p s tipHeight pool.book.residents
  truncateStrandedLocked found.vacated
    (pool.evictAll ((found.doomed.map Entry.id).insertionSort (· ≤ ·)))

/-- Screen the pooled entries again. -/
def rescreen (p : Params) (s : StateReader) (tipHeight : UInt64) (pool : Pool) : Pool :=
  rescreenLocked p s tipHeight pool

/-- Update the pool after a block: committed certificates leave, the rest are screened again. -/
def onBlock (p : Params) (b : Block) (s : StateReader) (tipHeight : UInt64) (pool : Pool) : Pool :=
  rescreenLocked p s tipHeight (pool.remove (b.certs.map Certificate.id))

/-! ## Readmission -/

/-- The order within a chain. -/
def ChainOrder (a b : Certificate) : Prop := a.seq < b.seq ∨ a.seq = b.seq ∧ a.id ≤ b.id

/-- That order can be decided. -/
instance : DecidableRel ChainOrder := fun _ _ => inferInstanceAs (Decidable (_ ∨ _))

/-- The underwriters of a list, in order. -/
def underwriters (certs : List Certificate) : List Address :=
  (certs.map Certificate.underwriterID).dedup.insertionSort (· ≤ ·)

/-- An underwriter's certificates in chain order. -/
def group (certs : List Certificate) (u : Address) : List Certificate :=
  (certs.filter fun c => c.underwriterID = u).insertionSort ChainOrder

/-- Whether the certificate admitted before this one has left the pool. -/
def gone (prev : Option Hash) (pool : Pool) : Bool := prev.any fun id => !pool.has id

/-- Readmit one underwriter's certificates in order, up to the first that does not end up pooled. -/
def readmitGroup (p : Params) (visits : Certificate → Visit) (s : StateReader)
    (tipHeight : UInt64) : List Certificate → Option Hash → Pool → Pool
  | [], _, pool => pool
  | c :: rest, prev, pool =>
    if gone prev pool then pool
    else
      match add p (visits c) c s tipHeight pool with
      | (.error _, pool) => pool
      | (.ok _, pool) =>
        if gone prev pool then pool.remove [c.id]
        else readmitGroup p visits s tipHeight rest (some c.id) pool

/-- Return certificates of an abandoned branch to the pool. Where two of them have one id, the
source leaves their order open; here it is that of the list. -/
def readmitCerts (p : Params) (visits : Certificate → Visit) (certs : List Certificate)
    (s : StateReader) (tipHeight : UInt64) (pool : Pool) : Pool :=
  (underwriters certs).foldl
    (fun pool u => readmitGroup p visits s tipHeight (group certs u) none pool) pool

end Zycord.Mempool
