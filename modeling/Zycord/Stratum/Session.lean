import Zycord.Miner.Assemble
import Zycord.Stratum.Work

/-!
# Stratum sessions

One connection of the stratum endpoint (`node/stratum/conn.go`, `node/stratum/job.go`) as a state
machine: a miner logs in with a payout address, is handed jobs, and submits nonces for them. A
session can go through any requests and any pushes of new jobs; every template comes from the
assembler. `searched_input_iff` says for which connections the bytes that a submit is judged by are
the bytes that the miner searched.

Wire encoding, clocks other than the one `getjob` asks, and logging are left out; one request is
handled at a time, as the reader of a connection does.
-/

namespace Zycord.Stratum

open Except Miner Option

/-! ## Texts -/

/-- The value of a hexadecimal digit. -/
def hexDigit (c : Char) : Option ℕ :=
  if '0' ≤ c ∧ c ≤ '9' then some (c.toNat - '0'.toNat)
  else if 'a' ≤ c ∧ c ≤ 'f' then some (c.toNat - 'a'.toNat + 10)
  else if 'A' ≤ c ∧ c ≤ 'F' then some (c.toNat - 'A'.toNat + 10)
  else none

/-- Decode a hexadecimal text; an odd number of digits is an error. -/
def hexDecode : List Char → Option Bytes
  | [] => some []
  | [_] => none
  | high :: low :: rest => do
      let x ← hexDigit high
      let y ← hexDigit low
      let tail ← hexDecode rest
      return UInt8.ofNat (16 * x + y) :: tail

/-- The extra nonce that a session id gives. -/
def extraNonceFromSession (id : String) : UInt32 :=
  match hexDecode id.toList with
  | some (a :: b :: c :: d :: _) =>
    UInt32.ofNat (a.toNat * 2 ^ 24 + b.toNat * 2 ^ 16 + c.toNat * 2 ^ 8 + d.toNat)
  | _ => 0

/-- Decode a submitted nonce: exactly eight digits, the least significant byte first. -/
def parseNonce (s : String) : Option UInt32 :=
  if s.length ≠ 8 then none
  else
    match hexDecode s.toList with
    | some [a, b, c, d] =>
      some (UInt32.ofNat (a.toNat + b.toNat * 2 ^ 8 + c.toNat * 2 ^ 16 + d.toNat * 2 ^ 24))
    | _ => none

/-- A text without its front. -/
def dropFront (front s : List Char) : List Char :=
  if front.isPrefixOf s then s.drop front.length else s

/-- Decode a payout address: 32 bytes, of the persistent version. -/
def parseAddress (s : List Char) : Except String Address :=
  match hexDecode (dropFront "0X".toList (dropFront "0x".toList s)) with
  | none => .error "payout address must be 32 bytes of hex"
  | some raw =>
    if raw.length ≠ 32 then .error "payout address must be 32 bytes of hex"
    else if (Bytes32.ofBytes raw).version ≠ Crypto.addrVersionPersistent then
      .error "payout address must be persistent (version 0x02)"
    else .ok (Bytes32.ofBytes raw)

/-- The white space of Unicode (`unicode.IsSpace`). -/
def isSpace (c : Char) : Bool :=
  let n := c.toNat
  decide (9 ≤ n ∧ n ≤ 13 ∨ n = 0x20 ∨ n = 0x85 ∨ n = 0xa0 ∨ n = 0x1680 ∨
    0x2000 ≤ n ∧ n ≤ 0x200a ∨ n = 0x2028 ∨ n = 0x2029 ∨ n = 0x202f ∨ n = 0x205f ∨ n = 0x3000)

/-- Cut the white space off both ends of a text (`strings.TrimSpace`). -/
def trimSpace (s : List Char) : List Char :=
  ((s.dropWhile isSpace).reverse.dropWhile isSpace).reverse

/-- Where blocks found on a connection pay: to the address of the login without its worker, or to
the node's own when the login names none. -/
def resolvePayout (fallback : Address) (login : String) : Except String Address :=
  let login := trimSpace login.toList
  if login = [] ∨ login = ['x'] ∨ login = ['X'] then
    if fallback = 0 then
      .error "no login address and this node has no --payout to fall back on"
    else .ok fallback
  else parseAddress (login.takeWhile fun c => c ≠ '.' ∧ c ≠ '+')

/-- The algorithm a network's work function is known by, if a miner implements it. -/
def algoFor (engineName : String) : Option String :=
  if engineName = "randomx-v2" then some "rx/2"
  else if engineName = "randomx-v1" then some "rx/0"
  else none

/-- Whether a list names an algorithm. -/
def containsAlgo (list : List String) (want : String) : Bool :=
  list.any fun a => (trimSpace a.toList).map Char.toLower = want.toList.map Char.toLower

/-! ## Jobs -/

/-- A template handed to a connection. -/
structure Job where
  id : String
  block : Block
  extraNonce : UInt32
  target : UInt64
  height : UInt64
  blob : Bytes
  submitted : List UInt32

/-- How many jobs a connection remembers. -/
def jobCacheSize : ℕ := 8

/-- The last jobs of a connection. -/
structure JobCache where
  ring : Fin jobCacheSize → Option Job
  next : Fin jobCacheSize

namespace JobCache

/-- No job yet. -/
def empty : JobCache := ⟨fun _ => none, ⟨0, by decide⟩⟩

/-- Remember a job in place of the oldest. -/
def put (c : JobCache) (j : Job) : JobCache where
  ring := Function.update c.ring c.next (some j)
  next := ⟨(c.next.val + 1) % jobCacheSize, Nat.mod_lt _ (by decide)⟩

/-- Look a job up. -/
def find (c : JobCache) (id : String) : Option (Fin jobCacheSize × Job) :=
  (List.finRange jobCacheSize).findSome? fun i =>
    match c.ring i with
    | some j => if j.id = id then some (i, j) else none
    | none => none

/-- The job put last. -/
def newest (c : JobCache) : Option Job :=
  c.ring ⟨(c.next.val + jobCacheSize - 1) % jobCacheSize, Nat.mod_lt _ (by decide)⟩

/-- Note a submitted nonce. -/
def markSubmitted (c : JobCache) (i : Fin jobCacheSize) (j : Job) (nonce : UInt32) : JobCache :=
  { c with ring := Function.update c.ring i (some { j with submitted := nonce :: j.submitted }) }

end JobCache

/-! ## Connections -/

/-- What the endpoint is configured with. -/
structure Server where
  params : Params
  maxBanScore : ℤ
  payout : Address

/-- The state of a connection. -/
structure Conn where
  sessionID : String
  loggedIn : Bool
  payout : Address
  jobs : JobCache
  extraNonce : UInt32
  banScore : ℤ
  closed : Bool
  lastAssembly : ℤ

/-- A fresh connection. -/
def newConn (id : String) : Conn :=
  ⟨id, false, 0, .empty, extraNonceFromSession id, 0, false, 0⟩

/-- What the chain says to a block. -/
inductive Applied where
  | ok
  | wrongParent
  | failed
deriving DecidableEq

/-- What a connection meets while it handles one request: the clock, the assembler's template, a
new job id and the chain's answer to a block. -/
structure Env where
  now : ℤ
  assembled : Except Miner.AssembleError Block
  freshID : String
  applied : Block → Applied

/-- A job as it is sent. -/
structure JobParams where
  blob : Bytes
  jobID : String
  target : UInt64
  height : UInt64
deriving DecidableEq

/-- A request of a miner; one that is not well formed is told apart by how far it could be read. -/
inductive Request where
  | malformed
  | malformedLogin
  | login (login : String) (algo : List String)
  | getjob
  | malformedSubmit
  | submit (id jobID nonce : String)
  | keepalived
  | unknown

/-- The answer to a request; errors all have the code -1. -/
inductive Reply where
  | failure (text : String)
  | noTemplate (e : Miner.AssembleError)
  | loginResult (id : String) (job : JobParams)
  | job (job : JobParams)
  | status (text : String)
deriving DecidableEq

/-- The shortest time between two assemblies that one connection's `getjob` requests cause, in
nanoseconds. -/
def minAssemblyInterval : ℤ := 1000000000

namespace Conn

/-- Add to the ban score. -/
def penalise (srv : Server) (c : Conn) (points : ℤ) : Conn :=
  { c with
    banScore := c.banScore + points
    closed := c.closed || c.banScore + points ≥ srv.maxBanScore }

end Conn

/-- Render a job for the wire. -/
def jobParams (j : Job) : JobParams := ⟨j.blob, j.id, j.target, j.height⟩

/-- A block for another payout. -/
def stampPayout (b : Block) (payout : Address) : Block :=
  { b with header := { b.header with emissionAddr := payout } }

section

variable [Crypto]

/-- The job of a template for a connection. -/
def makeJob (id : String) (b : Block) (payout : Address) (extraNonce : UInt32) : Job :=
  let b := stampPayout b payout
  { id := id
    block := b
    extraNonce := extraNonce
    target := truncateTarget b.header.target
    height := b.header.height
    blob := blobFor b.header
    submitted := [] }

/-- Assemble a job. -/
def newJob (env : Env) (c : Conn) : Except Miner.AssembleError (Conn × Job) := do
  let b ← env.assembled
  let j := makeJob env.freshID b c.payout c.extraNonce
  return ({ c with jobs := c.jobs.put j, lastAssembly := env.now }, j)

/-- Log in: check the algorithm, resolve the payout, hand out the first job. -/
def onLogin (srv : Server) (env : Env) (c : Conn) (login : String) (algo : List String) :
    Conn × Reply :=
  match algoFor srv.params.powEngine with
  | none => (c,
      .failure ("this network's work function is not one any Stratum miner implements; " ++
      "mine it with the node's built-in miner instead"))
  | some want =>
    if algo.length > 0 ∧ containsAlgo algo want = false then
      (c, .failure ("Unsupported algorithm: this node serves " ++ want ++ " only"))
    else
      match resolvePayout srv.payout login with
      | .error _ => (c, .failure "Unauthenticated: invalid payout address")
      | .ok payout =>
        let c := { c with loggedIn := true, payout }
        match newJob env c with
        | .error e => (c, .noTemplate e)
        | .ok (c, j) => (c, .loginResult c.sessionID (jobParams j))

/-- Ask for work: the newest job again when it was asked for too soon, or a new one. -/
def onGetJob (env : Env) (c : Conn) : Conn × Reply :=
  if c.loggedIn = false then (c, .failure "unauthenticated")
  else
    match c.jobs.newest with
    | some cached =>
      if env.now - c.lastAssembly < minAssemblyInterval then (c, .job (jobParams cached))
      else fresh
    | none => fresh
where
  /-- Answer with a new job. -/
  fresh : Conn × Reply :=
    match newJob env c with
    | .error e => (c, .noTemplate e)
    | .ok (c, j) => (c, .job (jobParams j))

variable [WorkHash]

/-- The header that a share seals. -/
def shareHeader (srv : Server) (j : Job) (nonce : UInt32) : Header :=
  recoverPoWHash (sealNonce j.block.header nonce j.extraNonce) srv.params

/-- The block that a share seals. -/
def shareBlock (srv : Server) (j : Job) (nonce : UInt32) : Block :=
  ⟨shareHeader srv j nonce, j.block.certs, j.block.cites⟩

/-- Judge a share for a job of the connection: against the job target, and against the header's own
target, which makes it a block for the chain. -/
def judgeShare (srv : Server) (env : Env) (c : Conn) (i : Fin jobCacheSize) (j : Job)
    (nonce : UInt32) : Conn × Reply :=
  let h := shareHeader srv j nonce
  if meetsJobTarget h j.target = false then (c.penalise srv 2, .failure "Low difficulty share")
  else
    let c := { c with jobs := c.jobs.markSubmitted i j nonce }
    match checkWork h srv.params with
    | .error _ => (c, .status "OK")
    | .ok () =>
      match env.applied (shareBlock srv j nonce) with
      | .wrongParent => (c, .failure "Invalid job id")
      | .failed => (c, .failure "internal error")
      | .ok => (c, .status "OK")

/-- Submit a nonce. -/
def onSubmit (srv : Server) (env : Env) (c : Conn) (id jobID nonce : String) : Conn × Reply :=
  if c.loggedIn = false then (c, .failure "unauthenticated")
  else if id ≠ c.sessionID then (c.penalise srv 2, .failure "unauthenticated")
  else
    match parseNonce nonce with
    | none => (c.penalise srv 2, .failure "invalid request")
    | some nonce =>
      match c.jobs.find jobID with
      | none => (c, .failure "Invalid job id")
      | some (i, j) =>
        if nonce ∈ j.submitted then (c.penalise srv 1, .failure "Duplicate share")
        else judgeShare srv env c i j nonce

/-- Handle one request. -/
def handle (srv : Server) (env : Env) (c : Conn) : Request → Conn × Reply
  | .malformed => (c.penalise srv 2, .failure "invalid request")
  | .malformedLogin => (c.penalise srv 2, .failure "invalid request")
  | .login login algo => onLogin srv env c login algo
  | .getjob => onGetJob env c
  | .malformedSubmit =>
    if c.loggedIn = false then (c, .failure "unauthenticated")
    else (c.penalise srv 2, .failure "invalid request")
  | .submit id jobID nonce => onSubmit srv env c id jobID nonce
  | .keepalived =>
    if c.loggedIn = false then (c, .failure "unauthenticated") else (c, .status "KEEPALIVED")
  | .unknown => (c, .failure "invalid method")

/-- Send a new job. -/
def pushJob (env : Env) (c : Conn) : Conn :=
  if c.loggedIn = false ∨ c.closed = true then c
  else
    match newJob env c with
    | .error _ => c
    | .ok (c, _) => c

/-! ## Sessions -/

/-- The templates an environment offers come from the assembler of the node. -/
def Env.Assembles (env : Env) (srv : Server) : Prop :=
  ∀ b, env.assembled = .ok b → ∃ m v, Miner.assemble m v srv.params = .ok b

/-- The connections that sessions lead to: any requests and pushes, in any order, until the
connection is closed. -/
inductive Session (srv : Server) : Conn → Prop where
  | connect (id : String) : Session srv (newConn id)
  | request {c : Conn} (h : Session srv c) (hopen : c.closed = false) (env : Env)
      (henv : env.Assembles srv) (req : Request) : Session srv (handle srv env c req).1
  | push {c : Conn} (h : Session srv c) (env : Env) (henv : env.Assembles srv) :
      Session srv (pushJob env c)

/-! ## What a connection remembers -/

variable {srv : Server} {c c' : Conn} {env : Env} {j : Job}

/-- A job of the server for this connection. -/
def HandedOut (srv : Server) (extraNonce : UInt32) (j : Job) : Prop :=
  ∃ m v b payout, Miner.assemble m v srv.params = .ok b ∧
    j = { makeJob j.id b payout extraNonce with submitted := j.submitted }

/-- Every cached job is one. -/
def AllHandedOut (srv : Server) (extraNonce : UInt32) (jobs : JobCache) : Prop :=
  ∀ i j, jobs.ring i = some j → HandedOut srv extraNonce j

/-- One step of a connection: its extra nonce stays, and it remembers only jobs that were handed
out. -/
structure Keeps (srv : Server) (c c' : Conn) : Prop where
  extraNonce : c'.extraNonce = c.extraNonce
  jobs : AllHandedOut srv c.extraNonce c.jobs → AllHandedOut srv c.extraNonce c'.jobs

omit [WorkHash] in
theorem Keeps.of_eq (hnonce : c'.extraNonce = c.extraNonce) (hjobs : c'.jobs = c.jobs) :
    Keeps srv c c' := ⟨hnonce, fun h => by rw [hjobs]; exact h⟩

omit [WorkHash] in
theorem Keeps.penalise (points : ℤ) : Keeps srv c (c.penalise srv points) := .of_eq rfl rfl

omit [WorkHash] in
theorem new_job_keeps (henv : env.Assembles srv) (h : newJob env c = .ok (c', j)) :
    Keeps srv c c' := by
  rw [newJob, bind_eq_ok] at h
  obtain ⟨b, hb, hpure⟩ := h
  obtain ⟨rfl, rfl⟩ := Prod.mk.inj (pure_eq_ok.mp hpure)
  obtain ⟨m, v, hassemble⟩ := henv b hb
  refine ⟨rfl, fun hjobs i j hj => ?_⟩
  by_cases hi : i = c.jobs.next
  · rw [hi] at hj
    have hput : some (makeJob env.freshID b c.payout c.extraNonce) = some j := by
      simpa [JobCache.put] using hj
    obtain rfl := some.inj hput
    exact ⟨m, v, b, c.payout, hassemble, rfl⟩
  · refine hjobs i j ?_
    simpa [JobCache.put, hi] using hj

variable {i : Fin jobCacheSize}

omit [WorkHash] [Crypto] in
theorem ring_of_find {jobs : JobCache} {id : String} (h : jobs.find id = some (i, j)) :
    jobs.ring i = some j := by
  obtain ⟨k, -, hk⟩ := List.exists_of_findSome?_eq_some h
  cases hring : jobs.ring k with
  | none =>
    rw [hring] at hk
    cases hk
  | some job =>
    rw [hring] at hk
    dsimp only at hk
    split at hk
    · obtain ⟨rfl, rfl⟩ := Prod.mk.inj (some.inj hk)
      exact hring
    · cases hk

omit [WorkHash] in
theorem mark_submitted_keeps (hj : c.jobs.ring i = some j) (nonce : UInt32) :
    Keeps srv c { c with jobs := c.jobs.markSubmitted i j nonce } := by
  refine ⟨rfl, fun hjobs k job hjob => ?_⟩
  by_cases hk : k = i
  · have hmark : some { j with submitted := nonce :: j.submitted } = some job := by
      simpa [JobCache.markSubmitted, hk] using hjob
    obtain rfl := some.inj hmark
    obtain ⟨m, v, b, payout, hassemble, heq⟩ := hjobs i j hj
    refine ⟨m, v, b, payout, hassemble, ?_⟩
    rw [heq]
    rfl
  · refine hjobs k job ?_
    simpa [JobCache.markSubmitted, hk] using hjob

theorem judge_share_keeps (hj : c.jobs.ring i = some j) (nonce : UInt32) :
    Keeps srv c (judgeShare srv env c i j nonce).1 := by
  have hmark : Keeps srv c { c with jobs := c.jobs.markSubmitted i j nonce } :=
    mark_submitted_keeps hj nonce
  unfold judgeShare
  dsimp only
  split
  · exact .penalise 2
  · split
    · exact hmark
    · split <;> exact hmark

omit [WorkHash] in
/-- A login remembers only a job it hands out. -/
theorem on_login_keeps (henv : env.Assembles srv) (login : String) (algo : List String) :
    Keeps srv c (onLogin srv env c login algo).1 := by
  have hsame : Keeps srv c c := .of_eq rfl rfl
  unfold onLogin
  split
  · exact hsame
  · split
    · exact hsame
    · split
      · exact hsame
      · rename_i payout _
        dsimp only
        split
        · exact .of_eq rfl rfl
        · rename_i c' j hjob
          have hnew := new_job_keeps henv hjob
          exact ⟨hnew.extraNonce, hnew.jobs⟩

omit [WorkHash] in
/-- A job request remembers only a job it hands out. -/
theorem on_get_job_keeps (henv : env.Assembles srv) : Keeps srv c (onGetJob env c).1 := by
  have hsame : Keeps srv c c := .of_eq rfl rfl
  have hfresh : Keeps srv c (onGetJob.fresh env c).1 := by
    unfold onGetJob.fresh
    split
    · exact hsame
    · rename_i c' j hjob
      exact new_job_keeps henv hjob
  unfold onGetJob
  split
  · exact hsame
  · split
    · split
      · exact hsame
      · exact hfresh
    · exact hfresh

theorem on_submit_keeps (id jobID nonce : String) :
    Keeps srv c (onSubmit srv env c id jobID nonce).1 := by
  unfold onSubmit
  split
  · exact .of_eq rfl rfl
  · split
    · exact .penalise 2
    · split
      · exact .penalise 2
      · split
        · exact .of_eq rfl rfl
        · rename_i i j hfind
          split
          · exact .penalise 1
          · exact judge_share_keeps (ring_of_find hfind) _

/-- Every request remembers only jobs that were handed out. -/
theorem handle_keeps (henv : env.Assembles srv) (req : Request) :
    Keeps srv c (handle srv env c req).1 := by
  cases req with
  | malformed | malformedLogin => exact .penalise 2
  | login login algo => exact on_login_keeps henv login algo
  | getjob => exact on_get_job_keeps henv
  | malformedSubmit =>
    unfold handle
    dsimp only
    split
    · exact .of_eq rfl rfl
    · exact .penalise 2
  | submit id jobID nonce => exact on_submit_keeps id jobID nonce
  | keepalived =>
    unfold handle
    dsimp only
    split <;> exact .of_eq rfl rfl
  | unknown => exact .of_eq rfl rfl

omit [WorkHash] in
theorem push_job_keeps (henv : env.Assembles srv) : Keeps srv c (pushJob env c) := by
  unfold pushJob
  split
  · exact .of_eq rfl rfl
  · split
    · exact .of_eq rfl rfl
    · rename_i c' j hjob
      exact new_job_keeps henv hjob

theorem Session.handed_out (h : Session srv c) : AllHandedOut srv c.extraNonce c.jobs := by
  induction h with
  | connect id => exact fun i j hj => by cases hj
  | @request c _ _ env henv req ih =>
    have hkeeps : Keeps srv c (handle srv env c req).1 := handle_keeps henv req
    rw [hkeeps.extraNonce]
    exact hkeeps.jobs ih
  | @push c _ env henv ih =>
    have hkeeps : Keeps srv c (pushJob env c) := push_job_keeps henv
    rw [hkeeps.extraNonce]
    exact hkeeps.jobs ih

/-! ## The searched bytes -/

omit [WorkHash] in
theorem assembled_extra_nonce {m : Producer} {v : View} {p : Params} {b : Block}
    (h : assemble m v p = .ok b) : b.header.pow.extraNonce = 0 := by
  obtain ⟨now, target, certs, -, -, hfill⟩ := assemble_eq_ok h
  rcases fill_root_eq_ok hfill with ⟨-, rfl⟩ | ⟨-, root, -, rfl⟩ <;> rfl

/-- In every session, for every job it can submit to and every nonce: the proof-of-work input that
a submit rebuilds is the blob with the nonce written into it exactly when the connection has no
extra nonce, or when its extra nonce makes two different preimages of the seed clash. When the two
are the same, the endpoint filters the share on the value the miner did. -/
theorem searched_input_iff (hs : Session srv c) {jobID : String} {i : Fin jobCacheSize}
    (hj : c.jobs.find jobID = some (i, j)) (nonce : UInt32) :
    ((shareHeader srv j nonce).powInput = writeNonce j.blob nonce ↔
      c.extraNonce = 0 ∨ SeedClash j.block.header c.extraNonce) ∧
    ((shareHeader srv j nonce).powInput = writeNonce j.blob nonce →
      jobTargetValue (shareHeader srv j nonce) =
        shareValue (keyFor j.height srv.params) (writeNonce j.blob nonce)) := by
  obtain ⟨m, v, b, payout, hassemble, heq⟩ := hs.handed_out i j (ring_of_find hj)
  have hblob : j.blob = blobFor j.block.header := by
    rw [heq]
    rfl
  have hextra : j.extraNonce = c.extraNonce := by
    rw [heq]
    rfl
  have hheight : j.height = j.block.header.height := by
    rw [heq]
    rfl
  have hzero : j.block.header.pow.extraNonce = 0 := by
    rw [heq]
    show b.header.pow.extraNonce = 0
    exact assembled_extra_nonce hassemble
  have hinput : (shareHeader srv j nonce).powInput =
      (sealNonce j.block.header nonce c.extraNonce).powInput := by
    rw [← hextra]
    rfl
  refine ⟨?_, fun hsame => ?_⟩
  · rw [hinput, hblob, sealed_input_iff, hzero]
  · rw [← hsame, hheight]
    rfl

end

/-! ## Sessions that are run -/

section

open Miner.Sample Fold.Sample Reference

attribute [local instance] Reference.crypto Sample.workHash

namespace Sample

/-- Parameters of a network that is mined over stratum, with an easy target. -/
def params : Params :=
  { solo with
    powEngine := "randomx-v2"
    genesisTarget := .ofNat (3 * 2 ^ 253)
    maxTarget := .ofNat (3 * 2 ^ 253) }

/-- A server that pays the first user. -/
def server : Server := ⟨params, 10, user 1⟩

/-- What a connection meets while the chain stands as given. -/
def envOf (v : Miner.View) : Env := ⟨0, Miner.assemble producer v params, "01", fun _ => .ok⟩

/-- A connection after its login. -/
def loggedIn (id : String) (v : Miner.View) : Conn :=
  (handle server (envOf v) (newConn id) (.login "x" ["rx/2"])).1

theorem session_logged_in (id : String) (v : View) : Session server (loggedIn id v) := by
  have henv : (envOf v).Assembles server := fun b hb => ⟨producer, v, hb⟩
  exact .request (.connect id) rfl (envOf v) henv (.login "x" ["rx/2"])

end Sample

open Sample

/-- A connection with the extra nonce 2^24: a share that meets the job target against the blob is
answered as one that does not, because the bytes it is judged by are others. -/
theorem honest_share_refused : server.params.validate = .ok () ∧
    ∃ v c i j, Session server c ∧ c.extraNonce = 2 ^ 24 ∧ c.jobs.find "01" = some (i, j) ∧
    shareValue (keyFor j.height server.params) (writeNonce j.blob 1) < j.target ∧
    (shareHeader server j 1).powInput ≠ writeNonce j.blob 1 ∧
    (handle server (envOf v) c (.submit c.sessionID "01" "01000000")).2 =
      .failure "Low difficulty share" := by
  obtain ⟨log, v, -, -, -, -, htest⟩ := Miner.Sample.exists_chain (p := Sample.params)
    (fun v =>
      let c := loggedIn "0100000000000000" v
      match c.jobs.find "01" with
      | some (_, j) => decide (c.extraNonce = 2 ^ 24 ∧
          shareValue (keyFor j.height server.params) (writeNonce j.blob 1) < j.target ∧
          (shareHeader server j 1).powInput ≠ writeNonce j.blob 1 ∧
          (handle server (envOf v) c (.submit c.sessionID "01" "01000000")).2 =
            .failure "Low difficulty share")
      | none => false) (by decide +kernel)
  dsimp only at htest
  split at htest
  · rename_i i j hfind
    obtain ⟨hnonce, hmeets, hinput, hreply⟩ := of_decide_eq_true htest
    exact ⟨by decide +kernel, v, _, i, j, session_logged_in _ v, hnonce, hfind, hmeets, hinput,
      hreply⟩
  · cases htest

/-- A connection without an extra nonce is judged by the bytes it searched. -/
theorem sample_searched_input : ∃ v i j,
    (loggedIn "0000000000000000" v).jobs.find "01" = some (i, j) ∧
    (shareHeader server j 1).powInput = writeNonce j.blob 1 ∧
    jobTargetValue (shareHeader server j 1) =
      shareValue (keyFor j.height server.params) (writeNonce j.blob 1) := by
  obtain ⟨log, v, -, -, -, -, htest⟩ := Miner.Sample.exists_chain (p := Sample.params)
    (fun v =>
      let c := loggedIn "0000000000000000" v
      decide (c.extraNonce = 0) && (c.jobs.find "01").isSome) (by decide +kernel)
  simp only [Bool.and_eq_true, decide_eq_true_eq] at htest
  obtain ⟨⟨i, j⟩, hfind⟩ := isSome_iff_exists.mp htest.2
  obtain ⟨hiff, hvalue⟩ := searched_input_iff (session_logged_in _ v) hfind 1
  have hinput := hiff.mpr (Or.inl htest.1)
  exact ⟨v, i, j, hfind, hinput, hvalue hinput⟩

end

end Zycord.Stratum
