import Zycord.Core.Block
import Zycord.Core.State
import Zycord.Validity.Check

/-!
# Block rules

Everything the fold checks about a block before it changes any state
(`core/fold/blockrules.go`), with the rule and the text of each refusal. `BlockOK` states the
accepted blocks without the order of the checks, and `check_block_rules_eq_ok` says that the
function accepts exactly those.
-/

namespace Zycord.Fold

open Except List Crypto Validity

/-! ## Errors -/

/-- The rules a block can fail: those of its certificates, its own, those of its citations and
the three fold rules that can reject. -/
inductive Rule where
  | v (rule : VRule)
  | B0b | B1 | B2 | B3 | B4 | B5 | B6 | B7 | B8 | B9 | B10 | B11 | B12 | B13 | B14 | B15 | B16
  | B17 | B18
  | C0 | C1 | C2 | C3 | C4 | C5
  | F3 | F13 | F14
deriving DecidableEq

/-- The name of a rule. -/
def Rule.name : Rule → String
  | v rule => rule.name
  | B0b => "B0b" | B1 => "B1" | B2 => "B2" | B3 => "B3" | B4 => "B4" | B5 => "B5" | B6 => "B6"
  | B7 => "B7" | B8 => "B8" | B9 => "B9" | B10 => "B10" | B11 => "B11" | B12 => "B12"
  | B13 => "B13" | B14 => "B14" | B15 => "B15" | B16 => "B16" | B17 => "B17" | B18 => "B18"
  | C0 => "C0" | C1 => "C1" | C2 => "C2" | C3 => "C3" | C4 => "C4" | C5 => "C5"
  | F3 => "F3" | F13 => "F13" | F14 => "F14"

/-- Why a block was rejected: by a rule, by a rule on account of one certificate, or by a
conservation assertion. -/
inductive FoldError where
  | invalid (rule : Rule) (msg : String)
  | invalidCert (index : ℕ) (rule : Rule) (msg : String)
  | conservationFailure (what : String)
deriving DecidableEq

/-- The rule an error names. -/
def FoldError.rule : FoldError → Option Rule
  | invalid rule _ => some rule
  | invalidCert _ rule _ => some rule
  | conservationFailure _ => none

/-- Its name; empty if it is not about a rule. -/
def FoldError.ruleName (e : FoldError) : String := (e.rule.map Rule.name).getD ""

/-- The text of an error. -/
def FoldError.message : FoldError → String
  | invalid rule msg => "fold: invalid block: " ++ rule.name ++ ": " ++ msg
  | invalidCert _ rule msg => "fold: invalid block: " ++ rule.name ++ ": " ++ msg
  | conservationFailure what => "fold: invalid block: conservation assertion failed: " ++ what

/-- A rule about a block. -/
def invalidIf (c : Prop) [Decidable c] (rule : Rule) (msg : String) : Except FoldError Unit :=
  rejectIf c (.invalid rule msg)

/-- A rule about a certificate of a block. -/
def invalidCertIf (c : Prop) [Decidable c] (i : ℕ) (rule : Rule) (msg : String) :
    Except FoldError Unit :=
  rejectIf c (.invalidCert i rule msg)

/-- The hexadecimal rendering of an identifier. -/
def hex (b : Bytes32) : String :=
  String.ofList
    (b.bytes.flatMap fun x => [Nat.digitChar (x.toNat / 16), Nat.digitChar (x.toNat % 16)])

/-! ## The checks -/

/-- The epoch of the RandomX key. -/
def seedEpochFor (height : UInt64) (p : Params) : UInt64 :=
  if height < p.randomXKeyLag || height - p.randomXKeyLag < p.randomXKeyInterval then 0
  else (height - p.randomXKeyLag) / p.randomXKeyInterval

/-- A header declares the key epoch its height implies. -/
def checkSeedEpoch (b : Block) (p : Params) : Except FoldError Unit :=
  invalidIf (b.header.pow.seedEpoch ≠ seedEpochFor b.header.height p) .B0b
    ("header at height " ++ toString b.header.height ++ " declares seed epoch " ++
      toString b.header.pow.seedEpoch ++ ", the schedule gives " ++
      toString (seedEpochFor b.header.height p))

/-- The payout can be spent by somebody. -/
def checkEmissionAddr (b : Block) : Except FoldError Unit :=
  invalidIf (b.header.height ≠ 0 ∧ isUserAddress b.header.emissionAddr = false) .B11
    "payout address is not a user address"

/-- No certificate writes a protocol cell. -/
def assertNoProtocolWrites [Crypto] (certs : List Certificate) : Except FoldError Unit :=
  checkEach certs fun c => checkEach c.writes fun w =>
    invalidIf (w.slot.addr.version = addrVersionProtocol) .F13
      ("certificate " ++ hex c.id ++ " writes a protocol cell")

/-- The number of signatures a block's certificates declare. -/
def sigCount (certs : List Certificate) : UInt64 :=
  certs.foldl (fun n c => n + UInt64.ofNat c.sigs.length) 0

/-- A certificate together with its id, computed once for the block. -/
structure Carried where
  cert : Certificate
  id : Hash
deriving DecidableEq

section

variable [Crypto]

/-- Compute the ids of a block's certificates. -/
def carry (certs : List Certificate) : List Carried := certs.map fun c => ⟨c, c.id⟩

/-- The sequential target as it stands before a block of this height. -/
def currentSeqGasTarget (s : State) (p : Params) (height : UInt64) : UInt64 :=
  if height = 0 then p.seqGasTargetGenesis else (s.get seqGasTargetSlot).uint64.1

/-- One citation, after the citation with id `lastID`. -/
def checkCite (s : State) (h : Header) (lastID : Option Hash) (i : ℕ) (cited : Header) :
    Except FoldError Unit := do
  invalidIf (cited.version ≠ headerVersion) .C0
    ("citation " ++ toString i ++ " has unknown header version " ++ toString cited.version)
  invalidIf (cited.height ≠ h.height - 1) .C1
    ("citation " ++ toString i ++ " has height " ++ toString cited.height ++
      ", this block is at " ++ toString h.height)
  invalidIf (cited.parentID ≠ (s.get prevParentIDSlot).bytes32) .C2
    ("citation " ++ toString i ++ " does not share this block's grandparent")
  invalidIf (cited.id = h.parentID) .C3
    ("citation " ++ toString i ++ " names this block's own parent")
  invalidIf (cited.target ≠ s.get prevTargetSlot) .C4
    ("citation " ++ toString i ++ " claims a target this height was never mined under")
  invalidIf (∃ last ∈ lastID, cited.id ≤ last) .C5
    ("citations are not strictly sorted by id at index " ++ toString i)

/-- The citations from index `i` on. -/
def checkCitesFrom (s : State) (h : Header) : Option Hash → ℕ → List Header → Except FoldError Unit
  | _, _, [] => .ok ()
  | lastID, i, cited :: rest => do
      checkCite s h lastID i cited
      checkCitesFrom s h (some cited.id) (i + 1) rest

/-- The citations of a block name siblings of its parent. -/
def checkCites (s : State) (b : Block) : Except FoldError Unit :=
  if b.header.height ≤ 1 then
    invalidIf (b.cites.length ≠ 0) .B17
      ("block at height " ++ toString b.header.height ++
        " may not cite: no sibling of its parent can exist")
  else checkCitesFrom s b.header none 0 b.cites

/-- Block 0 is empty and commits to the parameters; every other block has a parent. -/
def checkGenesisShape (b : Block) (p : Params) : Except FoldError Unit :=
  if b.header.height ≠ 0 then
    invalidIf (b.header.parentID = 0) .B10
      ("block at height " ++ toString b.header.height ++ " has no parent")
  else do
    invalidIf (b.certs.length ≠ 0) .B10 "the genesis block carries certificates"
    invalidIf (b.header.parentID ≠ p.consensusRoot) .B10
      "the genesis block does not commit to this node's parameters"
    invalidIf (b.header.emissionAddr ≠ 0) .B10 "the genesis block names a payout address"
    invalidIf (p.isEpochBoundary 0 = false) .B10 "height 0 must be an epoch boundary"

/-- The base fees of a block. -/
def currentBaseFees (s : State) (p : Params) (height : UInt64) : U256 × U256 :=
  if height = 0 then (p.initialSeqBaseFee, p.initialParBaseFee)
  else (s.get seqBaseFeeSlot, s.get parBaseFeeSlot)

/-- The rules about a certificate alone. -/
def checkValidity (p : Params) (i : ℕ) (c : Certificate) : Except FoldError Unit :=
  match Validity.check c p with
  | .ok () => .ok ()
  | .error e => .error (.invalidCert i (.v e.rule) ("certificate " ++ toString i ++ ": " ++ e.err))

/-- The rules of one certificate in its block, after the ids in `inBlock`. -/
def checkCert (s : State) (h : Header) (p : Params) (i : ℕ) (cy : Carried) (inBlock : List Hash) :
    Except FoldError Unit := do
  checkValidity p i cy.cert
  invalidCertIf (cy.id ∈ inBlock) i .B8
    ("certificate " ++ toString i ++ " appears twice in the block")
  invalidCertIf (h.height > cy.cert.ttl) i .B1
    ("certificate " ++ toString i ++ " expired at height " ++ toString cy.cert.ttl ++
      ", block is at " ++ toString h.height)
  invalidCertIf (cy.cert.ttl - h.height > p.ttlMax) i .B2
    ("certificate " ++ toString i ++ " has a TTL " ++ toString (cy.cert.ttl - h.height) ++
      " blocks ahead, limit is " ++ toString p.ttlMax)
  invalidCertIf ((s.seenTTL cy.id).isSome = true) i .B3
    ("certificate " ++ toString i ++ " has already been committed")
  invalidCertIf (cy.cert.feeBid.seqMax < (currentBaseFees s p h.height).1) i .B4
    ("certificate " ++ toString i ++ " caps below the sequential base fee")
  invalidCertIf (cy.cert.feeBid.parMax < (currentBaseFees s p h.height).2) i .B4
    ("certificate " ++ toString i ++ " caps below the parallel base fee")

/-- The certificates from index `i` on, adding up their gas. -/
def checkCerts (s : State) (h : Header) (p : Params) :
    ℕ → List Carried → List Hash → UInt64 × UInt64 → Except FoldError (UInt64 × UInt64)
  | _, [], _, gas => .ok gas
  | i, cy :: rest, inBlock, gas => do
      checkCert s h p i cy inBlock
      checkCerts s h p (i + 1) rest (cy.id :: inBlock)
        (gas.1 + cy.cert.seqGas p, gas.2 + cy.cert.parGas p)

/-- The ceilings that are checked before any root is computed. -/
def checkCeilings (b : Block) (p : Params) (t : UInt64) : Except FoldError Unit := do
  invalidIf (b.certs.length > (p.maxCertsPerBlock t).toInt) .B12
    (toString b.certs.length ++ " certificates exceeds the ceiling of " ++
      toString (p.maxCertsPerBlock t))
  invalidIf (sigCount b.certs > p.maxSigsPerBlock t) .B18
    (toString (sigCount b.certs) ++ " signatures exceeds the ceiling of " ++
      toString (p.maxSigsPerBlock t))
  invalidIf (b.sizeBytes > (p.blockByteLimit t).toInt) .B13
    ("block of " ++ toString b.sizeBytes ++ " bytes exceeds the ceiling of " ++
      toString (p.blockByteLimit t))
  invalidIf (b.cites.length > p.maxCitesPerBlock.toInt) .B15
    (toString b.cites.length ++ " citations exceeds the ceiling of " ++ toString p.maxCitesPerBlock)

/-- Every block rule the fold owns. -/
def checkBlockRules (s : State) (b : Block) (p : Params) (cc : List Carried) :
    Except FoldError Unit := do
  invalidIf (b.header.version ≠ headerVersion) .B7
    ("unknown header version " ++ toString b.header.version)
  checkCeilings b p (currentSeqGasTarget s p b.header.height)
  invalidIf (b.computeCertRoot p ≠ b.header.certRoot) .B14
    "certificate root does not commit to the bodies"
  invalidIf (b.computeCitesRoot p ≠ b.header.citesRoot) .B16
    "cites root does not commit to the cited headers"
  checkCites s b
  checkGenesisShape b p
  checkEmissionAddr b
  checkSeedEpoch b p
  invalidIf (p.isEpochBoundary b.header.height = false ∧ b.header.stateRoot ≠ 0) .B9
    "state root is set on a non-epoch-boundary block"
  let gas ← checkCerts s b.header p 0 cc [] (0, 0)
  invalidIf (gas.1 > p.seqGasBurst (currentSeqGasTarget s p b.header.height)) .B5
    ("sequential gas " ++ toString gas.1 ++ " exceeds the burst bound of " ++
      toString (p.seqGasBurst (currentSeqGasTarget s p b.header.height)))
  invalidIf (gas.2 > p.parGasLimit (currentSeqGasTarget s p b.header.height)) .B6
    ("parallel gas " ++ toString gas.2 ++ " exceeds the ceiling of " ++
      toString (p.parGasLimit (currentSeqGasTarget s p b.header.height)))
  assertNoProtocolWrites b.certs

/-! ## The accepted blocks -/

/-- What the block rules ask of one certificate on its own. -/
structure CertOK (s : State) (h : Header) (p : Params) (c : Certificate) : Prop where
  checked : Validity.check c p = .ok ()
  live : h.height ≤ c.ttl
  near : c.ttl - h.height ≤ p.ttlMax
  unseen : s.seenTTL c.id = none
  seqMax_ge : (currentBaseFees s p h.height).1 ≤ c.feeBid.seqMax
  parMax_ge : (currentBaseFees s p h.height).2 ≤ c.feeBid.parMax

/-- The sequential gas of a list of certificates, as the block rules add it up. -/
def seqGasSum (p : Params) (certs : List Certificate) : UInt64 :=
  certs.foldl (fun gas c => gas + c.seqGas p) 0

/-- The parallel gas of a list of certificates, as the block rules add it up. -/
def parGasSum (p : Params) (certs : List Certificate) : UInt64 :=
  certs.foldl (fun gas c => gas + c.parGas p) 0

/-- The blocks the rules accept. -/
structure BlockOK (s : State) (b : Block) (p : Params) : Prop where
  version : b.header.version = headerVersion
  ceilings : checkCeilings b p (currentSeqGasTarget s p b.header.height) = .ok ()
  certRoot : b.computeCertRoot p = b.header.certRoot
  citesRoot : b.computeCitesRoot p = b.header.citesRoot
  cites : checkCites s b = .ok ()
  genesis : checkGenesisShape b p = .ok ()
  emissionAddr : checkEmissionAddr b = .ok ()
  seedEpoch : checkSeedEpoch b p = .ok ()
  stateRoot : p.isEpochBoundary b.header.height = false → b.header.stateRoot = 0
  certs : ∀ c ∈ b.certs, CertOK s b.header p c
  ids_nodup : (b.certs.map Certificate.id).Nodup
  seqGas_le : seqGasSum p b.certs ≤ p.seqGasBurst (currentSeqGasTarget s p b.header.height)
  parGas_le : parGasSum p b.certs ≤ p.parGasLimit (currentSeqGasTarget s p b.header.height)
  not_protocol : ∀ c ∈ b.certs, ∀ w ∈ c.writes, w.slot.addr.version ≠ addrVersionProtocol

variable {p : Params} {i : ℕ} {c : Certificate} {s : State} {h : Header} {inBlock : List Hash}
  {certs : List Certificate}

theorem check_validity_eq_ok : checkValidity p i c = .ok () ↔ check c p = .ok () := by
  unfold checkValidity
  split <;> simp_all

theorem check_cert_eq_ok :
    checkCert s h p i ⟨c, c.id⟩ inBlock = .ok () ↔ CertOK s h p c ∧ c.id ∉ inBlock := by
  simp only [checkCert, invalidCertIf, Except.seq_eq_ok, reject_if_eq_ok, check_validity_eq_ok,
    Option.not_isSome_iff_eq_none, not_lt, UInt64.not_lt, gt_iff_lt]
  constructor
  · rintro ⟨hv, hnew, hlive, hnear, hseen, hseq, hpar⟩
    exact ⟨⟨hv, hlive, hnear, hseen, hseq, hpar⟩, hnew⟩
  · rintro ⟨⟨hv, hlive, hnear, hseen, hseq, hpar⟩, hnew⟩
    exact ⟨hv, hnew, hlive, hnear, hseen, hseq, hpar⟩

theorem check_certs_eq_ok {gas gas' : UInt64 × UInt64} :
    checkCerts s h p i (carry certs) inBlock gas = .ok gas' ↔
      (∀ c ∈ certs, CertOK s h p c) ∧ (certs.map Certificate.id).Nodup ∧
        (∀ c ∈ certs, c.id ∉ inBlock) ∧
        gas' = (certs.foldl (fun g c => g + c.seqGas p) gas.1,
          certs.foldl (fun g c => g + c.parGas p) gas.2) := by
  induction certs generalizing i inBlock gas with
  | nil => simp [carry, checkCerts, eq_comm]
  | cons c rest ih =>
    simp only [carry, map_cons, checkCerts, seq_eq_ok, check_cert_eq_ok,
      foldl_cons, nodup_cons, forall_mem_cons] at ih ⊢
    rw [ih]
    simp only [mem_cons, not_or, mem_map, not_exists, not_and]
    constructor
    · rintro ⟨⟨hc, hnew⟩, hrest, hnodup, hdisj, hgas⟩
      exact ⟨⟨hc, hrest⟩, ⟨fun d hd => (hdisj d hd).1, hnodup⟩,
        ⟨hnew, fun d hd => (hdisj d hd).2⟩, hgas⟩
    · rintro ⟨⟨hc, hrest⟩, ⟨hne, hnodup⟩, ⟨hnew, hdisj⟩, hgas⟩
      exact ⟨⟨hc, hnew⟩, hrest, hnodup, fun d hd => ⟨hne d hd, hdisj d hd⟩, hgas⟩

theorem check_cites_from_congr {h' : Header} (hheight : h'.height = h.height)
    (hparent : h'.parentID = h.parentID) (lastID : Option Hash) (i : ℕ) (cites : List Header) :
    checkCitesFrom s h' lastID i cites = checkCitesFrom s h lastID i cites := by
  induction cites generalizing lastID i with
  | nil => rfl
  | cons cited rest ih => simp only [checkCitesFrom, checkCite, hheight, hparent, ih]

theorem assert_no_protocol_writes_eq_ok :
    assertNoProtocolWrites certs = .ok () ↔
      ∀ c ∈ certs, ∀ w ∈ c.writes, w.slot.addr.version ≠ addrVersionProtocol := by
  simp [assertNoProtocolWrites, check_each_eq_ok, invalidIf]

/-- The rules accept exactly the blocks that are `BlockOK`. -/
theorem check_block_rules_eq_ok {b : Block} :
    checkBlockRules s b p (carry b.certs) = .ok () ↔ BlockOK s b p := by
  simp only [checkBlockRules, invalidIf, seq_eq_ok, reject_if_eq_ok,
    bind_eq_ok (x := checkCerts s b.header p 0 (carry b.certs) [] (0, 0)),
    check_certs_eq_ok, assert_no_protocol_writes_eq_ok]
  constructor
  · rintro ⟨hver, hceil, hcert, hcite, hcites, hgen, hemit, hseed, hroot, gas,
      ⟨hcerts, hnodup, -, rfl⟩, hseq, hpar, hproto⟩
    exact {
      version := not_not.mp hver
      ceilings := hceil
      certRoot := not_not.mp hcert
      citesRoot := not_not.mp hcite
      cites := hcites
      genesis := hgen
      emissionAddr := hemit
      seedEpoch := hseed
      stateRoot := fun hb => by simpa [hb] using hroot
      certs := hcerts
      ids_nodup := hnodup
      seqGas_le := UInt64.not_lt.mp hseq
      parGas_le := UInt64.not_lt.mp hpar
      not_protocol := hproto }
  · intro h
    exact ⟨not_not.mpr h.version, h.ceilings, not_not.mpr h.certRoot, not_not.mpr h.citesRoot,
      h.cites, h.genesis, h.emissionAddr, h.seedEpoch, fun hroot => hroot.2 (h.stateRoot hroot.1),
      _, ⟨h.certs, h.ids_nodup, by simp, rfl⟩, UInt64.not_lt.mpr h.seqGas_le,
      UInt64.not_lt.mpr h.parGas_le, h.not_protocol⟩

end

end Zycord.Fold
