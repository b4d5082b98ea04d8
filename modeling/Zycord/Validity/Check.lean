import Zycord.Validity.Derive

/-!
# Stateless validity

The V-rules (`core/validity/validity.go`): what every node checks about a certificate before it
looks at any state, with the rule and the text of each refusal. `ValidCert` lists what a passed
check says, and `validCert_of_check` is the way from one to the other; everything about
certificates that is proved later starts from `ValidCert`.
-/

namespace Zycord.Validity

open Crypto

/-- The stateless rules. -/
inductive VRule where
  | V1 | V2 | V3 | V4 | V5 | V6 | V7 | V9
deriving DecidableEq

/-- The name of a rule. -/
def VRule.name : VRule → String
  | V1 => "V1" | V2 => "V2" | V3 => "V3" | V4 => "V4"
  | V5 => "V5" | V6 => "V6" | V7 => "V7" | V9 => "V9"

/-- The rule a certificate failed, and why. -/
structure RuleError where
  rule : VRule
  err : String
deriving DecidableEq

/-- Refuse a certificate under a rule when a condition holds. -/
def failIf (c : Prop) [Decidable c] (rule : VRule) (err : String) : Except RuleError Unit :=
  rejectIf c ⟨rule, err⟩

/-- The first place out of order. -/
def firstUnsorted {α : Type} (key : α → ℕ) : ℕ → List α → Option ℕ
  | i, a :: b :: rest => if key a < key b then firstUnsorted key (i + 1) (b :: rest) else some i
  | _, _ => none

/-- The first place at which lists differ. -/
def firstMismatch {α : Type} [DecidableEq α] : ℕ → List α → List α → Option ℕ
  | i, a :: as, b :: bs => if a = b then firstMismatch (i + 1) as bs else some i
  | _, _, _ => none

/-- Refuse when a position was found, naming it. -/
def failAt (found : Option ℕ) (rule : VRule) (err : ℕ → String) : Except RuleError Unit :=
  match found with
  | some i => .error ⟨rule, err i⟩
  | none => .ok ()

/-- A list length against its limit. -/
def failOver (n : ℕ) (limit : Int64) (what : String) : Except RuleError Unit :=
  failIf (n > limit.toInt) .V1
    (toString n ++ " " ++ what ++ " exceeds the limit of " ++ toString limit.toInt)

/-- The limits of a program's own lists. -/
def checkProgramLimits (prog : Program) (p : Params) : Except RuleError Unit :=
  match prog with
  | .transfer moves => failOver moves.length p.maxMovesPerTransfer "moves"
  | .retire addrs => failOver addrs.length p.maxRetireAddrs "retire targets"
  | _ => .ok ()

/-- Rule V1: canonical form, ordering, limits and chain binding. -/
def checkCanonical (c : Certificate) (p : Params) : Except RuleError Unit := do
  failIf (c.chainID ≠ p.chainID) .V1
    ("chain id " ++ toString c.chainID ++ " is not this network's " ++ toString p.chainID)
  checkProgramLimits c.program p
  failOver c.reads.length p.maxReads "reads"
  failOver c.writes.length p.maxWrites "writes"
  failOver c.sigs.length p.maxSigs "signatures"
  failIf (c.sigs.length = 0) .V1 "certificate carries no signatures"
  failAt (firstUnsorted (fun r : Read => r.slot.rank) 1 c.reads) .V1
    fun i => "reads are not strictly sorted by slot at index " ++ toString i
  failAt (firstUnsorted (fun w : Write => w.slot.rank) 1 c.writes) .V1
    fun i => "writes are not strictly sorted by slot at index " ++ toString i
  failAt (firstUnsorted (fun s : Sig => s.pubKey.toNat) 1 c.sigs) .V1
    fun i => "signatures are not strictly sorted by public key at index " ++ toString i
  failIf (c.feeBid.seqPriority > c.feeBid.seqMax) .V1
    ("sequential priority " ++ toString c.feeBid.seqPriority.toNat ++
      " exceeds the maximum of " ++ toString c.feeBid.seqMax.toNat)
  failIf (c.feeBid.parPriority > c.feeBid.parMax) .V1
    ("parallel priority " ++ toString c.feeBid.parPriority.toNat ++
      " exceeds the maximum of " ++ toString c.feeBid.parMax.toNat)

/-- The read of a slot. -/
def readOf (c : Certificate) (slot : Slot) : Option Read := c.reads.findRev? fun r => r.slot = slot

/-- The addresses a certificate burns. -/
def spentHere (c : Certificate) : List Address :=
  (c.writes.filter fun w => w.op = .markSpent).map fun w => w.slot.addr

/-- The delta terms of rule V6 for one write. -/
def checkDelta (c : Certificate) (w : Write) : Except RuleError Unit :=
  match w.op, readOf c w.slot with
  | .deltaSub, none => .error ⟨.V6, "DELTA_SUB on a slot with no read to bound it"⟩
  | .deltaSub, some r =>
    match r.access with
    | .exact | .guardGE | .guardEQ =>
      failIf (w.value > r.operand) .V6
        ("DELTA_SUB of " ++ toString w.value.toNat ++ " exceeds the read bound of " ++
          toString r.operand.toNat)
    | _ => .error ⟨.V6, "DELTA_SUB bounded only from above"⟩
  | .deltaAdd, some r =>
    match r.access with
    | .exact | .guardEQ | .guardLE =>
      failIf ((r.operand.add w.value).2 = true) .V6
        "DELTA_ADD provably overflows against its read bound"
    | _ => .ok ()
  | _, _ => .ok ()

/-- The addresses a certificate takes from. -/
def debitedAddrs (c : Certificate) : List Address :=
  c.deposit.cell.addr ::
    (c.writes.filter fun w => w.op = .deltaSub || w.op = .set).map fun w => w.slot.addr

/-- Rule V6: no contradiction, one-shot debits burn, and nothing is credited to an address the
certificate burns. -/
def checkSelfConsistency (c : Certificate) : Except RuleError Unit := do
  checkEach (spentHere c) fun a =>
    failIf (isUserAddress a = false) .V6 "MARK_SPENT targets a non-user address"
  checkEach c.writes (checkDelta c)
  checkEach (debitedAddrs c) fun a =>
    failIf (a.version = addrVersionOneShot ∧ a ∉ spentHere c) .V6
      "one-shot address is debited without an explicit MARK_SPENT"
  checkEach c.writes fun w =>
    failIf (w.op ≠ .markSpent ∧ w.op ≠ .deltaSub ∧ w.slot.addr ∈ spentHere c) .V6
      "writes value to an address this certificate marks spent"

/-- Rule V7: certificates never write protocol cells. -/
def checkProtocolExclusion (c : Certificate) : Except RuleError Unit :=
  checkEach c.writes fun w =>
    failIf (w.slot.addr.version = addrVersionProtocol) .V7 "certificate writes a protocol cell"

/-- The addresses whose owners have to sign. -/
def requiredAddrs (c : Certificate) : List Address :=
  c.deposit.cell.addr ::
    ((c.writes.filter fun w =>
        (w.op = .set || w.op = .deltaSub || w.op = .markSpent) && isUserAddress w.slot.addr).map
      fun w => w.slot.addr) ++
    match c.program with
    | .issue args => [args.issuer]
    | _ => []

/-- The keys that have to sign in their own right. -/
def requiredKeys (c : Certificate) : List PubKey :=
  match c.program with
  | .mint args => [args.minter]
  | _ => []

/-- Rule V9: every address named carries a version byte this release defines. -/
def checkAddressVersions (c : Certificate) : Except RuleError Unit := do
  checkEach c.reads.zipIdx fun r =>
    failIf (isKnownAddressVersion r.1.slot.addr = false) .V9
      ("read " ++ toString r.2 ++ " names an unknown address version")
  checkEach c.writes.zipIdx fun w =>
    failIf (isKnownAddressVersion w.1.slot.addr = false) .V9
      ("write " ++ toString w.2 ++ " names an unknown address version")
  failIf (isKnownAddressVersion c.deposit.cell.addr = false) .V9
    "deposit cell names an unknown address version"
  failIf (isKnownAddressVersion c.deposit.refundTo.addr = false) .V9
    "refund target names an unknown address version"

/-! ## Passing single checks -/

variable {rule : VRule} {u : Unit} {α : Type} {i : ℕ}

theorem fail_if_eq_ok {c : Prop} [Decidable c] {err : String} :
    failIf c rule err = .ok u ↔ ¬ c := reject_if_eq_ok

theorem fail_at_eq_ok {found : Option ℕ} {err : ℕ → String} :
    failAt found rule err = .ok u ↔ found = none := by
  cases found <;> simp [failAt]

theorem pairwise_of_first_unsorted {key : α → ℕ} {xs : List α} (h : firstUnsorted key i xs = none) :
    xs.Pairwise fun a b => key a < key b := by
  rw [← List.isChain_iff_pairwise]
  induction xs generalizing i with
  | nil => exact List.IsChain.nil
  | cons a rest ih =>
    cases rest with
    | nil => exact List.IsChain.singleton a
    | cons b rest =>
      simp only [firstUnsorted] at h
      split at h
      · rename_i hlt
        exact List.IsChain.cons_cons hlt (ih h)
      · simp at h

theorem eq_of_first_mismatch [DecidableEq α] {as bs : List α} (hlen : as.length = bs.length)
    (h : firstMismatch i as bs = none) : as = bs := by
  induction as generalizing bs i with
  | nil => simpa [eq_comm] using hlen
  | cons a as ih =>
    cases bs with
    | nil => simp at hlen
    | cons b bs =>
      simp only [firstMismatch] at h
      split at h
      · rename_i hab
        rw [hab, ih (by simpa using hlen) h]
      · simp at h

theorem sorted_of_check {c : Certificate} {p : Params} (h : checkCanonical c p = .ok ()) :
    (c.reads.Pairwise fun a b => a.slot < b.slot) ∧
      c.writes.Pairwise fun a b => a.slot < b.slot := by
  simp only [checkCanonical, Except.seq_eq_ok, fail_at_eq_ok] at h
  obtain ⟨-, -, -, -, -, -, hr, hwr, -⟩ := h
  exact ⟨pairwise_of_first_unsorted hr, pairwise_of_first_unsorted hwr⟩

/-! ## Rules that hash -/

section

variable [Crypto]

/-- Rule V2: every signature verifies over the signing message. -/
def checkSignatures (c : Certificate) (p : Params) : Except RuleError Unit :=
  checkEach c.sigs.zipIdx fun s =>
    failIf (verifyStrict s.1.pubKey (c.signingMessage p) s.1.sig = false) .V2
      ("signature " ++ toString s.2 ++ " does not verify")

/-- Rule V3: the declared sets are the derived ones. -/
def checkDerivation (c : Certificate) : Except RuleError Unit :=
  match deriveCert c.program c.chainID c.seq c.deposit.cell.addr with
  | .error e => .error ⟨.V3, e.message⟩
  | .ok (reads, writes) => do
      failIf (reads.length ≠ c.reads.length) .V3
        ("declared " ++ toString c.reads.length ++ " reads, program derives " ++
          toString reads.length)
      failAt (firstMismatch 0 reads c.reads) .V3
        fun i => "declared read " ++ toString i ++ " does not match the derived read"
      failIf (writes.length ≠ c.writes.length) .V3
        ("declared " ++ toString c.writes.length ++ " writes, program derives " ++
          toString writes.length)
      failAt (firstMismatch 0 writes c.writes) .V3
        fun i => "declared write " ++ toString i ++ " does not match the derived write"

/-- Whether a key is that of an address. -/
def authorises (s : Sig) (a : Address) : Bool := addressFromPubKey a.version s.pubKey = a

/-- Rule V4: every write that needs a signature has one, and every signature is needed. -/
def checkAuthorization (c : Certificate) : Except RuleError Unit := do
  failIf (∃ a ∈ requiredAddrs c, ∀ s ∈ c.sigs, authorises s a = false) .V4
    "a write or debit is not authorised by any signature"
  failIf (∃ k ∈ requiredKeys c, ∀ s ∈ c.sigs, s.pubKey ≠ k) .V4
    "a privileged operation is missing its authorising key"
  checkEach c.sigs.zipIdx fun s =>
    failIf (s.1.pubKey ∉ requiredKeys c ∧ ∀ a ∈ requiredAddrs c, authorises s.1 a = false) .V4
      ("signature " ++ toString s.2 ++ " authorises nothing")

/-- Rule V5: the deposit is a native cell its owner can debit, refunds somewhere that survives
the certificate, covers the fee ceiling and is no more than the schedule can have issued. -/
def checkDeposit (c : Certificate) (p : Params) : Except RuleError Unit := do
  let d := c.deposit
  failIf (isNativeBalanceSlot d.cell = false) .V5
    "deposit cell is not a native-coin balance cell"
  failIf (isUserAddress d.cell.addr = false) .V5 "deposit cell is not owned by a user address"
  failIf (isNativeBalanceSlot d.refundTo = false) .V5
    "refund slot is not a native-coin balance cell"
  failIf (isUserAddress d.refundTo.addr = false) .V5
    "refund slot is not owned by a user address"
  failIf (d.cell.addr.version = addrVersionOneShot ∧ d.refundTo.addr = d.cell.addr) .V5
    "refund targets the one-shot address the deposit burns"
  failIf (d.refundTo.addr ∈ spentHere c) .V5
    "refund targets an address this certificate marks spent"
  match c.feeCeiling p with
  | none => .error ⟨.V5, "fee ceiling overflows 256 bits"⟩
  | some ceiling => do
      failIf (d.amount < ceiling) .V5
        ("deposit of " ++ toString d.amount.toNat ++ " does not cover the fee ceiling of " ++
          toString ceiling.toNat)
      failIf (d.amount > p.cumulativeEmission c.ttl) .V5
        ("deposit of " ++ toString d.amount.toNat ++ " exceeds the " ++
          toString (p.cumulativeEmission c.ttl).toNat ++
          " the schedule can have issued by height " ++ toString c.ttl)

/-- The rules that need no signature check. -/
def checkStructural (c : Certificate) (p : Params) : Except RuleError Unit := do
  checkCanonical c p
  checkDerivation c
  checkSelfConsistency c
  checkProtocolExclusion c
  checkAuthorization c
  checkDeposit c p
  checkAddressVersions c

/-- The complete stateless validity predicate. -/
def check (c : Certificate) (p : Params) : Except RuleError Unit := do
  checkStructural c p
  checkSignatures c p

/-! ## What a passed check says -/

/-- The facts about a certificate that passed every V-rule. -/
structure ValidCert (c : Certificate) (p : Params) : Prop where
  derived : deriveCert c.program c.chainID c.seq c.deposit.cell.addr = .ok (c.reads, c.writes)
  reads_sorted : c.reads.Pairwise fun a b => a.slot < b.slot
  writes_sorted : c.writes.Pairwise fun a b => a.slot < b.slot
  not_protocol : ∀ w ∈ c.writes, w.slot.addr.version ≠ addrVersionProtocol
  burned_clean : ∀ w ∈ c.writes, w.op ≠ .markSpent → w.op ≠ .deltaSub → w.slot.addr ∉ spentHere c
  oneShot_burned : ∀ a ∈ debitedAddrs c, a.version = addrVersionOneShot → a ∈ spentHere c
  authorised : ∀ a ∈ requiredAddrs c, ∃ s ∈ c.sigs, authorises s a = true
  keyed : ∀ k ∈ requiredKeys c, ∃ s ∈ c.sigs, s.pubKey = k
  deposit_native : c.deposit.cell.word = balanceWord nativeAsset
  deposit_user : isUserAddress c.deposit.cell.addr = true
  refund_native : c.deposit.refundTo.word = balanceWord nativeAsset
  refund_user : isUserAddress c.deposit.refundTo.addr = true
  refund_not_burned : c.deposit.refundTo.addr ∉ spentHere c
  covered : ∃ ceiling, c.feeCeiling p = some ceiling ∧ ceiling ≤ c.deposit.amount
  amount_le : c.deposit.amount ≤ p.cumulativeEmission c.ttl
  verified : ∀ s ∈ c.sigs, verifyStrict s.pubKey (c.signingMessage p) s.sig = true

variable {c : Certificate}

theorem derived_of_check (h : checkDerivation c = .ok ()) :
    deriveCert c.program c.chainID c.seq c.deposit.cell.addr = .ok (c.reads, c.writes) := by
  unfold checkDerivation at h
  split at h
  · simp at h
  · rename_i reads writes hd
    simp only [Except.seq_eq_ok, fail_if_eq_ok, fail_at_eq_ok, not_not] at h
    obtain ⟨hrlen, hr, hwlen, hwr⟩ := h
    rw [hd, eq_of_first_mismatch hrlen hr, eq_of_first_mismatch hwlen hwr]

/-- A certificate that passes the check is valid. -/
theorem validCert_of_check {p : Params} (h : check c p = .ok ()) : ValidCert c p := by
  simp only [check, checkStructural, Except.seq_eq_ok] at h
  obtain ⟨⟨hcan, hder, hself, hproto, hauth, hdep, -⟩, hsig⟩ := h
  simp only [checkSelfConsistency, checkProtocolExclusion, checkAuthorization, checkDeposit,
    checkSignatures, Except.seq_eq_ok, check_each_eq_ok, fail_if_eq_ok]
    at hself hproto hauth hdep hsig
  obtain ⟨-, -, hshot, hclean⟩ := hself
  obtain ⟨hdnat, hduser, hrnat, hruser, -, hrburn, hceil⟩ := hdep
  have hceil' : (∃ ceiling, c.feeCeiling p = some ceiling ∧ ceiling ≤ c.deposit.amount) ∧
      c.deposit.amount ≤ p.cumulativeEmission c.ttl := by
    split at hceil
    · simp at hceil
    · rename_i ceiling hc
      simp only [Except.seq_eq_ok, fail_if_eq_ok, not_lt] at hceil
      exact ⟨⟨ceiling, hc, hceil.1⟩, hceil.2⟩
  exact {
    derived := derived_of_check hder
    reads_sorted := (sorted_of_check hcan).1
    writes_sorted := (sorted_of_check hcan).2
    not_protocol := hproto
    burned_clean := fun w hw hm hs ha => hclean w hw ⟨hm, hs, ha⟩
    oneShot_burned := fun a ha hv => by simpa [hv] using hshot a ha
    authorised := by simpa using hauth.1
    keyed := by simpa using hauth.2.1
    deposit_native := by simpa [isNativeBalanceSlot] using hdnat
    deposit_user := by simpa using hduser
    refund_native := by simpa [isNativeBalanceSlot] using hrnat
    refund_user := by simpa using hruser
    refund_not_burned := hrburn
    covered := hceil'.1
    amount_le := hceil'.2
    verified := fun s hs => by
      obtain ⟨i, hi⟩ := List.mem_iff_getElem?.mp hs
      simpa using hsig (s, i) (List.mem_zipIdx_iff_getElem?.mpr hi) }

end

end Zycord.Validity
