import Mathlib.Algebra.BigOperators.Ring.List
import Zycord.Core.Shipped
import Zycord.Fold.Trace
import Zycord.Validity.Decodable

/-!
# Gas in 64 bits

The two gas costs of a certificate and their totals over a block (`core/types/certificate.go`,
`core/fold/blockrules.go`) are computed in 64-bit words from prices that the parameters leave
unbounded. Without wrapping they are `exactSeqGas`, `exactParGas` and their sums; the words hold
these modulo 2^64. `gas_exact_iff` says when nothing has wrapped, and `gas_fits_of_prices` gives a
condition on the parameters alone under which no block within its ceilings wraps anything.
-/

namespace Zycord.Fold

open Result Certificate Except Nat Params Ssz Validity List

/-! ## Gas without wrapping -/

/-- The units of a program. -/
def deriveCount : Program → ℕ
  | .transfer moves => moves.length
  | .retire addrs => addrs.length
  | _ => 1

/-- Sequential gas as a number. -/
def exactSeqGas (p : Params) (c : Certificate) : ℕ :=
  p.gasSeqPerRead.toNat * c.reads.length + p.gasSeqPerWrite.toNat * c.writes.length +
    p.gasSeqPerRegistryInsert.toNat * c.markSpentCount + p.gasSeqPerSeenInsert.toNat

/-- Parallel gas as a number. -/
def exactParGas (p : Params) (c : Certificate) : ℕ :=
  p.gasParPerSig.toNat * c.sigs.length + p.gasParPerByte.toNat * c.sizeBytes +
    p.gasParPerDeriveUnit.toNat * deriveCount c.program

section

variable {p : Params} {c : Certificate} {certs : List Certificate}

theorem to_nat_mul_length (price : UInt64) (n : ℕ) :
    (price * UInt64.ofNat n).toNat = price.toNat * n % 2 ^ 64 := by
  rw [UInt64.toNat_mul, UInt64.toNat_ofNat', Nat.mul_mod_mod]

theorem to_nat_seq_gas (p : Params) (c : Certificate) :
    (c.seqGas p).toNat = exactSeqGas p c % 2 ^ 64 := by
  simp only [Certificate.seqGas, UInt64.toNat_add, to_nat_mul_length, exactSeqGas]
  omega

theorem to_nat_par_gas (p : Params) (c : Certificate) :
    (c.parGas p).toNat = exactParGas p c % 2 ^ 64 := by
  have hunits : (p.gasParPerDeriveUnit * c.program.deriveUnits).toNat =
      p.gasParPerDeriveUnit.toNat * deriveCount c.program % 2 ^ 64 := by
    cases hprog : c.program with
    | transfer moves | retire addrs => exact to_nat_mul_length _ _
    | _ => exact to_nat_mul_length _ 1
  simp only [Certificate.parGas, UInt64.toNat_add, to_nat_mul_length, hunits, exactParGas]
  omega

/-! ## Totals -/

theorem to_nat_running_total (f : Certificate → UInt64) (certs : List Certificate) (n : UInt64) :
    (certs.foldl (fun gas c => gas + f c) n).toNat =
      (n.toNat + (certs.map fun c => (f c).toNat).sum) % 2 ^ 64 := by
  induction certs generalizing n with
  | nil => exact (mod_eq_of_lt n.toNat_lt).symm
  | cons c rest ih =>
    rw [foldl_cons, ih, UInt64.toNat_add, map_cons, sum_cons, Nat.mod_add_mod, add_assoc]

theorem to_nat_running_sum (f : Certificate → UInt64) (certs : List Certificate) (n : UInt64)
    (h : n.toNat + (certs.map fun c => (f c).toNat).sum < 2 ^ 64) :
    (certs.foldl (fun gas c => gas + f c) n).toNat =
      n.toNat + (certs.map fun c => (f c).toNat).sum := by
  rw [to_nat_running_total, mod_eq_of_lt h]

theorem sum_mod_eq {f g : Certificate → ℕ} {m : ℕ} (h : ∀ c, f c = g c % m)
    (certs : List Certificate) : (certs.map f).sum % m = (certs.map g).sum % m := by
  induction certs with
  | nil => rfl
  | cons c rest ih =>
    rw [map_cons, map_cons, sum_cons, sum_cons, h, mod_add_mod, add_mod, ih, ← add_mod]

theorem to_nat_seq_gas_sum (p : Params) (certs : List Certificate) :
    (seqGasSum p certs).toNat = (certs.map (exactSeqGas p)).sum % 2 ^ 64 := by
  rw [seqGasSum, to_nat_running_total, UInt64.toNat_zero, Nat.zero_add]
  exact sum_mod_eq (to_nat_seq_gas p) certs

theorem to_nat_par_gas_sum (p : Params) (certs : List Certificate) :
    (parGasSum p certs).toNat = (certs.map (exactParGas p)).sum % 2 ^ 64 := by
  rw [parGasSum, to_nat_running_total, UInt64.toNat_zero, Nat.zero_add]
  exact sum_mod_eq (to_nat_par_gas p) certs

/-- Nothing wraps: the gas of every certificate of a block and every running total is exact. -/
structure GasExact (p : Params) (certs : List Certificate) : Prop where
  seqGas : ∀ c ∈ certs, (c.seqGas p).toNat = exactSeqGas p c
  parGas : ∀ c ∈ certs, (c.parGas p).toNat = exactParGas p c
  seqTotal : ∀ n, (seqGasSum p (certs.take n)).toNat = ((certs.take n).map (exactSeqGas p)).sum
  parTotal : ∀ n, (parGasSum p (certs.take n)).toNat = ((certs.take n).map (exactParGas p)).sum

/-- The exact totals of a block fit in 64 bits. -/
def GasBelow (p : Params) (certs : List Certificate) : Prop :=
  (certs.map (exactSeqGas p)).sum < 2 ^ 64 ∧ (certs.map (exactParGas p)).sum < 2 ^ 64

theorem le_sum_of_mem (f : Certificate → ℕ) (h : c ∈ certs) : f c ≤ (certs.map f).sum :=
  single_le_sum (fun _ _ => zero_le _) _ (mem_map_of_mem h)

theorem sum_take_le (f : Certificate → ℕ) (certs : List Certificate) (n : ℕ) :
    ((certs.take n).map f).sum ≤ (certs.map f).sum :=
  ((take_sublist n certs).map f).sum_le_sum fun _ _ => zero_le _

/-- Nothing wraps exactly when the two totals fit. -/
theorem gas_exact_iff : GasExact p certs ↔ GasBelow p certs := by
  constructor
  · intro h
    have hseq := h.seqTotal certs.length
    have hpar := h.parTotal certs.length
    rw [take_length] at hseq hpar
    exact ⟨hseq ▸ (seqGasSum p certs).toNat_lt, hpar ▸ (parGasSum p certs).toNat_lt⟩
  · intro ⟨hseq, hpar⟩
    refine ⟨fun c hc => ?_, fun c hc => ?_, fun n => ?_, fun n => ?_⟩
    · rw [to_nat_seq_gas]
      exact mod_eq_of_lt ((le_sum_of_mem _ hc).trans_lt hseq)
    · rw [to_nat_par_gas]
      exact mod_eq_of_lt ((le_sum_of_mem _ hc).trans_lt hpar)
    · rw [to_nat_seq_gas_sum]
      exact mod_eq_of_lt ((sum_take_le _ certs n).trans_lt hseq)
    · rw [to_nat_par_gas_sum]
      exact mod_eq_of_lt ((sum_take_le _ certs n).trans_lt hpar)

end

/-! ## What certificates apply -/

section

variable [Crypto] {p : Params} {s : State} {b : Block} {fs fp : U256} {ordered : List Carried}
  {σ σ' : FoldState} {tips tips' : U256}

/-- A counter that adds up over applied certificates. -/
def AppliedCounter (p : Params) (f : Certificate → UInt64) (counter : Result → UInt64) : Prop :=
  ∀ cy out burned res, counter (recordCert p cy out burned res) =
    if out.outcome = .applied then counter res + f cy.cert else counter res

omit [Crypto] in
theorem counts_seq_gas (p : Params) : AppliedCounter p (fun c => c.seqGas p) seqGasApplied := by
  intro cy out burned res
  by_cases happlied : out.outcome = .applied <;>
    simp [recordCert, happlied, countApplied, countUsed]

omit [Crypto] in
theorem counts_par_gas (p : Params) : AppliedCounter p (fun c => c.parGas p) parGasApplied := by
  intro cy out burned res
  by_cases happlied : out.outcome = .applied <;>
    simp [recordCert, happlied, countApplied, countUsed]

variable {f : Certificate → UInt64} {counter : Result → UInt64}

/-- A gas counter grows by no more than the certificates' gas. -/
theorem CertRun.counter_le (hcounts : AppliedCounter p f counter)
    (h : CertRun p fs fp ordered σ tips σ' tips')
    (hfit : (counter σ.res).toNat + (ordered.map fun cy => (f cy.cert).toNat).sum < 2 ^ 64) :
    (counter σ'.res).toNat ≤
      (counter σ.res).toNat + (ordered.map fun cy => (f cy.cert).toNat).sum := by
  induction h with
  | nil => exact le_add_right _ _
  | @cons cy rest σ σ' tips tips₁ tips' tip burned out j hstep _ _ ih =>
    rw [map_cons, sum_cons] at hfit ⊢
    have hle : (counter (recordCert p cy out burned σ.res)).toNat ≤
        (counter σ.res).toNat + (f cy.cert).toNat := by
      rw [hcounts]
      split
      · exact mod_le _ _
      · exact le_add_right _ _
    have hrest := ih (by dsimp only; omega)
    dsimp only at hrest
    omega

theorem CertTrace.counter_le (hcounts : AppliedCounter p f counter)
    (hempty : counter Result.empty = 0) (tr : CertTrace s b p)
    (hfit : (b.certs.map fun c => (f c).toNat).sum < 2 ^ 64) :
    (counter tr.σ₁.res).toNat ≤ (b.certs.foldl (fun gas c => gas + f c) 0).toNat := by
  have hperm : ((foldOrder (carry b.certs)).map fun cy => (f cy.cert).toNat).sum =
      (b.certs.map fun c => (f c).toNat).sum := by
    have hcerts : (carry b.certs).map (fun cy => (f cy.cert).toNat) =
        b.certs.map fun c => (f c).toNat := by simp [carry]
    rw [← hcerts]
    exact ((fold_order_perm (carry b.certs)).map _).sum_nat
  have hle := tr.certs.counter_le hcounts (by
    rw [hempty, UInt64.toNat_zero]
    omega)
  rw [to_nat_running_sum f b.certs 0 (by rw [UInt64.toNat_zero]; omega)]
  rwa [hperm, hempty] at hle

end

/-! ## Prices that cannot wrap -/

/-- The largest number of sub-derivations of a program within its limits. -/
def maxUnits (p : Params) : ℕ :=
  max 1 (max p.maxMovesPerTransfer.toInt.toNat p.maxRetireAddrs.toInt.toNat)

/-- A list capacity of the costliest certificates costs less than 2^64 in either gas. -/
structure PricesFit (p : Params) : Prop where
  seqGas : p.certListCapacity.toInt.toNat * (p.gasSeqPerRead.toNat * p.maxReads.toInt.toNat +
      p.gasSeqPerWrite.toNat * p.maxWrites.toInt.toNat +
      p.gasSeqPerRegistryInsert.toNat * p.maxWrites.toInt.toNat +
      p.gasSeqPerSeenInsert.toNat) < 2 ^ 64
  parGas : p.certListCapacity.toInt.toNat *
    (p.gasParPerSig.toNat * p.maxSigs.toInt.toNat + p.gasParPerDeriveUnit.toNat * maxUnits p) +
      p.gasParPerByte.toNat * p.blockByteCapacity.toInt.toNat < 2 ^ 64

theorem shipped_prices_fit : ∀ p ∈ Shipped.sets, PricesFit p := by
  intro p hp
  simp only [Shipped.sets, mem_cons, not_mem_nil, or_false] at hp
  obtain rfl | rfl | rfl | rfl := hp
  all_goals exact ⟨by decide, by decide⟩

section

variable {p : Params} {c : Certificate} {b : Block} {t : UInt64}

/-- What the first rule bounds about a certificate. -/
structure Limits (p : Params) (c : Certificate) : Prop where
  reads : c.reads.length ≤ p.maxReads.toInt.toNat
  writes : c.writes.length ≤ p.maxWrites.toInt.toNat
  sigs : c.sigs.length ≤ p.maxSigs.toInt.toNat
  units : deriveCount c.program ≤ maxUnits p

/-- A certificate of canonical form keeps the size limits. -/
theorem limits_of_check (h : checkCanonical c p = .ok ()) : Limits p c := by
  simp only [checkCanonical, seq_eq_ok, fail_over_eq_ok] at h
  obtain ⟨-, hprog, hreads, hwrites, hsigs, -⟩ := h
  refine ⟨by omega, by omega, by omega, ?_⟩
  unfold maxUnits
  cases hkind : c.program with
  | transfer moves =>
    rw [hkind, checkProgramLimits, fail_over_eq_ok] at hprog
    show moves.length ≤ _
    omega
  | retire addrs =>
    rw [hkind, checkProgramLimits, fail_over_eq_ok] at hprog
    show addrs.length ≤ _
    omega
  | _ => exact le_max_left _ _

theorem sum_size_le (b : Block) : (b.certs.map sizeBytes).sum ≤ b.sizeBytes := by
  have hcerts : (b.certs.map sizeBytes).sum ≤
      (encodeVariableList (b.certs.map marshal)).length := by
    rw [length_encode_variable_list, map_map]
    exact sum_le_sum fun c _ => le_add_left _ _
  simp only [Block.sizeBytes, Block.marshal, length_encode, zip_cons_cons, map_cons,
    sum_cons, fieldSize]
  omega

theorem capacities_of_ceilings (hp : p.validate = .ok ()) (h : checkCeilings b p t = .ok ()) :
    b.certs.length ≤ p.certListCapacity.toInt.toNat ∧
      (b.certs.map sizeBytes).sum ≤ p.blockByteCapacity.toInt.toNat := by
  simp only [checkCeilings, invalidIf, seq_eq_ok, reject_if_eq_ok] at h
  have hcap := max_certs_le_capacity (cert_list_capacity_pos hp) t
  have hbytePos : 0 < p.blockByteCapacity.toInt :=
    int_pos_of_validate (n := "block_byte_capacity") hp (by simp [consensusFields])
  have hlimit := to_int_byte_limit hbytePos t
  have hsize := sum_size_le b
  omega

theorem sum_le_mul {f : Certificate → ℕ} {certs : List Certificate} {bound cap : ℕ}
    (hf : ∀ c ∈ certs, f c ≤ bound) (hcap : certs.length ≤ cap) :
    (certs.map f).sum ≤ cap * bound := by
  have hsum := sum_le_card_nsmul (certs.map f) bound (by simpa using hf)
  rw [length_map] at hsum
  exact hsum.trans (mul_le_mul_right _ hcap)

/-- With prices that fit, no block within its ceilings wraps a total. -/
theorem gas_fits_of_prices (hp : p.validate = .ok ()) (hprices : PricesFit p)
    (hcerts : ∀ c ∈ b.certs, checkCanonical c p = .ok ()) (hceil : checkCeilings b p t = .ok ()) :
    GasBelow p b.certs := by
  obtain ⟨hcount, hbytes⟩ := capacities_of_ceilings hp hceil
  constructor
  · refine (sum_le_mul (fun c hc => ?_) hcount).trans_lt hprices.seqGas
    have hlimits := limits_of_check (hcerts c hc)
    have hspent : c.markSpentCount ≤ p.maxWrites.toInt.toNat :=
      (countP_le_length).trans hlimits.writes
    have hreads := mul_le_mul_left p.gasSeqPerRead.toNat hlimits.reads
    have hwrites := mul_le_mul_left p.gasSeqPerWrite.toNat hlimits.writes
    have hinserts := mul_le_mul_left p.gasSeqPerRegistryInsert.toNat hspent
    unfold exactSeqGas
    omega
  · have hsplit : (b.certs.map (exactParGas p)).sum =
        (b.certs.map fun c => p.gasParPerSig.toNat * c.sigs.length +
          p.gasParPerDeriveUnit.toNat * deriveCount c.program).sum +
          p.gasParPerByte.toNat * (b.certs.map sizeBytes).sum := by
      rw [← sum_map_mul_left, ← sum_map_add]
      refine congrArg sum (map_congr_left fun c _ => ?_)
      unfold exactParGas
      omega
    have hrest := sum_le_mul (f := fun c => p.gasParPerSig.toNat * c.sigs.length +
      p.gasParPerDeriveUnit.toNat * deriveCount c.program) (fun c hc => by
        have hlimits := limits_of_check (hcerts c hc)
        exact Nat.add_le_add (Nat.mul_le_mul_left _ hlimits.sigs)
          (mul_le_mul_left _ hlimits.units)) hcount
    have hbody := mul_le_mul_left p.gasParPerByte.toNat hbytes
    have hfits := hprices.parGas
    omega

/-- A block whose certificates pass the first rule and which is within its ceilings: its gas and
its running totals are computed exactly if and only if the two totals fit in 64 bits, and prices
that fit are enough for that. -/
theorem gas_sums_exact (hp : p.validate = .ok ())
    (hcerts : ∀ c ∈ b.certs, checkCanonical c p = .ok ()) (hceil : checkCeilings b p t = .ok ()) :
    (GasExact p b.certs ↔ GasBelow p b.certs) ∧ (PricesFit p → GasExact p b.certs) :=
  ⟨gas_exact_iff, fun hprices => gas_exact_iff.mpr (gas_fits_of_prices hp hprices hcerts hceil)⟩

end

section

open Sample Reference

attribute [local instance] Reference.crypto

namespace Sample

theorem prices_fit : PricesFit params := ⟨by decide, by decide⟩

/-- A block with a payment. -/
def paymentBlock : Block := ⟨header 3 (user 1), [payment], []⟩

/-- Writes that cost half a word. -/
def dear : Params := { params with gasSeqPerWrite := 0x8000000000000000 }

end Sample

/-- The payment of the sample chain is priced exactly. -/
theorem sample_gas_sums_exact : (∀ c ∈ paymentBlock.certs, checkCanonical c params = .ok ()) ∧
    checkCeilings paymentBlock params 1000 = .ok () ∧ GasExact params paymentBlock.certs := by
  have hcerts : ∀ c ∈ paymentBlock.certs, checkCanonical c params = .ok () := by decide +kernel
  have hceil : checkCeilings paymentBlock params 1000 = .ok () := by decide +kernel
  exact ⟨hcerts, hceil, (gas_sums_exact params_validate hcerts hceil).2 prices_fit⟩

/-- Accepted parameters under which the two writes of the payment cost 2^64 gas, that is nothing:
the block passes the burst bound that it exceeds. -/
theorem dear_writes_are_free : dear.validate = .ok () ∧
    (∀ c ∈ paymentBlock.certs, checkCanonical c dear = .ok ()) ∧
    checkCeilings paymentBlock dear dear.seqGasTargetGenesis = .ok () ∧
    seqGasSum dear paymentBlock.certs ≤ dear.seqGasBurst dear.seqGasTargetGenesis ∧
    (payment.seqGas dear).toNat = 2 ∧ exactSeqGas dear payment = 2 ^ 64 + 2 ∧
    ¬ GasExact dear paymentBlock.certs := by
  have hgas : (payment.seqGas dear).toNat = 2 ∧ exactSeqGas dear payment = 2 ^ 64 + 2 := by
    decide +kernel
  refine ⟨by decide +kernel, by decide +kernel, by decide +kernel, by decide +kernel, hgas.1,
    hgas.2, fun hexact => ?_⟩
  have heq := hexact.seqGas payment mem_cons_self
  exact absurd heq (by decide)

end

end Zycord.Fold
