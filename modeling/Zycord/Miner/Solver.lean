import Zycord.Fold.Run
import Zycord.Stratum.Work

/-!
# The solver and the verifier

`Solver` (`core/pow/pow.go`) keeps the proof-of-work input of a candidate header and writes each
nonce into it; `CheckWork` rebuilds seed, input and commitment from the header. `solver_agrees` says
that a try succeeds exactly when the header with that nonce and the digest it returned passes the
check, on a solver and all of its clones, and that what `Solve` leaves behind passes it.
-/

namespace Zycord.Miner

open List Option Stratum

section
variable [Crypto] [WorkHash]

/-- What does not change as nonces are tried, and the input they are written into. -/
structure Solver where
  key : Hash
  target : U256
  input : Bytes

namespace Solver

/-- A header's solver. -/
def new (h : Header) (p : Params) : Solver := ⟨keyFor h.height p, h.target, h.powInput⟩

/-- Try a nonce: the solver with the nonce in its input, the digest, and whether the commitment is
within the target. -/
def tryHash (s : Solver) (nonce : UInt32) : Solver × Hash × Bool :=
  let input := writeNonce s.input nonce
  let digest := WorkHash.hash s.key input
  ({ s with input }, digest,
    !decide (fromLEBytes (WorkHash.blake2b (input ++ digest.bytes)) > s.target.toNat))

end Solver

/-- A call on the solvers of a candidate, by number: try a nonce, or add a clone. -/
inductive SolverCall where
  | tryHash (i : ℕ) (nonce : UInt32)
  | clone (i : ℕ)

/-- What a call does to the solvers. -/
def SolverCall.apply (solvers : List Solver) : SolverCall → List Solver
  | .tryHash i nonce => solvers.modify i fun s => (s.tryHash nonce).1
  | .clone i => solvers ++ solvers[i]?.toList

/-- The nonces of one candidate in order, from `i` on. -/
def solveFrom (h : Header) : (attempts i : ℕ) → Solver → Header × Bool
  | 0, _, _ => (h, false)
  | attempts + 1, i, s =>
    let nonce := UInt32.ofNat i
    let (s', digest, ok) := s.tryHash nonce
    if ok then ({ h with pow := { h.pow with nonce }, powHash := digest }, true)
    else solveFrom h attempts (i + 1) s'

/-- Search a nonce for a header, in at most `limit` attempts: the header left behind and whether it
is solved. -/
def solve (h : Header) (p : Params) (limit : UInt64) : Header × Bool :=
  if h.height = 0 ∨ h.target.isZero then
    (h, match checkWork h p with
      | .ok _ => true
      | .error _ => false)
  else solveFrom h (min limit.toNat (2 ^ 32)) 0 (.new h p)

/-! ## The two constructions agree -/

variable {h : Header} {p : Params} {s : Solver}

/-- A header with a nonce and a digest. -/
def sealedWith (h : Header) (nonce : UInt32) (digest : Hash) : Header :=
  { h with pow := { h.pow with nonce }, powHash := digest }

omit [WorkHash] in
theorem write_nonce_input (h : Header) (nonce nonce' : UInt32) (digest digest' : Hash) :
    writeNonce (sealedWith h nonce digest).powInput nonce' =
      (sealedWith h nonce' digest').powInput := by
  have hgap : (h.powSeed.bytes ++ List.replicate 7 0).length = 39 := by simp
  have hnonce : (Ssz.uint32 nonce.toNat).length = 4 := by simp [Ssz.bytesPerLengthOffset]
  show (h.powSeed.bytes ++ List.replicate 7 0 ++ Ssz.uint32 nonce.toNat).take 39 ++ _ ++
    (h.powSeed.bytes ++ List.replicate 7 0 ++ Ssz.uint32 nonce.toNat).drop 43 =
      h.powSeed.bytes ++ List.replicate 7 0 ++ Ssz.uint32 nonce'.toNat
  rw [take_left' hgap, drop_of_length_le (by rw [length_append]; omega), append_nil]

/-- The solver works on the header: its input is that of the header with some nonce. -/
structure WorksOn (h : Header) (p : Params) (s : Solver) : Prop where
  key : s.key = keyFor h.height p
  target : s.target = h.target
  input : ∃ nonce, s.input = (sealedWith h nonce 0).powInput

omit [WorkHash] in
theorem works_on_new (h : Header) (p : Params) : WorksOn h p (.new h p) :=
  ⟨rfl, rfl, h.pow.nonce, rfl⟩

theorem WorksOn.input_try (hs : WorksOn h p s) (nonce : UInt32) (digest : Hash) :
    (s.tryHash nonce).1.input = (sealedWith h nonce digest).powInput := by
  obtain ⟨nonce', hinput⟩ := hs.input
  show writeNonce s.input nonce = _
  rw [hinput, write_nonce_input]

theorem WorksOn.try_hash (hs : WorksOn h p s) (nonce : UInt32) : WorksOn h p (s.tryHash nonce).1 :=
  ⟨hs.key, hs.target, nonce, hs.input_try nonce 0⟩

theorem check_work_eq_ok (hheight : h.height ≠ 0) (htarget : h.target.isZero = false) :
    checkWork h p = .ok () ↔ fromLEBytes (commitment h) ≤ h.target.toNat ∧
      WorkHash.hash (keyFor h.height p) h.powInput = h.powHash := by
  simp only [checkWork, checkCommitment, hheight, htarget, Except.seq_eq_ok, if_false,
    Bool.false_eq_true]
  by_cases hlow : fromLEBytes (commitment h) > h.target.toNat
  · simp [hlow]
  · by_cases hhash : WorkHash.hash (keyFor h.height p) h.powInput = h.powHash
    · simp [hhash, not_lt.mp hlow]
    · simp [hhash]

/-- A try succeeds exactly when the sealed header passes the check. -/
theorem WorksOn.try_iff (hs : WorksOn h p s) (hheight : h.height ≠ 0)
    (htarget : h.target.isZero = false) (nonce : UInt32) :
    ((s.tryHash nonce).2.2 = true ↔
      checkWork (sealedWith h nonce (s.tryHash nonce).2.1) p = .ok ()) ∧
    ∀ digest, digest ≠ (s.tryHash nonce).2.1 →
      checkWork (sealedWith h nonce digest) p ≠ .ok () := by
  have hdigest : ∀ digest, WorkHash.hash (keyFor h.height p) (sealedWith h nonce digest).powInput =
      (s.tryHash nonce).2.1 := by
    intro digest
    show _ = WorkHash.hash s.key (s.tryHash nonce).1.input
    rw [hs.key, hs.input_try nonce digest]
  have hrule := fun digest => check_work_eq_ok (h := sealedWith h nonce digest)
    (p := p) hheight htarget
  constructor
  · have hok : (s.tryHash nonce).2.2 = true ↔
        fromLEBytes (commitment (sealedWith h nonce (s.tryHash nonce).2.1)) ≤ h.target.toNat := by
      rw [commitment, ← hs.input_try nonce (s.tryHash nonce).2.1, ← hs.target]
      simp [Solver.tryHash, sealedWith]
    rw [hok, hrule]
    exact (and_iff_left (hdigest _)).symm
  · intro digest hne hpass
    exact hne (((hrule digest).mp hpass).2.symm.trans (hdigest digest))

/-- Every solver reached by calls works on its header. -/
theorem works_on_calls (h : Header) (p : Params) (calls : List SolverCall) :
    ∀ s ∈ calls.foldl SolverCall.apply [.new h p], WorksOn h p s := by
  have hrun : ∀ solvers : List Solver, (∀ s ∈ solvers, WorksOn h p s) →
      ∀ s ∈ calls.foldl SolverCall.apply solvers, WorksOn h p s := by
    induction calls with
    | nil => exact fun _ hall => hall
    | cons c calls ih =>
      intro solvers hall
      refine ih _ fun s hs => ?_
      cases c with
      | tryHash i nonce =>
        obtain ⟨j, hj⟩ := List.mem_iff_getElem?.mp hs
        rw [SolverCall.apply, getElem?_modify] at hj
        obtain ⟨s', hs', rfl⟩ := map_eq_some_iff.mp hj
        have hworks := hall s' (mem_of_getElem? hs')
        split
        · exact hworks.try_hash nonce
        · exact hworks
      | clone i =>
        rw [SolverCall.apply, List.mem_append] at hs
        obtain hs | hs := hs
        · exact hall s hs
        · exact hall s (mem_of_getElem? (mem_toList.mp hs))
  exact hrun _ (by simpa using works_on_new h p)

theorem check_work_of_solve_from {attempts i : ℕ} (hs : WorksOn h p s) (hheight : h.height ≠ 0)
    (htarget : h.target.isZero = false) {h' : Header}
    (hsolve : solveFrom h attempts i s = (h', true)) : checkWork h' p = .ok () := by
  induction attempts generalizing i s with
  | zero => cases hsolve
  | succ attempts ih =>
    simp only [solveFrom] at hsolve
    split_ifs at hsolve with hok
    · obtain rfl := (Prod.mk.inj hsolve).1
      exact (hs.try_iff hheight htarget _).1.mp hok
    · exact ih (hs.try_hash _) hsolve

/-- For every header above genesis with a target, on its solver and the clones of it after any
calls: a try succeeds exactly when the header with that nonce and the digest it returns passes the
check, and with any other digest the header fails it. Whatever `solve` reports as solved passes. -/
theorem solver_agrees (p : Params) :
    (∀ h : Header, h.height ≠ 0 → h.target ≠ 0 → ∀ (calls : List SolverCall) (s : Solver),
      s ∈ calls.foldl SolverCall.apply [.new h p] → ∀ nonce : UInt32,
      ((s.tryHash nonce).2.2 = true ↔
        checkWork (sealedWith h nonce (s.tryHash nonce).2.1) p = .ok ()) ∧
      ∀ digest, digest ≠ (s.tryHash nonce).2.1 → checkWork (sealedWith h nonce digest) p ≠ .ok ()) ∧
    ∀ (h h' : Header) (limit : UInt64), solve h p limit = (h', true) → checkWork h' p = .ok () := by
  constructor
  · intro h hheight htarget calls s hs nonce
    have hzero : h.target.isZero = false := by simpa [U256.isZero] using htarget
    exact (works_on_calls h p calls s hs).try_iff hheight hzero nonce
  · intro h h' limit hsolve
    unfold solve at hsolve
    split_ifs at hsolve with hsearch
    · cases hcheck : checkWork h p with
      | ok u =>
        obtain rfl := (Prod.mk.inj hsolve).1
        exact hcheck
      | error e => simp [hcheck] at hsolve
    · rw [not_or, Bool.not_eq_true] at hsearch
      exact check_work_of_solve_from (works_on_new h p) hsearch.1 hsearch.2 hsolve

end

section

open Fold.Sample

attribute [local instance] Reference.crypto

namespace Sample

/-- A header that any digest solves. -/
def easy : Header := { header 1 0 with target := U256.max }

end Sample

open Sample

attribute [local instance] Stratum.Sample.workHash

/-- It is solved by its first nonce, and a digest of zero does not pass, on a clone that was made
after a try either. -/
theorem sample_solver_agrees :
    (∃ h, solve easy params 1 = (h, true) ∧ checkWork h params = .ok ()) ∧
    (∃ s, ([.tryHash 0 7, .clone 0].foldl SolverCall.apply [.new easy params])[1]? = some s ∧
      checkWork (sealedWith easy 0 (s.tryHash 0).2.1) params = .ok ()) ∧
    checkWork (sealedWith easy 0 0) params ≠ .ok () := by
  obtain ⟨htry, hsolve⟩ := solver_agrees params
  have hclone : ∃ s, ([.tryHash 0 7, .clone 0].foldl SolverCall.apply [.new easy params])[1]? =
      some s ∧ (s.tryHash 0).2.2 = true ∧ (0 : Hash) ≠ (s.tryHash 0).2.1 := by
    decide +kernel
  obtain ⟨s, hs, hok, hdigest⟩ := hclone
  obtain ⟨hiff, hother⟩ := htry easy (by decide +kernel) (by decide +kernel) _ s
    (mem_of_getElem? hs) 0
  refine ⟨?_, ⟨s, hs, hiff.mp hok⟩, hother 0 hdigest⟩
  have hsolved : (solve easy params 1).2 = true := by decide +kernel
  have hpair : solve easy params 1 = ((solve easy params 1).1, true) := by rw [← hsolved]
  exact ⟨_, hpair, hsolve _ _ _ hpair⟩

end

end Zycord.Miner
