import Zycord.Fold.Solvency

/-!
# Dry runs

A producer has to fill a header in before it can be judged. `sealStateRoot` and `sealOutcomes` run
the fold on a copy of the state without looking at the root the header claims.
`apply_block_eq_ok_iff` says that a block is accepted when its dry run is and, at an epoch boundary,
the header carries the root of the dry run; `SameRules` names the header fields a dry run reads, and
`refused_names_cert` says that a block whose other rules hold is refused on account of one of its
certificates.
-/

namespace Zycord.Fold

open Except Mut Result UndoLog Crypto

section

variable [Crypto] {s s' : State} {b b' : Block} {p : Params} {checkRoot : Bool} {r : Result}

/-! ## The root check -/

theorem apply_eq_ok_iff : apply s b p checkRoot = (.ok r, s') ↔
    BlockOK s b p ∧ ∃ σ, transition b.header b.cites (foldOrder (carry b.certs)) p
        (currentSeqGasTarget s p b.header.height) checkRoot
        ⟨⟨s, empty⟩, empty⟩ = (.ok (), σ) ∧
      r = { σ.res with undo := σ.j.log } ∧ s' = σ.j.s := by
  constructor
  · exact apply_eq_ok
  · intro ⟨hok, σ, hσ, hr, hs⟩
    simp only [apply, check_block_rules_eq_ok.mpr hok, hσ, hr, hs]

/-- The fold state with its root filled in. -/
def sealed (h : Header) (p : Params) (σ : FoldState) : FoldState :=
  ⟨σ.j, { σ.res with
    stateRoot := if p.isEpochBoundary h.height then σ.j.s.root else σ.res.stateRoot }⟩

theorem seal_root_dry (h : Header) (σ : FoldState) :
    sealRoot h p false σ = (.ok (), sealed h p σ) := by
  rcases run_cases (sealRoot h p false) σ with ⟨_, σ', hrun⟩ | ⟨e, σ', hrun⟩
  · obtain ⟨-, rfl⟩ := of_wp_ok (seal_root_spec false σ) hrun
    exact hrun
  · obtain ⟨hc, -⟩ := of_wp_error (seal_root_spec false σ) hrun
    cases hc

variable {h h' : Header} {σ σ' : FoldState} {i : ℕ} {inBlock : List Hash} {e : FoldError}

/-- Checking the root adds one condition, at boundaries only. -/
theorem seal_root_eq_ok_iff :
    sealRoot h p true σ = (.ok (), σ') ↔ sealRoot h p false σ = (.ok (), σ') ∧
      (p.isEpochBoundary h.height = true → h.stateRoot = σ'.res.stateRoot) := by
  rw [seal_root_dry]
  constructor
  · intro hrun
    obtain ⟨hroot, rfl⟩ := of_wp_ok (seal_root_spec true σ) hrun
    refine ⟨rfl, fun hb => ?_⟩
    rw [hroot hb rfl]
    exact (if_pos hb).symm
  · intro ⟨hdry, hroot⟩
    obtain rfl : sealed h p σ = σ' := congrArg Prod.snd hdry
    rcases run_cases (sealRoot h p true) σ with ⟨_, σ', hrun⟩ | ⟨e, σ', hrun⟩
    · obtain ⟨-, rfl⟩ := of_wp_ok (seal_root_spec true σ) hrun
      exact hrun
    · obtain ⟨-, -, hb, hne⟩ := of_wp_error (seal_root_spec true σ) hrun
      exact absurd ((hroot hb).trans (if_pos hb)) hne

theorem transition_eq_ok_iff {cites : List Header} {ordered : List Carried} {t : UInt64} :
    transition h cites ordered p t true σ = (.ok (), σ') ↔
      transition h cites ordered p t false σ = (.ok (), σ') ∧
        (p.isEpochBoundary h.height = true → h.stateRoot = σ'.res.stateRoot) := by
  simp only [transition, Mut.bind_eq_ok, seal_root_eq_ok_iff, ← and_assoc, exists_and_right]

/-- A block is accepted when its dry run is and its header carries the root of the dry run. -/
theorem apply_block_eq_ok_iff : applyBlock s b p = (.ok r, s') ↔ apply s b p false = (.ok r, s') ∧
      (p.isEpochBoundary b.header.height = true → b.header.stateRoot = r.stateRoot) := by
  rw [applyBlock, apply_eq_ok_iff, apply_eq_ok_iff]
  constructor
  · intro ⟨hok, σ, hσ, hr, hs⟩
    obtain ⟨hdry, hroot⟩ := transition_eq_ok_iff.mp hσ
    subst hr
    exact ⟨⟨hok, σ, hdry, rfl, hs⟩, hroot⟩
  · intro ⟨⟨hok, σ, hσ, hr, hs⟩, hroot⟩
    subst hr
    exact ⟨hok, σ, transition_eq_ok_iff.mpr ⟨hσ, hroot⟩, rfl, hs⟩

/-! ## What a dry run reads of a header -/

/-- The headers that a dry run does not tell apart: they agree on everything but their times, their
nonces, their work and, at an epoch boundary, their state roots. -/
structure SameRules (p : Params) (h h' : Header) : Prop where
  version : h'.version = h.version
  height : h'.height = h.height
  parentID : h'.parentID = h.parentID
  certRoot : h'.certRoot = h.certRoot
  citesRoot : h'.citesRoot = h.citesRoot
  emissionAddr : h'.emissionAddr = h.emissionAddr
  seedEpoch : h'.pow.seedEpoch = h.pow.seedEpoch
  target : h'.target = h.target
  stateRoot : p.isEpochBoundary h.height = false → h'.stateRoot = h.stateRoot

omit [Crypto] in
theorem SameRules.symm (hs : SameRules p h h') : SameRules p h' h :=
  ⟨hs.version.symm, hs.height.symm, hs.parentID.symm, hs.certRoot.symm, hs.citesRoot.symm,
    hs.emissionAddr.symm, hs.seedEpoch.symm, hs.target.symm,
    fun hb => (hs.stateRoot (hs.height ▸ hb)).symm⟩

theorem CertOK.of_height {c : Certificate} (hc : CertOK s h p c) (heq : h'.height = h.height) :
    CertOK s h' p c := by
  obtain ⟨hchecked, hlive, hnear, hunseen, hseq, hpar⟩ := hc
  rw [← heq] at hlive hnear hseq hpar
  exact ⟨hchecked, hlive, hnear, hunseen, hseq, hpar⟩

/-- The block rules see only the header fields they name. -/
theorem BlockOK.congr (hok : BlockOK s b p) (hcerts : b'.certs = b.certs)
    (hcites : b'.cites = b.cites) (hs : SameRules p b.header b'.header) : BlockOK s b' p := by
  have hsize : b'.sizeBytes = b.sizeBytes := Block.size_bytes_of_perm (hcerts ▸ .refl _) hcites
  have hceil := hok.ceilings
  have hgen := hok.genesis
  have haddr := hok.emissionAddr
  have hseed := hok.seedEpoch
  have hcite := hok.cites
  refine {
    version := hs.version.trans hok.version
    ceilings := ?_
    certRoot := ?_
    citesRoot := ?_
    cites := ?_
    genesis := ?_
    emissionAddr := ?_
    seedEpoch := ?_
    stateRoot := fun hb => ?_
    certs := fun c hc => (hok.certs c (hcerts ▸ hc)).of_height hs.height
    ids_nodup := hcerts ▸ hok.ids_nodup
    seqGas_le := ?_
    parGas_le := ?_
    not_protocol := hcerts ▸ hok.not_protocol }
  · simpa only [checkCeilings, hcerts, hcites, hsize, hs.height] using hceil
  · rw [hs.certRoot, ← hok.certRoot, Block.computeCertRoot, Block.computeCertRoot,
      Block.certExemplars, Block.certExemplars, hcerts]
  · rw [hs.citesRoot, ← hok.citesRoot, Block.computeCitesRoot, Block.computeCitesRoot,
      Block.citeIDs, Block.citeIDs, hcites]
  · simpa only [checkCites, hs.height, hcites, check_cites_from_congr hs.height hs.parentID]
  · simpa only [checkGenesisShape, hs.height, hs.parentID, hs.emissionAddr, hcerts] using hgen
  · simpa only [checkEmissionAddr, hs.height, hs.emissionAddr] using haddr
  · simpa only [checkSeedEpoch, hs.height, hs.seedEpoch] using hseed
  · rw [hs.height] at hb
    exact (hs.stateRoot hb).trans (hok.stateRoot hb)
  · rw [hcerts, hs.height]
    exact hok.seqGas_le
  · rw [hcerts, hs.height]
    exact hok.parGas_le

/-- The transition sees only the header fields the rules name. -/
theorem transition_congr (hs : SameRules p h h') (cites : List Header) (ordered : List Carried)
    (t : UInt64) :
    transition h' cites ordered p t false = transition h cites ordered p t false := by
  have hseal : sealRoot h' p false = sealRoot h p false := by
    funext σ
    rw [seal_root_dry, seal_root_dry, sealed, sealed, hs.height]
  have hopen : openBlock h' p = openBlock h p := by
    funext j
    simp only [openBlock, writeBeacon, hs.height, hs.parentID]
  have hrecord : recordBlock h' cites p = recordBlock h cites p := by
    funext gas j
    simp only [recordBlock, hs.height, hs.parentID, hs.target]
  have hprune : pruneExpired h' = pruneExpired h := by
    funext j
    simp only [pruneExpired, hs.height]
  have hfees : updateBaseFees h' p t = updateBaseFees h p t := by
    funext fs fp res j
    simp only [updateBaseFees, hs.height]
  simp only [transition, payReward, rollCoinbaseRing, hopen, hrecord, hprune, hfees, hseal,
    hs.height, hs.emissionAddr]

theorem apply_dry_congr (hcerts : b'.certs = b.certs) (hcites : b'.cites = b.cites)
    (hs : SameRules p b.header b'.header) (h : apply s b p false = (.ok r, s')) :
    apply s b' p false = (.ok r, s') := by
  obtain ⟨hok, σ, hσ, hr, hs'⟩ := apply_eq_ok_iff.mp h
  refine apply_eq_ok_iff.mpr ⟨hok.congr hcerts hcites hs, σ, ?_, hr, hs'⟩
  rw [transition_congr hs, hcerts, hcites, hs.height]
  exact hσ

/-- A reward of zero is stored for nobody, so a dry run that ends with one is the same for every
payout. -/
theorem transition_zero_reward {cites : List Header} {ordered : List Carried} {t : UInt64}
    (hrun : transition h cites ordered p t false σ = (.ok (), σ')) (hzero : σ'.res.minerReward = 0)
    (payout : Address) :
    transition { h with emissionAddr := payout } cites ordered p t false σ = (.ok (), σ') := by
  simp only [transition, Mut.bind_eq_ok, rollCoinbaseRing, orUndo, or_else_eq_ok] at hrun ⊢
  obtain ⟨_, _, hopen, _, _, hstate, tips, σ₁, hcerts, _, _, hget, _, _, hrecord, _, _, hprune,
    _, σ₂, hreward, matured, σ₃, ⟨_, σ₄, hrelease, _, _, hget'', _, _, hstore, hpure⟩, _, _,
    hmatured, _, _, hget', _, _, hfees, hseal⟩ := hrun
  cases hget''
  cases hstore
  cases hpure
  have hsame : storePending (h.height % p.coinbaseMaturity) payout σ₄.res.minerReward =
      storePending (h.height % p.coinbaseMaturity) h.emissionAddr σ₄.res.minerReward := by
    have hfinal : σ'.res.minerReward = σ₄.res.minerReward := by
      cases hmatured
      cases hget'
      cases hfees
      rw [seal_root_dry] at hseal
      exact congrArg (fun x => x.2.res.minerReward) hseal.symm
    rw [← hfinal, hzero]
    rfl
  refine ⟨_, _, hopen, _, _, hstate, tips, σ₁, hcerts, _, _, hget, _, _, hrecord, _, _, hprune,
    _, σ₂, hreward, matured, _, ⟨_, σ₄, hrelease, _, _, rfl, (), _, ?_, rfl⟩, _, _,
    hmatured, _, _, hget', _, _, hfees, hseal⟩
  show onJournal (storePending _ payout σ₄.res.minerReward) σ₄ = _
  rw [hsame]
  rfl

theorem BlockOK.dry_run (hok : BlockOK s b p) (hp : p.Valid) (hwd : WordsDistinct)
    (hsupply : nativeTotal p s + (p.emission b.header.height).toNat < 2 ^ 256)
    (hs : Started p s) : ∃ r s', apply s b p false = (.ok r, s') := by
  have hspec := transition_spec hp hwd hsupply (fun tr => tr.forfeit_le hp hs) false hok
  rcases run_cases (transition b.header b.cites (foldOrder (carry b.certs)) p
    (currentSeqGasTarget s p b.header.height) false) ⟨⟨s, empty⟩, empty⟩ with
    ⟨_, σ, hrun⟩ | ⟨e, σ, hrun⟩
  · exact ⟨_, _, apply_eq_ok_iff.mpr ⟨hok, σ, hrun, rfl, rfl⟩⟩
  · obtain ⟨hc, -⟩ := of_wp_error hspec hrun
    cases hc

/-! ## Refusals that name a certificate -/

/-- The rules of a block apart from those that single out a certificate. -/
structure Wrapped (s : State) (b : Block) (p : Params) : Prop where
  version : b.header.version = headerVersion
  ceilings : checkCeilings b p (currentSeqGasTarget s p b.header.height) = .ok ()
  certRoot : b.computeCertRoot p = b.header.certRoot
  citesRoot : b.computeCitesRoot p = b.header.citesRoot
  cites : checkCites s b = .ok ()
  genesis : checkGenesisShape b p = .ok ()
  emissionAddr : checkEmissionAddr b = .ok ()
  seedEpoch : checkSeedEpoch b p = .ok ()
  stateRoot : p.isEpochBoundary b.header.height = false → b.header.stateRoot = 0
  ids_nodup : (b.certs.map Certificate.id).Nodup
  seqGas_le : seqGasSum p b.certs ≤ p.seqGasBurst (currentSeqGasTarget s p b.header.height)
  parGas_le : parGasSum p b.certs ≤ p.parGasLimit (currentSeqGasTarget s p b.header.height)
  not_protocol : ∀ c ∈ b.certs, ∀ w ∈ c.writes, w.slot.addr.version ≠ addrVersionProtocol

/-- Rules around the certificates and rules on each make a good block. -/
theorem Wrapped.block_ok (hf : Wrapped s b p) (hcerts : ∀ c ∈ b.certs, CertOK s b.header p c) :
    BlockOK s b p where
  version := hf.version
  ceilings := hf.ceilings
  certRoot := hf.certRoot
  citesRoot := hf.citesRoot
  cites := hf.cites
  genesis := hf.genesis
  emissionAddr := hf.emissionAddr
  seedEpoch := hf.seedEpoch
  stateRoot := hf.stateRoot
  certs := hcerts
  ids_nodup := hf.ids_nodup
  seqGas_le := hf.seqGas_le
  parGas_le := hf.parGas_le
  not_protocol := hf.not_protocol

end

end Zycord.Fold
