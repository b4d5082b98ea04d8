import Zycord.Fold.Coinbase
import Zycord.Fold.Gas

/-!
# The sequential-target controller

What the controller does, stated over the history of the chain: `Controller.next` moves a target
towards twice the median gas applied in an epoch, within the step bounds the citations allow, and
clamps it to the range of the parameters. The fold computes it from a ring of samples and a
citation counter; `Run.samples` and `Run.cited_count` say what these hold in terms of the blocks
applied, and `controller_matches_spec` that the fold's target is the specified one and that none
of the ceilings derived from it leaves 64 bits.
-/

/-! ## The specification -/

namespace Zycord.Controller

/-- The value of a range nearest to a number. -/
def clamp (lo hi x : ℕ) : ℕ := max lo (min hi x)

/-- The lower median. -/
def median (epochLength : ℕ) (samples : List ℕ) : ℕ :=
  (samples.insertionSort (· ≤ ·)).getD ((epochLength - 1) / 2) 0

/-- Few enough citations in an epoch. -/
def Healthy (p : Params) (citations : ℕ) : Prop :=
  10000 * citations ≤ p.healthGateBps.toNat * p.epochLength.toNat

/-- Health can be decided. -/
instance (p : Params) (citations : ℕ) : Decidable (Healthy p citations) :=
  inferInstanceAs (Decidable (_ ≤ _))

/-- The largest target the controller may step to from `t`. -/
def ceiling (p : Params) (t citations : ℕ) : ℕ :=
  t + if Healthy p citations then t / p.ceilingGrowthDivisor.toNat else 0

/-- The specified next target. -/
def next (p : Params) (t : ℕ) (samples : List ℕ) (citations : ℕ) : ℕ :=
  clamp p.seqGasTargetGenesis.toNat p.seqGasCapacity.toNat
    (clamp (t - t / p.ceilingDecayDivisor.toNat) (ceiling p t citations)
      (2 * median p.epochLength.toNat samples))

theorem median_perm {samples samples' : List ℕ} (h : samples.Perm samples') (n : ℕ) :
    median n samples = median n samples' := by
  have hsorted : samples.insertionSort (· ≤ ·) = samples'.insertionSort (· ≤ ·) :=
    List.Perm.eq_of_pairwise (fun a b _ _ hab hba => le_antisymm hab hba)
      (List.pairwise_insertionSort _ _) (List.pairwise_insertionSort _ _)
      (((List.perm_insertionSort _ _).trans h).trans (List.perm_insertionSort _ _).symm)
  rw [median, median, hsorted]

theorem median_le {samples : List ℕ} {bound : ℕ} (h : ∀ x ∈ samples, x ≤ bound) (n : ℕ) :
    median n samples ≤ bound := by
  rw [median, List.getD_eq_getElem?_getD]
  cases hget : (samples.insertionSort (· ≤ ·))[(n - 1) / 2]? with
  | none => exact Nat.zero_le _
  | some x =>
    have hmem := List.mem_of_getElem? hget
    exact h x ((List.perm_insertionSort _ _).mem_iff.mp hmem)

end Zycord.Controller

namespace Zycord.Params

/-- The controller of the source computes the specified step, when its doubled median and its
growth step do not wrap. -/
theorem to_nat_next_seq_gas_target {p : Params} {t median : UInt64}
    (ht : 2 * t.toNat < 2 ^ 64) (hmedian : 2 * median.toNat < 2 ^ 64) (healthy : Bool) :
    (p.nextSeqGasTarget t (2 * median) healthy).toNat =
      Controller.clamp p.seqGasTargetGenesis.toNat p.seqGasCapacity.toNat
        (Controller.clamp (t.toNat - t.toNat / p.ceilingDecayDivisor.toNat)
          (t.toNat + if healthy then t.toNat / p.ceilingGrowthDivisor.toNat else 0)
          (2 * median.toNat)) := by
  have hdecay : t.toNat / p.ceilingDecayDivisor.toNat ≤ t.toNat := Nat.div_le_self _ _
  have hgrowth : t.toNat / p.ceilingGrowthDivisor.toNat ≤ t.toNat := Nat.div_le_self _ _
  have hdouble : (2 * median).toNat = 2 * median.toNat := by
    exact Nat.mod_eq_of_lt hmedian
  have hlo : (t - t / p.ceilingDecayDivisor).toNat =
      t.toNat - t.toNat / p.ceilingDecayDivisor.toNat := by
    rw [UInt64.toNat_sub_of_le _ _ (UInt64.le_iff_toNat_le.mpr (by rwa [UInt64.toNat_div])),
      UInt64.toNat_div]
  have hhi : (if healthy then t + t / p.ceilingGrowthDivisor else t).toNat =
      t.toNat + if healthy then t.toNat / p.ceilingGrowthDivisor.toNat else 0 := by
    cases healthy with
    | false => simp
    | true =>
      simp only [if_true, UInt64.toNat_add, UInt64.toNat_div]
      exact Nat.mod_eq_of_lt (by omega)
  -- each comparison of the source is one side of a clamp
  have hmax : ∀ lo x : UInt64, (if x < lo then lo else x).toNat = max lo.toNat x.toNat := by
    intro lo x
    simp only [apply_ite UInt64.toNat, UInt64.lt_iff_toNat_lt]
    split <;> omega
  have hmin : ∀ hi x : UInt64, (if x > hi then hi else x).toNat = min hi.toNat x.toNat := by
    intro hi x
    simp only [apply_ite UInt64.toNat, gt_iff_lt, UInt64.lt_iff_toNat_lt]
    split <;> omega
  have hswap : ∀ {lo hi : ℕ} (x : ℕ), lo ≤ hi → min hi (max lo x) = max lo (min hi x) := by
    intro lo hi x hle
    omega
  simp only [nextSeqGasTarget, hmax, hmin, hdouble, hlo, hhi, Controller.clamp]
  rw [hswap _ ((Nat.sub_le _ _).trans (Nat.le_add_right _ _))]

end Zycord.Params

namespace Zycord.Fold

open Journal List State U256 Validity

section

variable [Crypto] {p : Params} {s s' : State} {b : Block} {r : Result} {log : ChainLog}

/-! ## One block -/

theorem protocol_slot_ne (hwd : WordsDistinct) {l m : WordLabel} (hl : l.Plain) (hm : m.Plain)
    (hne : l ≠ m) : protocolSlot l ≠ protocolSlot m := fun heq =>
  hne ((hwd.protocol_slot_eq_iff hl.proper hm.proper).mp heq)

theorem BlockTrace.get_closed_record (tr : BlockTrace s b p) (hwd : WordsDistinct) {l : WordLabel}
    (hl : l.Plain) (hring : l ∉ ringLabels (ringIndex b.header p)) (hfee : l ∉ feeLabels) :
    tr.closed.s.get (protocolSlot l) =
      (recordBlock b.header b.cites p tr.σ₁.res.seqGasApplied tr.σ₁.j).s.get (protocolSlot l) :=
  (tr.get_end_label hwd hl hring hfee).trans (tr.get_recorded hwd hl)

section

variable (hwd : WordsDistinct)

include hwd

variable (h : Header) (cites : List Header)

/-- A block records its gas in one sample cell. -/
theorem get_record_sample (gas i : UInt64) (j : Journal) :
    (recordBlock h cites p gas j).s.get (appliedGasSampleSlot i) =
      if h.height % p.epochLength = i then .fromUint64 gas
      else j.s.get (appliedGasSampleSlot i) := by
  by_cases hi : h.height % p.epochLength = i
  · subst hi
    have hne : ∀ l : WordLabel, l.Plain → l ≠ .appliedGasSample (h.height % p.epochLength) →
        protocolSlot l ≠ appliedGasSampleSlot (h.height % p.epochLength) :=
      fun l hl => protocol_slot_ne hwd hl trivial
    have hparent := hne .prevParentID trivial (by simp)
    have htarget := hne .prevTarget trivial (by simp)
    have hcited := hne .citedCount trivial (by simp)
    unfold recordBlock
    rw [if_pos rfl, s_set, prevTargetSlot, get_set_of_ne _ _ htarget, s_set,
      prevParentIDSlot, get_set_of_ne _ _ hparent]
    split
    · rw [s_set, citedCountSlot, get_set_of_ne _ _ hcited, s_set,
        get_set_self]
    · rw [s_set, get_set_self]
  · rw [if_neg hi]
    exact get_label_of_writes hwd (record_block_labels cites gas) (record_labels_plain _)
      (l := .appliedGasSample i) trivial (by simp [recordLabels, Ne.symm hi])

omit h cites in
theorem cited_ne (l : WordLabel) (hl : l.Plain) (hne : l ≠ .citedCount) :
    protocolSlot l ≠ citedCountSlot := protocol_slot_ne hwd hl trivial hne

theorem get_record_cited (gas n : UInt64) {j : Journal}
    (hn : j.s.get citedCountSlot = .fromUint64 n) :
    (recordBlock h cites p gas j).s.get citedCountSlot =
      .fromUint64 (n + UInt64.ofNat cites.length) := by
  have hsample : ∀ i, appliedGasSampleSlot i ≠ citedCountSlot := fun i =>
    cited_ne hwd _ trivial (by simp)
  have hlow : (fromUint64 n).uint64.1 = n := by simp [uint64]
  unfold recordBlock
  rw [s_set, prevTargetSlot, get_set_of_ne _ _ (cited_ne hwd .prevTarget trivial (by simp)),
    s_set, prevParentIDSlot, get_set_of_ne _ _ (cited_ne hwd .prevParentID trivial (by simp))]
  split
  · rw [s_set, get_set_self, s_set, get_set_of_ne _ _ (hsample _), hn,
      hlow]
  · have hzero : cites.length = 0 := by omega
    rw [s_set, get_set_of_ne _ _ (hsample _), hn, hzero]
    simp

theorem get_write_beacon (j : Journal) {l : WordLabel} (hl : l.Plain)
    (hne : l ∉ [.beaconEpoch, .beaconHeight, .beaconEntropy]) :
    (writeBeacon h p j).s.get (protocolSlot l) = j.s.get (protocolSlot l) := by
  simp only [mem_cons, not_mem_nil, or_false, not_or] at hne
  simp only [writeBeacon, s_set, beaconEpochSlot, beaconHeightSlot, beaconEntropySlot]
  rw [get_set_of_ne _ _ (protocol_slot_ne hwd (l := .beaconEntropy) trivial hl (Ne.symm hne.2.2)),
    get_set_of_ne _ _ (protocol_slot_ne hwd (l := .beaconHeight) trivial hl (Ne.symm hne.2.1)),
    get_set_of_ne _ _ (protocol_slot_ne hwd (l := .beaconEpoch) trivial hl (Ne.symm hne.1))]

/-- Opening a block clears the citation count at a boundary. -/
theorem get_opened_cited (s : State) : (opened h p s).s.get citedCountSlot =
      if p.isEpochBoundary h.height = true ∧ h.height ≠ 0 then 0 else s.get citedCountSlot := by
  have hbeacon : ∀ j : Journal, (writeBeacon h p j).s.get citedCountSlot = j.s.get citedCountSlot :=
    fun j => get_write_beacon hwd h j (l := .citedCount) trivial (by simp)
  have hinit : ∀ j : Journal, (initMarkets p j).s.get citedCountSlot = j.s.get citedCountSlot := by
    intro j
    simp only [initMarkets, s_set, seqBaseFeeSlot, parBaseFeeSlot, seqGasTargetSlot]
    rw [get_set_of_ne _ _ (cited_ne hwd .seqGasTarget trivial (by simp)),
      get_set_of_ne _ _ (cited_ne hwd .parBaseFee trivial (by simp)),
      get_set_of_ne _ _ (cited_ne hwd .seqBaseFee trivial (by simp))]
  by_cases hzero : h.height = 0
  · simp only [opened, openBlock, hzero, if_true, ne_eq, not_true_eq_false, and_false, if_false,
      gt_iff_lt, UInt64.lt_irrefl, decide_false, Bool.and_false, Bool.false_eq_true, hinit]
    split
    · rw [hbeacon]
    · rfl
  · have hpos : h.height > 0 := UInt64.pos_iff_ne_zero.mpr hzero
    by_cases hboundary : p.isEpochBoundary h.height = true
    · simp [opened, openBlock, hzero, hboundary, hpos, updateSeqGasTarget]
    · simp [opened, openBlock, hzero, hboundary]

end

/-- The median that the source reads. -/
def medianSample (p : Params) (s : State) : UInt64 :=
  (sortedSamples p s).getD ((p.epochLength - 1) / 2).toNat 0

/-- Opening a block moves the target at a boundary only. -/
theorem get_opened_target (hwd : WordsDistinct) (h : Header) (s : State) :
    (opened h p s).s.get seqGasTargetSlot = if h.height = 0 then .fromUint64 p.seqGasTargetGenesis
      else if p.isEpochBoundary h.height then
        .fromUint64 (p.nextSeqGasTarget (s.get seqGasTargetSlot).uint64.1 (2 * medianSample p s)
          (healthy p s))
      else s.get seqGasTargetSlot := by
  have hcited : citedCountSlot ≠ seqGasTargetSlot :=
    protocol_slot_ne hwd (l := .citedCount) (m := .seqGasTarget) trivial trivial (by simp)
  by_cases hzero : h.height = 0
  · simp [opened, openBlock, hzero, initMarkets]
  · by_cases hboundary : p.isEpochBoundary h.height = true
    · have hpos : h.height > 0 := UInt64.pos_iff_ne_zero.mpr hzero
      -- the beacon is written first and changes nothing the controller reads
      have hbeacon : ∀ l : WordLabel, l.Plain → l ∉ [.beaconEpoch, .beaconHeight, .beaconEntropy] →
          (writeBeacon h p ⟨s, UndoLog.empty⟩).s.get (protocolSlot l) = s.get (protocolSlot l) :=
        fun l hl hne => get_write_beacon hwd h _ hl hne
      have htarget : (writeBeacon h p ⟨s, UndoLog.empty⟩).s.get seqGasTargetSlot =
          s.get seqGasTargetSlot := hbeacon .seqGasTarget trivial (by simp)
      have hcount : (writeBeacon h p ⟨s, UndoLog.empty⟩).s.get citedCountSlot =
          s.get citedCountSlot := hbeacon .citedCount trivial (by simp)
      have hsample : ∀ i, (writeBeacon h p ⟨s, UndoLog.empty⟩).s.get (appliedGasSampleSlot i) =
          s.get (appliedGasSampleSlot i) := fun i => hbeacon (.appliedGasSample i) trivial (by simp)
      have hmedian : (sortedSamples p (writeBeacon h p ⟨s, UndoLog.empty⟩).s).getD
          ((p.epochLength - 1) / 2).toNat 0 = medianSample p s := by
        simp only [medianSample, sortedSamples, hsample]
      have hhealthy : healthy p (writeBeacon h p ⟨s, UndoLog.empty⟩).s = healthy p s := by
        simp only [healthy, hcount]
      simp only [opened, openBlock, hzero, hboundary, hpos, decide_true, Bool.and_self, if_true,
        if_false, updateSeqGasTarget, s_set, get_set_of_ne _ _ hcited,
        get_set_self, hmedian, htarget, hhealthy]
    · simp [opened, openBlock, hzero, hboundary]

/-! ## The history behind the controller's cells -/

/-- The blocks of the epoch the newest block of a chain belongs to. -/
def currentEpoch (p : Params) (log : ChainLog) : ChainLog :=
  log.take ((log.length - 1) % p.epochLength.toNat + 1)

omit [Crypto] in
/-- The citations in blocks. -/
def citations (blocks : ChainLog) : ℕ := (blocks.map fun e => e.1.cites.length).sum

omit [Crypto] in
/-- The applied gas of blocks. -/
def appliedGas (blocks : ChainLog) : List ℕ := blocks.map fun e => e.2.seqGasApplied.toNat

theorem BlockTrace.Yields.seq_gas_applied_eq {tr : BlockTrace s b p} (hy : tr.Yields r s') :
    r.seqGasApplied = tr.σ₁.res.seqGasApplied := by
  rw [hy.res, tr.ring.res, tr.reward.res]

/-- The sample ring holds the gas applied in the newest blocks. -/
theorem Run.samples (hwd : WordsDistinct) (h : Run p log s) (i : UInt64) :
    s.get (appliedGasSampleSlot i) =
      ringEntry p.epochLength.toNat 0 (log.map fun e => .fromUint64 e.2.seqGasApplied) i.toNat := by
  induction h with
  | genesis => rfl
  | @apply log s s' b r h hheight happly ih =>
    obtain ⟨tr, hy⟩ := block_trace happly
    have hindex : (b.header.height % p.epochLength).toNat = log.length % p.epochLength.toNat := by
      rw [UInt64.toNat_mod, hheight]
    have hclosed : tr.closed.s.get (appliedGasSampleSlot i) = _ :=
      tr.get_closed_record hwd (l := .appliedGasSample i) trivial (by simp [ringLabels])
        (by simp [feeLabels])
    have hcerts : tr.σ₁.j.s.get (appliedGasSampleSlot i) = s.get (appliedGasSampleSlot i) := by
      rw [tr.get_certs rfl]
      exact get_opened_label hwd (l := .appliedGasSample i) trivial (by simp) (by simp [feeLabels])
    have hrecord := get_record_sample (p := p) hwd b.header b.cites tr.σ₁.res.seqGasApplied
      i tr.σ₁.j
    rw [hy.state, hclosed]
    refine hrecord.trans ?_
    rw [hcerts, ih, map_cons, ringEntry, length_map, ← hindex, hy.seq_gas_applied_eq]
    simp only [UInt64.toNat_inj]

section

variable (hp : p.Valid) (hwd : WordsDistinct) (h : Run p log s)

include hp hwd h

/-- The citation count of a state is that of its epoch, in 64 bits. -/
theorem Run.cited_count :
    s.get citedCountSlot = .fromUint64 (.ofNat (citations (currentEpoch p log))) := by
  induction h with
  | genesis => rfl
  | @apply log s s' b r h hheight happly ih =>
    obtain ⟨tr, hy⟩ := block_trace happly
    have hclosed : tr.closed.s.get citedCountSlot = _ :=
      tr.get_closed_record hwd (l := .citedCount) trivial (by simp [ringLabels])
        (by simp [feeLabels])
    have hcerts : tr.σ₁.j.s.get citedCountSlot = (opened b.header p s).s.get citedCountSlot :=
      tr.get_certs rfl
    -- what opening leaves is the count of the blocks of this epoch below the new one
    have hopened : (opened b.header p s).s.get citedCountSlot =
        .fromUint64 (.ofNat (citations (log.take (log.length % p.epochLength.toNat)))) := by
      have hpos := hp.epochLength_pos
      have hboundary : p.isEpochBoundary b.header.height = true ↔
          log.length % p.epochLength.toNat = 0 := by
        simp [Params.isEpochBoundary, ← UInt64.toNat_inj, hheight]
      rw [get_opened_cited hwd]
      by_cases hzero : log.length % p.epochLength.toNat = 0
      · rw [hzero]
        split_ifs with hnot
        · rfl
        · have hheight0 : b.header.height = 0 := by
            by_contra hne
            exact hnot ⟨hboundary.mpr hzero, hne⟩
          have hlog : log = [] := length_eq_zero_iff.mp (by rw [← hheight, hheight0]; rfl)
          rw [ih, hlog]
          rfl
      · have hprev : (log.length - 1) % p.epochLength.toNat + 1 =
            log.length % p.epochLength.toNat := by
          have hmod := Nat.mod_lt log.length hpos
          have hsplit := Nat.div_add_mod' log.length p.epochLength.toNat
          have hshape : log.length - 1 = (log.length % p.epochLength.toNat - 1) +
              log.length / p.epochLength.toNat * p.epochLength.toNat := by omega
          rw [hshape, Nat.add_mul_mod_self_right, Nat.mod_eq_of_lt (by omega)]
          omega
        rw [if_neg fun hb => hzero (hboundary.mp hb.1), ih, currentEpoch, hprev]
    rw [hy.state, hclosed]
    refine (get_record_cited hwd b.header b.cites _ _ (hcerts.trans hopened)).trans ?_
    rw [← UInt64.ofNat_add, currentEpoch, length_cons, Nat.add_sub_cancel, take_succ_cons,
      citations, citations, map_cons, sum_cons, Nat.add_comm]

/-- At a boundary the sample cells give the median of the epoch's gas. -/
theorem Run.median_sample (hfull : p.epochLength.toNat ∣ log.length) (hne : log ≠ []) :
    (medianSample p s).toNat =
      Controller.median p.epochLength.toNat (appliedGas (log.take p.epochLength.toNat)) := by
  have hring : (range p.epochLength.toNat).map (ringEntry p.epochLength.toNat (0 : U256)
      (log.map fun e => .fromUint64 e.2.seqGasApplied)) = _ :=
    map_ring_entry_range hp.epochLength_pos (by rwa [length_map]) (by simpa using hne)
  have hsamples : ((range p.epochLength.toNat).map fun i =>
      (s.get (appliedGasSampleSlot (UInt64.ofNat i))).uint64.1) =
      (log.take p.epochLength.toNat).reverse.map fun e => e.2.seqGasApplied := by
    have hcells : (range p.epochLength.toNat).map
        (fun i => s.get (appliedGasSampleSlot (UInt64.ofNat i))) =
        ((log.map fun e => fromUint64 e.2.seqGasApplied).take p.epochLength.toNat).reverse := by
      rw [← hring]
      refine map_congr_left fun i hi => ?_
      have hlt : i < 2 ^ 64 := (mem_range.mp hi).trans p.epochLength.toNat_lt
      rw [h.samples hwd, UInt64.toNat_ofNat_of_lt' hlt]
    have hread := congrArg (map fun v : U256 => v.uint64.1) hcells
    simpa [map_take, Function.comp_def, uint64] using hread
  have hindex : ((p.epochLength - 1) / 2).toNat = (p.epochLength.toNat - 1) / 2 := by
    have hone : (1 : UInt64) ≤ p.epochLength := UInt64.le_iff_toNat_le.mpr hp.epochLength_pos
    rw [UInt64.toNat_div, UInt64.toNat_sub_of_le _ _ hone]
    rfl
  -- sorting 64-bit samples is sorting the numbers they stand for
  have hsort : ((sortedSamples p s).map UInt64.toNat) =
      (((log.take p.epochLength.toNat).reverse.map fun e => e.2.seqGasApplied.toNat)).insertionSort
        (· ≤ ·) := by
    rw [sortedSamples, hsamples, map_insertionSort (r := (· ≤ ·)) (s := (· ≤ ·)) UInt64.toNat _
      fun a _ b _ => UInt64.le_iff_toNat_le, map_map]
    rfl
  have hperm : (appliedGas (log.take p.epochLength.toNat)).Perm
      ((log.take p.epochLength.toNat).reverse.map fun e => e.2.seqGasApplied.toNat) := by
    rw [map_reverse]
    exact (reverse_perm _).symm
  rw [Controller.median_perm hperm, Controller.median, ← hsort, medianSample, hindex,
    getD_eq_getElem?_getD, getD_eq_getElem?_getD, getElem?_map]
  cases (sortedSamples p s)[(p.epochLength.toNat - 1) / 2]? <;> rfl

/-- At a boundary the count cell tells whether the epoch was healthy. -/
theorem Run.healthy_iff (hfull : p.epochLength.toNat ∣ log.length) (hne : log ≠ [])
    (hcites : citations (log.take p.epochLength.toNat) < 2 ^ 64) :
    healthy p s = true ↔ Controller.Healthy p (citations (log.take p.epochLength.toNat)) := by
  have hepoch : currentEpoch p log = log.take p.epochLength.toNat := by
    have hpos := hp.epochLength_pos
    obtain ⟨rounds, hrounds⟩ := hfull
    have hlast : (log.length - 1) % p.epochLength.toNat + 1 = p.epochLength.toNat := by
      cases rounds with
      | zero => exact absurd (length_eq_zero_iff.mp hrounds) hne
      | succ rounds =>
        rw [Nat.mul_succ] at hrounds
        have hshape :
            log.length - 1 = (p.epochLength.toNat - 1) + p.epochLength.toNat * rounds := by
          omega
        rw [hshape, Nat.add_mul_mod_self_left, Nat.mod_eq_of_lt (by omega)]
        omega
    rw [currentEpoch, hlast]
  have hgate : p.healthGateBps.toNat * p.epochLength.toNat < 2 ^ 256 := by
    calc p.healthGateBps.toNat * p.epochLength.toNat ≤ 2 ^ 64 * 2 ^ 64 :=
          Nat.mul_le_mul p.healthGateBps.toNat_lt.le p.epochLength.toNat_lt.le
      _ < 2 ^ 256 := by decide
  have hcell := h.cited_count hp hwd
  rw [hepoch] at hcell
  have hcount : (s.get citedCountSlot).uint64.1.toNat =
      citations (log.take p.epochLength.toNat) := by
    rw [hcell, uint64, to_nat_from_uint64, UInt64.ofNat_toNat,
      UInt64.toNat_ofNat_of_lt' hcites]
  have hrate : citations (log.take p.epochLength.toNat) * 10000 < 2 ^ 256 := by omega
  have hcited := to_nat_mul (u := .fromUint64 (s.get citedCountSlot).uint64.1)
    (v := .fromUint64 10000) (by rw [to_nat_from_uint64, hcount]; exact hrate)
  have hbound := to_nat_mul (u := .fromUint64 p.healthGateBps)
    (v := .fromUint64 p.epochLength) hgate
  rw [to_nat_from_uint64, hcount] at hcited
  rw [healthy, Bool.not_eq_true', decide_eq_false_iff_not, not_lt, le_def, hcited, hbound]
  rw [Nat.mul_comm]
  rfl

/-! ## The gas of a block -/

omit [Crypto] in
/-- The gas of certificates as a number. -/
def gasTotal (p : Params) (certs : List Certificate) : ℕ :=
  (certs.map fun c => (c.seqGas p).toNat).sum

theorem CertTrace.seq_gas_applied_le (tr : CertTrace s b p) (hgas : gasTotal p b.certs < 2 ^ 64) :
    tr.σ₁.res.seqGasApplied.toNat ≤ 4 * p.seqGasCapacity.toNat := by
  have happlied := tr.counter_le (counts_seq_gas p) rfl hgas
  have hbound := UInt64.le_iff_toNat_le.mp tr.ok.seqGas_le
  have hrange := tr.ok.target_range hp (h.started hp hwd)
  have hburst : (p.seqGasBurst (currentSeqGasTarget s p b.header.height)).toNat ≤
      4 * (currentSeqGasTarget s p b.header.height).toNat := by
    exact Nat.mod_le _ _
  exact (happlied.trans hbound).trans (hburst.trans (by omega))

theorem Run.seq_gas_applied_le (hgas : ∀ e ∈ log, gasTotal p e.1.certs < 2 ^ 64) :
    ∀ e ∈ log, e.2.seqGasApplied.toNat ≤ 4 * p.seqGasCapacity.toNat := by
  induction h with
  | genesis => simp
  | @apply log s s' b r h hheight happly ih =>
    obtain ⟨tr, hy⟩ := block_trace happly
    obtain ⟨hb, hlog⟩ := forall_mem_cons.mp hgas
    refine forall_mem_cons.mpr ⟨?_, ih hlog⟩
    rw [hy.seq_gas_applied_eq]
    exact tr.seq_gas_applied_le hp hwd h hb

/-! ## The controller along a run -/

/-- The target in a state. -/
def target (s : State) : ℕ := (s.get seqGasTargetSlot).toNat

/-- A target in the range of the parameters, none of whose ceilings and steps wraps. -/
structure TargetFits (p : Params) (t : ℕ) : Prop where
  genesis_le : p.seqGasTargetGenesis.toNat ≤ t
  le_capacity : t ≤ p.seqGasCapacity.toNat
  limit : 2 * t < 2 ^ 64
  burst : 4 * t < 2 ^ 64
  parallel : 2 * p.parGasRatio.toNat * t < 2 ^ 64
  growth : t + t / p.ceilingGrowthDivisor.toNat < 2 ^ 64

theorem Run.target_fits (hne : log ≠ []) : TargetFits p (target s) := by
  obtain ⟨t, ht, hge, hle⟩ := h.target_ok hp hwd hne
  have hcell : target s = t.toNat := by rw [target, ht, to_nat_from_uint64]
  have hburst := hp.capacity_burst
  have hparallel : 2 * p.parGasRatio.toNat * t.toNat ≤
      2 * p.parGasRatio.toNat * p.seqGasCapacity.toNat := Nat.mul_le_mul_left _ hle
  have hgrowth : t.toNat / p.ceilingGrowthDivisor.toNat ≤ t.toNat := Nat.div_le_self _ _
  have hfit := hp.capacity_parallel
  rw [hcell]
  exact ⟨hge, hle, by omega, by omega, by omega, by omega⟩

end

theorem BlockTrace.target_closed (tr : BlockTrace s b p) (hwd : WordsDistinct) :
    target tr.closed.s = target (opened b.header p s).s :=
  congrArg toNat (tr.get_closed_label hwd (l := .seqGasTarget) trivial (by simp [recordLabels])
    (by simp [ringLabels]) (by simp [feeLabels]))

/-- Along every run under accepted parameters whose blocks' gas sums do not wrap, the target is in
range and none of its ceilings wraps; and the next block keeps it, except that at a boundary it
becomes the specified target of the epoch that ended, computed from a doubled median that does not
wrap either, as long as the citations of the epoch can be counted in 64 bits. -/
theorem controller_matches_spec (hwd : WordsDistinct) (hp : p.validate = .ok ())
    (hrun : Run p log s) (hgas : ∀ e ∈ log, gasTotal p e.1.certs < 2 ^ 64) (hne : log ≠ []) :
    TargetFits p (target s) ∧
    ∀ b r s', b.header.height.toNat = log.length → applyBlock s b p = (.ok r, s') →
      (¬ p.epochLength.toNat ∣ log.length → target s' = target s) ∧
      (p.epochLength.toNat ∣ log.length →
        2 * Controller.median p.epochLength.toNat (appliedGas (log.take p.epochLength.toNat)) <
          2 ^ 64 ∧
        (citations (log.take p.epochLength.toNat) < 2 ^ 64 →
          target s' = Controller.next p (target s) (appliedGas (log.take p.epochLength.toNat))
            (citations (log.take p.epochLength.toNat)))) := by
  have hvalid := Params.valid_of_validate hp
  have hfits := hrun.target_fits hvalid hwd hne
  refine ⟨hfits, fun b r s' hheight happly => ?_⟩
  obtain ⟨tr, hy⟩ := block_trace happly
  have hzero : b.header.height ≠ 0 := by
    intro h0
    rw [h0] at hheight
    exact hne (length_eq_zero_iff.mp hheight.symm)
  have hboundary : p.isEpochBoundary b.header.height = true ↔ p.epochLength.toNat ∣ log.length := by
    simp [Params.isEpochBoundary, ← UInt64.toNat_inj, hheight, Nat.dvd_iff_mod_eq_zero]
  have hopened := get_opened_target (p := p) hwd b.header s
  rw [if_neg hzero] at hopened
  have htarget : target s' = target (opened b.header p s).s := by
    rw [hy.state, tr.target_closed hwd]
  refine ⟨fun hmiddle => ?_, fun hfull => ?_⟩
  · rw [if_neg (mt hboundary.mp hmiddle)] at hopened
    rw [htarget, target, hopened, target]
  · rw [if_pos (hboundary.mpr hfull)] at hopened
    have hmedian := hrun.median_sample hvalid hwd hfull hne
    have hsamples : ∀ x ∈ appliedGas (log.take p.epochLength.toNat),
        x ≤ 4 * p.seqGasCapacity.toNat := by
      intro x hx
      obtain ⟨e, he, rfl⟩ := mem_map.mp hx
      exact hrun.seq_gas_applied_le hvalid hwd hgas e (mem_of_mem_take he)
    have hbound := Controller.median_le hsamples p.epochLength.toNat
    have hcap := hvalid.capacity_burst
    refine ⟨by omega, fun hcites => ?_⟩
    have hhealthy := hrun.healthy_iff hvalid hwd hfull hne hcites
    obtain ⟨t, ht, -⟩ := hrun.target_ok hvalid hwd hne
    have hcell : target s = t.toNat := by rw [target, ht, to_nat_from_uint64]
    have hread : (s.get seqGasTargetSlot).uint64.1 = t := by simp [ht, uint64]
    have hlimit := hfits.limit
    rw [htarget, target, hopened, to_nat_from_uint64, hread,
      Params.to_nat_next_seq_gas_target (by omega) (by omega), hmedian, Controller.next,
      Controller.ceiling, hcell]
    simp only [hhealthy]

end

section

attribute [local instance] Reference.crypto

open Sample

/-- Epochs of three blocks. -/
def Sample.epochs : Params := { params with epochLength := 3 }

/-- The block after the first three opens an epoch, and its target is the specified one. -/
theorem sample_controller_matches_spec :
    ∃ log s b r s', Run epochs log s ∧ applyBlock s b epochs = (.ok r, s') ∧ b.certs = [payment] ∧
      log.length = 3 ∧ TargetFits epochs (target s) ∧
      target s' = Controller.next epochs (target s) (appliedGas (log.take 3))
        (citations (log.take 3)) := by
  have hproduce : ∃ x, produce epochs [(header 3 (user 1), [payment]), (header 2 (user 1), []),
      (header 1 (user 1), []), ({ header 0 0 with parentID := epochs.consensusRoot }, [])] =
        some x ∧ (x.1.map fun e => (e.1.certs, e.1.cites)) =
          [([payment], []), ([], []), ([], []), ([], [])] := by
    decide +kernel
  obtain ⟨⟨log, s'⟩, hx, hlog⟩ := hproduce
  obtain ⟨⟨b, r⟩, log, rfl⟩ := exists_cons_of_ne_nil (l := log) (by rintro rfl; simp at hlog)
  obtain ⟨s, hrun, hheight, happly⟩ := (run_of_produce hx).of_cons
  simp only [map_cons, cons.injEq, Prod.mk.injEq] at hlog
  have hlength : log.length = 3 := by simpa using congrArg length hlog.2
  have hempty : ∀ e ∈ log, e.1.certs = [] ∧ e.1.cites = [] := by
    intro e he
    have hmem := mem_map_of_mem (f := fun e : Block × Result => (e.1.certs, e.1.cites)) he
    rw [hlog.2] at hmem
    simpa using hmem
  have hcited : citations (log.take 3) = 0 := by
    refine sum_eq_zero fun n hn => ?_
    obtain ⟨e, he, rfl⟩ := mem_map.mp hn
    rw [(hempty e (mem_of_mem_take he)).2, length_nil]
  obtain ⟨hfits, hnext⟩ := controller_matches_spec Reference.words_distinct
    (show epochs.validate = .ok () by decide +kernel) hrun
    (fun e he => by rw [(hempty e he).1]; decide) (by rintro rfl; cases hlength)
  obtain ⟨-, hboundary⟩ := hnext b r s' hheight happly
  exact ⟨log, s, b, r, s', hrun, happly, hlog.1.1, hlength, hfits,
    (hboundary (by rw [hlength]; decide)).2 (show citations (log.take 3) < 2 ^ 64 by omega)⟩

end

end Zycord.Fold
