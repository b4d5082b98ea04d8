import Mathlib.Algebra.BigOperators.Intervals
import Mathlib.Algebra.Order.BigOperators.Group.Finset
import Zycord.Fold.Run

/-!
# The emission schedule

The coinbase of a height and the total paid through a height (`core/params/params.go`), compared
with the schedule as a recurrence over epochs, `Params.epochRate`. The table that
`buildEmissionTable` walks spells the recurrence down to the tail (`emission_table_eq`), and the
prefix sums that `CumulativeEmission` assembles from a table, a short first epoch and a closed form
for the tail are the sums of the schedule, saturating (`saturates_cumulative_emission`).
`emission_schedule` puts the two together.
-/

namespace Zycord.Params

open Finset Fold.Sample List Nat U256

variable {p : Params}

/-! ## The recurrence -/

/-- One step of the decay: by the quotient, but at least by one, and never below the tail. -/
def decayed (tail divisor e : ℕ) : ℕ := max tail (e - max 1 (e / divisor))

/-- One step of decay, over the naturals. -/
theorem to_nat_decay_step (p : Params) (e : U256) :
    (p.decayStep e).toNat = decayed p.tailEmission.toNat p.emissionDecayDivisor.toNat e.toNat := by
  have hstep : (if (e.div64 p.emissionDecayDivisor).1.isZero then (1 : U256)
      else (e.div64 p.emissionDecayDivisor).1).toNat =
        max 1 (e.toNat / p.emissionDecayDivisor.toNat) := by
    rw [← to_nat_div64]
    split_ifs with hzero
    · rw [is_zero_iff.mp hzero]
      rfl
    · have hpos := to_nat_pos (mt is_zero_iff.mpr hzero)
      omega
  simp only [Params.decayStep]
  rw [decayed, ← hstep, ← to_nat_sat_sub]
  generalize e.satSub _ = rate
  split_ifs with hlt
  · rw [lt_def] at hlt
    omega
  · rw [lt_def] at hlt
    omega

/-- What a block of an epoch pays by the recurrence. -/
def epochRate (p : Params) : ℕ → ℕ
  | 0 => p.genesisEmission.toNat
  | n + 1 => decayed p.tailEmission.toNat p.emissionDecayDivisor.toNat (p.epochRate n)

theorem tail_le_epoch_rate (hp : p.Valid) (n : ℕ) : p.tailEmission.toNat ≤ p.epochRate n := by
  cases n with
  | zero => exact le_def.mp hp.tail_le_genesis
  | succ n => exact le_max_left _ _

theorem epoch_rate_antitone (hp : p.Valid) : Antitone p.epochRate := by
  refine antitone_nat_of_succ_le fun n => ?_
  have htail := tail_le_epoch_rate hp n
  show max _ (p.epochRate n - _) ≤ p.epochRate n
  omega

theorem epoch_rate_of_tail (hp : p.Valid) {n m : ℕ} (hn : p.epochRate n = p.tailEmission.toNat)
    (hm : n ≤ m) : p.epochRate m = p.tailEmission.toNat := by
  have hle := epoch_rate_antitone hp hm
  have hge := tail_le_epoch_rate hp m
  omega

/-! ## The table -/

variable {e i k : ℕ}

/-- The table lists the epoch rates down to the tail. -/
theorem emission_loop_eq_some {fuel : ℕ} {e : U256} {done table : List U256}
    (h : p.emissionLoop fuel e done = some table)
    (hdone : done.map U256.toNat = (List.range (k + 1)).map p.epochRate)
    (he : e.toNat = p.epochRate k) (hk : k < maxEmissionEpochs) :
    ∃ n, table.map U256.toNat = (List.range (n + 1)).map p.epochRate ∧
      p.epochRate n ≤ p.tailEmission.toNat ∧ n < maxEmissionEpochs := by
  induction fuel generalizing e done k with
  | zero => cases h
  | succ fuel ih =>
    unfold emissionLoop at h
    split at h
    · split at h
      · cases h
      · have hlength : done.length = k + 1 := by simpa using congrArg length hdone
        refine ih (k := k + 1) h ?_ ?_ (by omega)
        · rw [map_append, hdone, range_succ (n := k + 1)]
          simp [to_nat_decay_step, he, epochRate]
        · rw [to_nat_decay_step, he]
          rfl
    · rename_i hle
      cases h
      rw [not_lt] at hle
      exact ⟨k, hdone, he ▸ hle, hk⟩

/-- The table of accepted parameters lists the rates of the epochs, up to one that pays the tail. -/
theorem emission_table_eq (hp : p.Valid) :
    ∃ n, p.emissionTable.map U256.toNat = (List.range (n + 1)).map p.epochRate ∧
      p.epochRate n = p.tailEmission.toNat ∧ n < maxEmissionEpochs := by
  obtain ⟨table, htable⟩ := hp.emissionTable_built
  obtain ⟨n, heq, hle, hn⟩ := emission_loop_eq_some (k := 0) htable rfl rfl (by decide)
  refine ⟨n, ?_, hle.antisymm (tail_le_epoch_rate hp n), hn⟩
  rw [emissionTable, htable]
  exact heq

theorem to_nat_table_get (hp : p.Valid) (i : ℕ) :
    (p.emissionTable.getD i p.tailEmission).toNat = p.epochRate i := by
  obtain ⟨n, htable, htail, -⟩ := emission_table_eq hp
  have hread : (p.emissionTable.getD i p.tailEmission).toNat =
      (p.emissionTable.map U256.toNat)[i]?.getD p.tailEmission.toNat := by
    simp
  rw [hread, htable, getElem?_map]
  by_cases hi : i < n + 1
  · rw [getElem?_range hi]
    rfl
  · rw [getElem?_eq_none (by simpa using hi)]
    exact (epoch_rate_of_tail hp htail (by omega)).symm

theorem to_nat_emission (hp : p.Valid) {h : UInt64} (hh : h ≠ 0) :
    (p.emission h).toNat = p.epochRate (p.epoch h).toNat := by
  rw [emission, if_neg hh]
  exact to_nat_table_get hp _

/-! ## Sums of the schedule -/

theorem sum_rates (f : ℕ → ℕ) {L : ℕ} (e : ℕ) (hk : k ≤ L) :
    ∑ i ∈ range (e * L + k), f (i / L) = L * ∑ j ∈ range e, f j + k * f e := by
  have hpart : ∀ (e k : ℕ), k ≤ L → ∑ i ∈ range k, f ((e * L + i) / L) = k * f e := by
    intro e k hk
    rw [sum_congr rfl (g := fun _ => f e) fun i hi => ?_]
    · simp
    · have hi := Finset.mem_range.mp hi
      rw [mul_comm, mul_add_div (by omega), div_eq_of_lt (by omega), add_zero]
  rw [sum_range_add, hpart e k hk]
  congr 1
  induction e with
  | zero => simp
  | succ e ih =>
    rw [Nat.succ_mul, Finset.sum_range_add, ih, hpart e L le_rfl, Finset.sum_range_succ]
    ring

theorem sum_emission (hp : p.Valid) (h : UInt64) :
    ∑ i ∈ range (h.toNat + 1), (p.emission (.ofNat i)).toNat + p.epochRate 0 =
      ∑ i ∈ Finset.range (h.toNat + 1), p.epochRate (i / p.epochLength.toNat) := by
  have hsize := h.toNat_lt
  rw [Finset.sum_range_succ', Finset.sum_range_succ' (fun i => p.epochRate (i / _))]
  have hzero : (p.emission (.ofNat 0)).toNat = 0 := rfl
  rw [hzero, Nat.add_zero, Nat.zero_div, Nat.add_right_cancel_iff]
  refine sum_congr rfl fun i hi => ?_
  have hi := Finset.mem_range.mp hi
  have hof : (UInt64.ofNat (i + 1)).toNat = i + 1 := UInt64.toNat_ofNat_of_lt' (by
    show i + 1 < 2 ^ 64
    omega)
  have hne : UInt64.ofNat (i + 1) ≠ 0 := fun h0 => by rw [h0] at hof; simp at hof
  rw [to_nat_emission hp hne, epoch, UInt64.toNat_div, hof]

/-! ## The prefix table -/

/-- The running sums are the exact ones, saturated. -/
theorem saturates_cumulative_loop {rates : List U256} {f : ℕ → ℕ} {acc : U256} {a : ℕ}
    (hrates : ∀ j < rates.length, (rates.getD j p.tailEmission).toNat = f j)
    (hacc : Saturates acc a) (hi : i < rates.length) :
    Saturates ((p.cumulativeLoop rates false acc).getD i 0)
      (a + p.epochLength.toNat * ∑ j ∈ range (i + 1), f j) := by
  induction rates generalizing acc a i f with
  | nil => cases hi
  | cons rate rest ih =>
    have hrate : rate.toNat = f 0 := hrates 0 (zero_lt_succ _)
    have hstep : Saturates (acc.satAdd (if (rate.mul (.fromUint64 p.epochLength)).2 then max
          else (rate.mul (.fromUint64 p.epochLength)).1))
        (a + p.epochLength.toNat * f 0) := by
      have hpaid := saturates_mul rate (.fromUint64 p.epochLength)
      rw [mul_comm, hrate] at hpaid
      exact hacc.sat_add hpaid
    rw [Finset.sum_range_succ', Nat.mul_add, Nat.add_comm (p.epochLength.toNat * _), ← add_assoc]
    cases i with
    | zero => exact hstep
    | succ i =>
      exact ih (f := fun j => f (j + 1)) (fun j hj => hrates (j + 1) (succ_lt_succ hj))
        hstep (lt_of_succ_lt_succ hi)

theorem saturates_first_epoch (hp : p.Valid) (rate : U256) (rest : List U256) :
    ∃ paid, p.cumulativeLoop (rate :: rest) true 0 = paid :: p.cumulativeLoop rest false paid ∧
      Saturates paid (p.epochLength.toNat * rate.toNat - rate.toNat) := by
  have hL : 0 < p.epochLength.toNat := hp.epochLength_pos
  have hpos : p.epochLength > 0 := UInt64.lt_iff_toNat_lt.mpr (by simpa using hL)
  have hone : (1 : UInt64) ≤ p.epochLength := UInt64.le_iff_toNat_le.mpr hL
  have hpaid := saturates_mul rate (.fromUint64 (p.epochLength - 1))
  rw [U256.to_nat_from_uint64, UInt64.toNat_sub_of_le _ _ hone, Nat.mul_comm,
    Nat.sub_mul, UInt64.toNat_one, Nat.one_mul] at hpaid
  refine ⟨_, by rw [cumulativeLoop, if_pos rfl, if_pos hpos], ?_⟩
  simpa only [Nat.zero_add] using (saturates_of_eq (u := 0) (n := 0) rfl).sat_add hpaid

/-- The table of sums is exact up to saturation; the first block is not paid for. -/
theorem saturates_cumulative_table (hp : p.Valid) (hi : i ≤ p.emissionTable.length) :
    Saturates (p.cumulativeTable.getD i 0)
      (p.epochLength.toNat * ∑ j ∈ range i, p.epochRate j - p.epochRate 0) := by
  obtain ⟨table, htable⟩ := hp.emissionTable_built
  have hcumulative : p.cumulativeTable = 0 :: p.cumulativeLoop p.emissionTable true 0 := by
    simp [cumulativeTable, emissionTable, htable]
  have hrates := to_nat_table_get hp
  rw [hcumulative]
  cases i with
  | zero => exact saturates_of_eq (by simp)
  | succ i =>
    rw [getD_cons_succ]
    cases hsplit : p.emissionTable with
    | nil => simp [hsplit] at hi
    | cons rate rest =>
      rw [hsplit] at hi hrates
      have hrate : rate.toNat = p.epochRate 0 := hrates 0
      obtain ⟨paid, hloop, hpaid⟩ := saturates_first_epoch hp rate rest
      have hle : p.epochRate 0 ≤ p.epochLength.toNat * p.epochRate 0 :=
        Nat.le_mul_of_pos_left _ hp.epochLength_pos
      rw [hrate] at hpaid
      rw [hloop, Finset.sum_range_succ', Nat.mul_add, Nat.add_comm, Nat.sub_add_comm hle]
      cases i with
      | zero => simpa using hpaid
      | succ i =>
        exact saturates_cumulative_loop (f := fun j => p.epochRate (j + 1))
          (fun j _ => hrates (j + 1)) hpaid (le_of_succ_le_succ hi)

/-! ## The total through a height -/

/-- What was emitted before an epoch, and its rate. -/
def Paid (before : Option (U256 × U256)) (total rate : ℕ) : Prop :=
  match before with
  | none => 2 ^ 256 ≤ total
  | some (t, r) => Saturates t total ∧ r.toNat = rate

theorem saturates_of_paid {before : Option (U256 × U256)} {total rate : ℕ} (blocks : UInt64) :
    Paid before total rate →
    Saturates (match before with
      | none => max
      | some (t, r) =>
        if (r.mul (.fromUint64 blocks)).2 then max
        else t.satAdd (r.mul (.fromUint64 blocks)).1) (total + blocks.toNat * rate) := by
  intro hbefore
  match before, hbefore with
  | none, hfull => exact saturates_max (le_add_right_of_le hfull)
  | some (t, r), ⟨ht, hr⟩ =>
    have hpart := saturates_mul r (.fromUint64 blocks)
    rw [mul_comm, hr] at hpart
    show Saturates (if (r.mul (.fromUint64 blocks)).2 then _ else _) _
    split_ifs with hover
    · have hbig := le_of_mul_overflow hover
      rw [mul_comm, hr] at hbig
      exact saturates_max (le_add_left_of_le hbig)
    · rw [if_neg hover] at hpart
      exact ht.sat_add hpart

section

variable (hp : p.Valid)

include hp

theorem sum_beyond_table (he : p.emissionTable.length ≤ e) :
    ∑ j ∈ range e, p.epochRate j = ∑ j ∈ range p.emissionTable.length, p.epochRate j +
        (e - p.emissionTable.length) * p.tailEmission.toNat := by
  obtain ⟨n, hrates, htail, -⟩ := emission_table_eq hp
  have hlength : p.emissionTable.length = n + 1 := by simpa using congrArg length hrates
  obtain ⟨k, rfl⟩ := Nat.exists_eq_add_of_le he
  have hrest : ∑ j ∈ range k, p.epochRate (p.emissionTable.length + j) =
      ∑ j ∈ range k, p.tailEmission.toNat :=
    sum_congr rfl fun j _ => epoch_rate_of_tail hp htail (by omega)
  rw [sum_range_add, hrest]
  simp

theorem epoch_rate_zero_le (he : 0 < e) :
    p.epochRate 0 ≤ p.epochLength.toNat * ∑ j ∈ range e, p.epochRate j :=
  (single_le_sum (fun _ _ => zero_le _) (mem_range.mpr he)).trans
    (Nat.le_mul_of_pos_left _ hp.epochLength_pos)

theorem paid_in_table (he : e < p.emissionTable.length) :
    Paid (some (p.cumulativeTable.getD e 0, p.emissionTable.getD e 0))
      (p.epochLength.toNat * ∑ j ∈ range e, p.epochRate j - p.epochRate 0)
      (p.epochRate e) := by
  refine ⟨saturates_cumulative_table hp he.le, ?_⟩
  rw [← to_nat_table_get hp]
  simp [getElem?_eq_getElem he]

/-- Past the table every epoch pays the tail. -/
theorem paid_beyond_table {blocks : U256} (he : p.emissionTable.length ≤ e)
    (hblocks : blocks.toNat = (e - p.emissionTable.length) * p.epochLength.toNat) :
    Paid
      (if (p.tailEmission.mul blocks).2 then none
        else some ((p.cumulativeTable.getD p.emissionTable.length 0).satAdd
          (p.tailEmission.mul blocks).1, p.tailEmission))
      (p.epochLength.toNat * ∑ j ∈ range e, p.epochRate j - p.epochRate 0)
      (p.epochRate e) := by
  obtain ⟨n, hrates, htail, -⟩ := emission_table_eq hp
  have hlength : p.emissionTable.length = n + 1 := by simpa using congrArg length hrates
  have htotal : p.epochLength.toNat * ∑ j ∈ range e, p.epochRate j - p.epochRate 0 =
      p.epochLength.toNat * ∑ j ∈ range p.emissionTable.length, p.epochRate j -
        p.epochRate 0 + p.tailEmission.toNat * blocks.toNat := by
    rw [sum_beyond_table hp he, mul_add, hblocks,
      Nat.sub_add_comm (epoch_rate_zero_le hp (by omega))]
    ring
  have hpaid := saturates_mul p.tailEmission blocks
  rw [htotal]
  split_ifs with hover
  · exact le_add_left_of_le (le_of_mul_overflow hover)
  · rw [if_neg hover] at hpaid
    exact ⟨(saturates_cumulative_table hp le_rfl).sat_add hpaid,
      (epoch_rate_of_tail hp htail (by omega)).symm⟩

theorem sum_emission_epochs (h : UInt64) :
    ∑ i ∈ range (h.toNat + 1), (p.emission (.ofNat i)).toNat + p.epochRate 0 =
      p.epochLength.toNat * ∑ j ∈ range (h / p.epochLength).toNat, p.epochRate j +
        ((h % p.epochLength).toNat + 1) * p.epochRate (h / p.epochLength).toNat := by
  have hheight : h.toNat + 1 = (h / p.epochLength).toNat * p.epochLength.toNat +
      ((h % p.epochLength).toNat + 1) := by
    rw [UInt64.toNat_div, UInt64.toNat_mod, ← Nat.add_assoc, Nat.div_add_mod']
  rw [sum_emission hp, hheight]
  exact sum_rates p.epochRate _ (by
    exact mod_lt _ hp.epochLength_pos)

/-- The total is the sum of the schedule, as far as it fits in a word. -/
theorem saturates_cumulative_emission (h : UInt64) :
    Saturates (p.cumulativeEmission h)
      (∑ i ∈ Finset.range (h.toNat + 1), (p.emission (.ofNat i)).toNat) := by
  have hL : 0 < p.epochLength.toNat := hp.epochLength_pos
  have hL0 : p.epochLength ≠ 0 := fun h0 => by rw [h0] at hL; exact absurd hL (by decide)
  have hw : (h % p.epochLength).toNat < p.epochLength.toNat := by
    exact Nat.mod_lt _ hL
  have hsum := sum_emission_epochs hp h
  obtain ⟨n, hrates, -, hn⟩ := emission_table_eq hp
  have hlength : p.emissionTable.length = n + 1 := by simpa using congrArg List.length hrates
  have hmax : maxEmissionEpochs < 2 ^ 64 := by decide
  have hlen : (UInt64.ofNat p.emissionTable.length).toNat = p.emissionTable.length :=
    UInt64.toNat_ofNat_of_lt' (by
      show p.emissionTable.length < 2 ^ 64
      omega)
  rw [cumulativeEmission, if_neg hL0]
  extract_lets epoch within len total product blocks tail paid
  have hbefore : Paid paid
      (p.epochLength.toNat * ∑ j ∈ Finset.range epoch.toNat, p.epochRate j - p.epochRate 0)
      (p.epochRate epoch.toNat) := by
    show Paid (if epoch < len then _ else _) _ _
    split
    · rename_i hin
      exact paid_in_table hp (hlen ▸ UInt64.lt_iff_toNat_lt.mp hin)
    · rename_i hout
      have hge : len ≤ epoch := UInt64.not_lt.mp hout
      have hcount : len.toNat ≤ epoch.toNat := UInt64.le_iff_toNat_le.mp hge
      have hpos : 0 < len := UInt64.lt_iff_toNat_lt.mpr (by rw [hlen, hlength]; exact n.succ_pos)
      have hne : len ≠ 0 := UInt64.pos_iff_ne_zero.mp hpos
      have hfits : (U256.fromUint64 (epoch - len)).toNat * (U256.fromUint64 p.epochLength).toNat <
          2 ^ 256 := by
        exact (Nat.mul_lt_mul'' (epoch - len).toNat_lt p.epochLength.toNat_lt).trans (by decide)
      have hproduct : ¬ product.2 = true := by simp [product, U256.mul_overflow_eq_false.mpr hfits]
      have hblocks : blocks = product.1 := if_neg (by simp [hne])
      have htotal : total = p.cumulativeTable.getD p.emissionTable.length 0 := by
        rw [← hlen]
        exact if_pos hpos
      rw [if_neg hproduct, htotal]
      exact paid_beyond_table hp (hlen ▸ hcount) (by
        rw [hblocks, U256.to_nat_mul hfits, U256.to_nat_from_uint64, U256.to_nat_from_uint64,
          UInt64.toNat_sub_of_le _ _ hge, hlen])
  have hpart := saturates_of_paid (if epoch > 0 then within + 1 else within) hbefore
  refine (congrArg (Saturates _) ?_).mp hpart
  split_ifs with hpos
  · have hle := epoch_rate_zero_le hp (e := epoch.toNat) (UInt64.lt_iff_toNat_lt.mp hpos)
    have hnext : (within + 1).toNat = within.toNat + 1 := by
      have hlt := p.epochLength.toNat_lt
      exact Nat.mod_eq_of_lt (Nat.lt_of_le_of_lt hw hlt)
    rw [hnext, ← Nat.sub_add_comm hle, ← hsum, Nat.add_sub_cancel]
  · have hfirst : epoch.toNat = 0 := by
      have h0 := mt UInt64.lt_iff_toNat_lt.mpr hpos
      exact Nat.eq_zero_of_not_pos h0
    change _ = p.epochLength.toNat * ∑ j ∈ Finset.range epoch.toNat, p.epochRate j +
      (within.toNat + 1) * p.epochRate epoch.toNat at hsum
    rw [hfirst] at hsum ⊢
    simp only [Finset.range_zero, Finset.sum_empty, Nat.succ_mul] at hsum ⊢
    omega

end

/-! ## The schedule -/

/-- The coinbase of accepted parameters. Block 0 pays nothing; every later block pays the rate of
its epoch, and the rates start at the genesis emission, follow the decay and stay at the tail from
some epoch on. The total through a height is the sum of the heights, saturating. -/
theorem emission_schedule (hp : p.validate = .ok ()) :
    p.emission 0 = 0 ∧
    (∀ h h' : UInt64, h ≠ 0 → h' ≠ 0 → p.epoch h = p.epoch h' → p.emission h = p.emission h') ∧
    (∃ rate : ℕ → ℕ, (∀ h : UInt64, h ≠ 0 → (p.emission h).toNat = rate (p.epoch h).toNat) ∧
      rate 0 = p.genesisEmission.toNat ∧
      (∀ n, rate (n + 1) = max p.tailEmission.toNat
        (rate n - max 1 (rate n / p.emissionDecayDivisor.toNat))) ∧
      ∃ n, ∀ m, n ≤ m → rate m = p.tailEmission.toNat) ∧
    (∀ h h' : UInt64, 1 ≤ h → h ≤ h' → p.emission h' ≤ p.emission h) ∧
    (∀ h : UInt64, 1 ≤ h → p.tailEmission ≤ p.emission h) ∧
    ∀ h : UInt64, (p.cumulativeEmission h).toNat =
      min (2 ^ 256 - 1) (∑ i ∈ Finset.range (h.toNat + 1), (p.emission (.ofNat i)).toNat) := by
  have hp := valid_of_validate hp
  have hne : ∀ h : UInt64, 1 ≤ h → h ≠ 0 := by
    intro h hh h0
    rw [h0] at hh
    exact absurd hh (by decide)
  refine ⟨rfl, ?_, ?_, ?_, ?_, ?_⟩
  · intro h h' hh hh' hepoch
    rw [eq_def, to_nat_emission hp hh, to_nat_emission hp hh', hepoch]
  · obtain ⟨n, -, htail, -⟩ := emission_table_eq hp
    exact ⟨p.epochRate, fun h hh => to_nat_emission hp hh, rfl, fun _ => rfl, n,
      fun m hm => epoch_rate_of_tail hp htail hm⟩
  · intro h h' hh hle
    have hone : 1 ≤ h' := UInt64.le_trans hh hle
    rw [le_def, to_nat_emission hp (hne h hh), to_nat_emission hp (hne h' hone)]
    refine epoch_rate_antitone hp ?_
    exact Nat.div_le_div_right (UInt64.le_iff_toNat_le.mp hle)
  · intro h hh
    rw [le_def, to_nat_emission hp (hne h hh)]
    exact tail_le_epoch_rate hp _
  · intro h
    rw [min_comm]
    exact saturates_cumulative_emission hp h

/-- The schedule of the sample parameters, and their total through block 2. -/
theorem sample_emission_schedule :
    params.validate = .ok () ∧ params.emission 0 = 0 ∧
      (params.cumulativeEmission 2).toNat =
        min (2 ^ 256 - 1) (∑ i ∈ Finset.range 3, (params.emission (.ofNat i)).toNat) := by
  have hschedule := emission_schedule params_validate
  exact ⟨params_validate, hschedule.1, hschedule.2.2.2.2.2 2⟩

end Zycord.Params
