import Mathlib.Algebra.BigOperators.Group.Finset.Basic
import Zycord.Fold.Target
import Zycord.Fold.Totals

/-!
# Conservation of the native coin

The native supply is what the balance cells hold, the treasury's among them, together with the
rewards that wait in the coinbase ring. A certificate moves it, burns it or tips it; the end of a
block issues the subsidy, and every reward it pays comes from there, from the tips or from the
ring. `native_supply_conserved` adds this up: a block changes the supply by its emission minus
its burn, exactly.
-/

namespace Zycord.Fold

open Finset Journal UInt64 Validity

section

variable [Crypto] {p : Params} {s s' : State} {j j' : Journal}

/-- The rewards that wait in the coinbase ring. -/
def pendingTotal (p : Params) (s : State) : ℕ :=
  ∑ i ∈ Finset.range p.coinbaseMaturity.toNat, (s.get (pendingCoinbaseAmountSlot (.ofNat i))).toNat

/-- The native coins there are, pending rewards included. -/
def nativeTotal (p : Params) (s : State) : ℕ :=
  wordSum (balanceWord nativeAsset) s + pendingTotal p s

/-! ## The bookkeeping steps -/

variable {ω : Word} {asset : Address}

omit [Crypto] in
theorem word_sum_of_writes {F : Footprint} (h : Writes F j j')
    (hF : ∀ slot, F.cells slot → slot.word ≠ ω) : wordSum ω j'.s = wordSum ω j.s := by
  induction h with
  | refl => rfl
  | @set j' slot v _ hs ih =>
    have hset := word_sum_set (ω := ω) (s := j'.s) slot v
    simp only [onWord, hF slot hs, if_false, Nat.add_zero] at hset
    rw [s_set, hset, ih]
  | markSpent a _ _ ih => rw [← ih, wordSum, cells_mark_spent, wordSum]
  | markSeen id ttl _ _ ih => rw [word_sum_mark_seen, ih]

theorem word_sum_of_labels (hwd : WordsDistinct) {labels : List WordLabel}
    (hplain : ∀ m ∈ labels, m.Plain) (h : Writes (labelFootprint labels) j j')
    (ha : IsAssetID asset) :
    wordSum (balanceWord asset) j'.s = wordSum (balanceWord asset) j.s := by
  refine word_sum_of_writes h fun slot hslot => ?_
  obtain ⟨m, hm, rfl⟩ := hslot
  exact plain_ne_balance hwd (hplain m hm) ha

omit [Crypto] in
@[simp] theorem word_sum_prune_expired (h : Header) (j : Journal) :
    wordSum ω (pruneExpired h j).s = wordSum ω j.s := by
  unfold pruneExpired
  split <;> rfl

variable {b : Block} {log : ChainLog} {fs fp : U256} {ordered : List Carried} {σ σ' : FoldState}
  {tips tips' : U256}

theorem pending_total_congr
    (h : ∀ i, s'.get (pendingCoinbaseAmountSlot i) = s.get (pendingCoinbaseAmountSlot i)) :
    pendingTotal p s' = pendingTotal p s := sum_congr rfl fun i _ => by rw [h]

section

variable (hwd : WordsDistinct)

include hwd

/-- Storing a reward replaces one cell's amount in the total. -/
theorem pending_total_store {index : UInt64}
    (hi : index.toNat < p.coinbaseMaturity.toNat) (payee : Address) (reward : U256) :
    pendingTotal p (storePending index payee reward j).s +
        (j.s.get (pendingCoinbaseAmountSlot index)).toNat =
      pendingTotal p j.s + reward.toNat := by
  have hself : (storePending index payee reward j).s.get (pendingCoinbaseAmountSlot index) =
      reward := by
    unfold storePending
    split_ifs with hzero
    · rw [s_set, State.get_set_self, U256.is_zero_iff.mp hzero]
    · rw [s_set, State.get_set_self]
  have hother : ∀ i, i ≠ index →
      (storePending index payee reward j).s.get (pendingCoinbaseAmountSlot i) =
        j.s.get (pendingCoinbaseAmountSlot i) := by
    intro i hne
    refine (store_pending_labels index payee reward).get_eq fun hcell => ?_
    obtain ⟨m, hm, heq⟩ := hcell
    rw [pendingCoinbaseAmountSlot, hwd.protocol_slot_eq_iff (l := .coinbaseAmount i) trivial
      (ring_labels_plain index m hm).proper] at heq
    subst heq
    simp [ringLabels, hne] at hm
  have hmem : index.toNat ∈ range p.coinbaseMaturity.toNat := mem_range.mpr hi
  have hindex : UInt64.ofNat index.toNat = index := UInt64.ofNat_toNat
  -- every entry but the stored one is as before
  have hrest : ∑ i ∈ (range p.coinbaseMaturity.toNat).erase index.toNat,
        ((storePending index payee reward j).s.get (pendingCoinbaseAmountSlot (.ofNat i))).toNat =
      ∑ i ∈ (range p.coinbaseMaturity.toNat).erase index.toNat,
        (j.s.get (pendingCoinbaseAmountSlot (.ofNat i))).toNat := by
    refine sum_congr rfl fun i hie => ?_
    rw [mem_erase, mem_range] at hie
    have hlt : i < 2 ^ 64 := hie.2.trans p.coinbaseMaturity.toNat_lt
    have hne : ofNat i ≠ index := fun h => hie.1 (by rw [← h, toNat_ofNat_of_lt' hlt])
    rw [hother _ hne]
  unfold pendingTotal
  rw [← add_sum_erase _ _ hmem, ← add_sum_erase _ (fun i =>
    (j.s.get (pendingCoinbaseAmountSlot (.ofNat i))).toNat) hmem, hindex, hself]
  omega

/-! ## The block -/

/-- The loop over certificates conserves the native balances. -/
theorem CertRun.native_sum (h : CertRun p fs fp ordered σ tips σ' tips')
    (hc : ∀ cy ∈ ordered, ValidCert cy.cert p) :
    wordSum (balanceWord nativeAsset) σ'.j.s + σ'.res.burned.toNat + tips'.toNat =
      wordSum (balanceWord nativeAsset) σ.j.s + σ.res.burned.toNat + tips.toNat := by
  induction h with
  | nil => rfl
  | cons hstep htips _ ih =>
    have hone := hstep.native_sum hwd (hc _ List.mem_cons_self)
    have hrest := ih fun cy hcy => hc cy (List.mem_cons_of_mem _ hcy)
    simp only [burned_record_cert] at hrest
    omega

theorem word_sum_opened (ha : IsAssetID asset) (h : Header) (s : State) :
    wordSum (balanceWord asset) (opened h p s).s = wordSum (balanceWord asset) s :=
  word_sum_of_labels hwd (open_labels_plain h) open_block_labels ha

theorem CertTrace.native_sum (tr : CertTrace s b p) :
    wordSum (balanceWord nativeAsset) tr.σ₁.j.s + tr.σ₁.res.burned.toNat + tr.tips.toNat =
      wordSum (balanceWord nativeAsset) s := by
  have hcerts := tr.certs.native_sum hwd fun cy hcy => tr.ok.valid hcy
  simpa [Result.empty, word_sum_opened hwd native_is_asset_id] using hcerts

theorem word_sum_recorded (ha : IsAssetID asset) (σ : FoldState) :
    wordSum (balanceWord asset) (recorded b p σ).s =
      wordSum (balanceWord asset) σ.j.s := by
  rw [recorded, word_sum_prune_expired]
  exact word_sum_of_labels hwd (record_labels_plain _) (record_block_labels _ _) ha

/-- The balances after the reward: the treasury has its share. -/
theorem RewardTrace.word_sum (tr : RewardTrace s b p) (ha : IsAssetID asset) :
    wordSum (balanceWord asset) tr.σ₂.j.s = wordSum (balanceWord asset) tr.σ₁.j.s +
      onWord (balanceWord asset) treasurySlot (treasuryShare p b.header.height) := by
  have hrecorded := word_sum_recorded (b := b) (p := p) hwd ha tr.σ₁
  obtain ⟨credited, hcredited, htreasury⟩ := tr.reward.treasury
  have hset := word_sum_set (ω := balanceWord asset) (s := (recorded b p tr.σ₁).s)
    treasurySlot credited
  have hadd := on_word_add (balanceWord asset) treasurySlot hcredited
  rw [htreasury]
  dsimp only at hadd ⊢
  omega

theorem RewardTrace.get_pending (tr : RewardTrace s b p) (i : UInt64) :
    tr.σ₂.j.s.get (pendingCoinbaseAmountSlot i) = s.get (pendingCoinbaseAmountSlot i) := by
  have hopened : (opened b.header p s).s.get (pendingCoinbaseAmountSlot i) =
      s.get (pendingCoinbaseAmountSlot i) :=
    get_opened_label hwd (l := .coinbaseAmount i) trivial (by simp) (by simp [feeLabels])
  rw [← hopened]
  exact tr.get_label hwd (l := .coinbaseAmount i) trivial (by simp [recordLabels])

end

omit [Crypto] in
theorem ring_index_lt (hp : p.Valid) (h : Header) :
    (ringIndex h p).toNat < p.coinbaseMaturity.toNat := by
  rw [ringIndex, UInt64.toNat_mod]
  exact Nat.mod_lt _ hp.coinbaseMaturity_pos

namespace BlockTrace

variable (tr : BlockTrace s b p)

theorem word_sum_closed (hwd : WordsDistinct) {asset : Address} (ha : IsAssetID asset) :
    wordSum (balanceWord asset) tr.closed.s = wordSum (balanceWord asset) tr.σ₂.j.s +
      onWord (balanceWord asset) (maturedCell b.header p tr.σ₂.j.s) tr.matured := by
  have hfees : wordSum (balanceWord asset) tr.closed.s = wordSum (balanceWord asset) tr.σ₃.j.s :=
    word_sum_of_labels hwd fee_labels_plain (update_base_fees_labels _ _ _ _) ha
  have hstore : wordSum (balanceWord asset) tr.σ₃.j.s = wordSum (balanceWord asset) tr.mid.s := by
    rw [tr.ring.j]
    exact word_sum_of_labels hwd (ring_labels_plain _) (store_pending_labels _ _ _) ha
  rw [hfees, hstore, tr.ring.paid.word_sum]

theorem pending_total_closed (hp : p.Valid) (hwd : WordsDistinct) :
    pendingTotal p tr.closed.s + (tr.matured.toNat + tr.unpaid.toNat) =
      pendingTotal p s + tr.σ₂.res.minerReward.toNat := by
  have hfees : pendingTotal p tr.closed.s = pendingTotal p tr.σ₃.j.s :=
    pending_total_congr fun i => get_label_of_writes hwd (update_base_fees_labels _ _ _ _)
      fee_labels_plain (l := .coinbaseAmount i) trivial (by simp [feeLabels])
  have hget : ∀ i, tr.mid.s.get (pendingCoinbaseAmountSlot i) =
      s.get (pendingCoinbaseAmountSlot i) :=
    fun i => (tr.get_mid_label hwd (l := .coinbaseAmount i) trivial).trans (tr.get_pending hwd i)
  have hstore := pending_total_store (j := tr.mid) hwd (ring_index_lt hp b.header)
    b.header.emissionAddr tr.σ₂.res.minerReward
  have htotal := tr.ring.paid.total
  rw [maturedAmount, tr.get_pending hwd] at htotal
  rw [hget, pending_total_congr hget] at hstore
  rw [hfees, tr.ring.j]
  omega

/-- A block adds its emission to the native total, less what it burns. -/
theorem native_total_closed (hp : p.Valid) (hwd : WordsDistinct)
    (hforfeit : (burstForfeit p (currentSeqGasTarget s p b.header.height) tr.σ₁.res.seqGasUsed
      tr.gross).toNat ≤ tr.gross.toNat) :
    nativeTotal p tr.closed.s + tr.σ₃.res.burned.toNat =
      nativeTotal p s + (p.emission b.header.height).toNat := by
  have hcerts := tr.native_sum hwd
  have hreward := tr.word_sum hwd native_is_asset_id
  have hclosed := tr.word_sum_closed hwd native_is_asset_id
  have hpending := tr.pending_total_closed hp hwd
  have hgross := tr.reward.gross_eq
  have hburned := tr.reward.burned
  have hburned' := tr.ring.burned
  have hminer : tr.σ₂.res.minerReward.toNat = tr.gross.toNat - (burstForfeit p
      (currentSeqGasTarget s p b.header.height) tr.σ₁.res.seqGasUsed tr.gross).toNat := by
    rw [tr.reward.res, U256.to_nat_sat_sub]
  simp only [onWord, treasury_slot_word, matured_cell_word, if_true] at hreward hclosed
  unfold nativeTotal
  dsimp only at hburned
  omega

end BlockTrace

/-- Along every run under accepted parameters, a block changes the native supply by its emission
minus what it burned. -/
theorem native_supply_conserved (hwd : WordsDistinct) (hp : p.validate = .ok ()) {r : Result}
    (hrun : Run p log s) (happly : applyBlock s b p = (.ok r, s')) :
    (nativeTotal p s' : ℤ) =
      nativeTotal p s + (p.emission b.header.height).toNat - r.burned.toNat := by
  have hvalid := Params.valid_of_validate hp
  obtain ⟨tr, hy⟩ := block_trace happly
  have htotal :=
    tr.native_total_closed hvalid hwd (tr.forfeit_le hvalid (hrun.started hvalid hwd) _)
  rw [hy.state, hy.burned_eq]
  omega

end

section Sample

open Sample

attribute [local instance] Reference.crypto

/-- The block of the executed chain that carries a payment conserves the supply. -/
theorem sample_native_supply_conserved :
    ∃ log s b r s', Run params log s ∧ applyBlock s b params = (.ok r, s') ∧ b.certs = [payment] ∧
      (nativeTotal params s' : ℤ) =
        nativeTotal params s + (params.emission b.header.height).toNat - r.burned.toNat := by
  obtain ⟨log, s, b, r, s', hrun, -, happly, -, hcerts, -⟩ := payment_applies
  exact ⟨log, s, b, r, s', hrun, happly, hcerts,
    native_supply_conserved Reference.words_distinct params_validate hrun happly⟩

end Sample

end Zycord.Fold
