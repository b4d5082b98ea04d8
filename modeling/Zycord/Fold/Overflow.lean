import Zycord.Fold.AssetSupply
import Zycord.Fold.Solvency

/-!
# Overflow skips are unreachable

In a state whose native balances fit in 256 bits and whose assets are in order (`Sound`), the
writes of a certificate whose reads hold cannot leave their range (`writes_in_range`): debits are
covered by the guards, credits by what is debited elsewhere or by the room under the cap. The same
bounds keep the sweep from ever carrying past 2^256. `overflow_unreachable` states both for the
blocks of a run.
-/

namespace Zycord.Fold

open Validity List
open Journal (Footprint Writes)

section

variable [Crypto] {c : Certificate} {id : Hash} {p : Params} {fs fp : U256} {j j' : Journal}
  {burned burned' tip : U256} {out : CertOutcome} {asset : Address} {s s' : State}

/-- The native balances fit in 256 bits and every asset is in order. -/
structure Sound (s : State) : Prop where
  native : wordSum (balanceWord nativeAsset) s < 2 ^ 256
  assets : ∀ asset, asset.version = Crypto.addrVersionAsset → SupplyOK asset s

theorem Sound.word_sum_lt (h : Sound s) (ha : IsAssetID asset) :
    wordSum (balanceWord asset) s < 2 ^ 256 := by
  rcases ha with rfl | ha
  · exact h.native
  · obtain ⟨hsum, -⟩ := h.assets asset ha
    rw [hsum]
    exact (s.get (assetMintedSlot asset)).isLt

theorem CertStep.burned_le (h : CertStep c id p fs fp j burned out tip j' burned') :
    burned.toNat ≤ burned'.toNat := by
  cases h with
  | dropped => exact le_refl _
  | billed hf hp hr hpay hb => omega

/-- One certificate keeps the state sound. -/
theorem CertStep.sound (hwd : WordsDistinct) (hc : ValidCert c p)
    (h : CertStep c id p fs fp j burned out tip j' burned') (hs : Sound j.s) : Sound j'.s := by
  refine ⟨?_, fun asset ha => ?_⟩
  · have hsum := h.native_sum hwd hc
    have hburned := h.burned_le
    have hnative := hs.native
    omega
  · exact (hs.assets asset ha).step hwd (h.asset_step hwd hc ha) (h.asset_sum hwd hc ha)

/-- A mint whose reads hold keeps the total within a word. -/
theorem Sound.minted_lt (hc : ValidCert c p) (hs : Sound j.s) (ha : IsAssetID asset)
    (hreads : readsHold (reserve c j).s c = true) :
    wordSum (balanceWord asset) j.s + mintedOn c asset < 2 ^ 256 := by
  have hfits := hs.word_sum_lt ha
  cases hc.shape with
  | mint args burns hprog hasset _ _ hcap hr _ _ =>
    rw [mintedOn, hprog]
    dsimp only
    split_ifs with heq
    · subst heq
      obtain ⟨-, -, hroom⟩ := mint_reads_hold hr hcap hreads
      rw [assetMintedSlot, get_reserve_asset hc hasset] at hroom
      obtain ⟨hsum, -⟩ := hs.assets args.asset hasset
      rw [hsum]
      exact hroom.trans_lt args.cap.isLt
    · exact hfits
  | transfer _ _ _ hprog | issue _ _ hprog | retire _ hprog => simpa [mintedOn, hprog] using hfits

/-- A covered transfer credits no more than the supply. -/
theorem transfer_credit_fits {sums : TransferSums} (hwf : sums.WF)
    (hdisj : ∀ e ∈ sums.debits.entries, sums.credits.contains e.1 = false)
    (hcovered : ∀ e ∈ sums.debits.entries, e.2.toNat ≤ (s.get e.1).toNat)
    {e : Slot × U256} (he : e ∈ sums.credits.entries) :
    (s.get e.1).toNat + e.2.toNat ≤ wordSum e.1.word s := by
  have hcredit : e.2.toNat ≤ sums.debits.sum (onWord e.1.word) := by
    have hle := FinMap.le_sum_of_mem (onWord e.1.word) he
    rw [hwf.balanced]
    simpa [onWord] using hle
  have hdebit : sums.debits.sum (onWord e.1.word) ≤
      (sums.debits.entries.map fun d => onWord e.1.word d.1 (s.get d.1)).sum := by
    refine sum_le_sum fun d hd => ?_
    have hle := hcovered d hd
    unfold onWord
    split <;> omega
  have hfresh : e.1 ∉ sums.debits.entries.map Prod.fst := fun hmem => by
    obtain ⟨d, hd, heq⟩ := mem_map.mp hmem
    have hcontains := FinMap.contains_of_mem he
    rw [← heq, hdisj d hd] at hcontains
    exact Bool.false_ne_true hcontains
  have hkeys := s.cells.sum_keys_le (nodup_cons.mpr ⟨hfresh, sums.debits.nodup_keys⟩)
    (onWord e.1.word) fun k => on_word_zero _ k
  simp only [map_cons, sum_cons, map_map, Function.comp_def] at hkeys
  have hself : onWord e.1.word e.1 (s.cells.get e.1) = (s.get e.1).toNat := by
    simp [onWord, State.get]
  have hget : (sums.debits.entries.map fun d => onWord e.1.word d.1 (s.get d.1)) =
      sums.debits.entries.map fun d => onWord e.1.word d.1 (s.cells.get d.1) := rfl
  rw [hget] at hdebit
  unfold wordSum
  omega

/-- In a sound state, the writes of a certificate whose reads hold stay in range. -/
theorem writes_in_range (hc : ValidCert c p) (hs : Sound j.s) (hf : Funded c j.s)
    (hreads : readsHold (reserve c j).s c = true) : ∀ w ∈ c.writes, InRange (reserve c j).s w := by
  intro w hw
  by_cases hspent : w.op = .markSpent
  · simp [InRange, hspent]
  have hreserve : ∀ {ω : Word}, wordSum ω (reserve c j).s ≤ wordSum ω j.s := fun {ω} => by
    have hsum := word_sum_reserve (ω := ω) hf
    omega
  cases hc.shape with
  | transfer moves sums burns _ hsums hdisj hr hwrites hburns =>
    have hwf := wf_of_sum_moves hsums
    have hcovered : ∀ e ∈ sums.debits.entries, e.2.toNat ≤ ((reserve c j).s.get e.1).toNat := by
      intro e he
      have hread := read_holds_of_mem hreads (r := ⟨e.1, .guardGE, e.2⟩)
        (hr.mem_iff.mpr (mem_map.mpr ⟨e, he, rfl⟩))
      simp only [readHolds, Bool.and_eq_true, Bool.not_eq_true', decide_eq_false_iff_not,
        not_lt] at hread
      exact U256.le_def.mp hread.2
    have hw := hburns.mem_of_op_ne hwrites hw hspent
    rw [mem_append, mem_map, mem_map] at hw
    rcases hw with ⟨e, he, rfl⟩ | ⟨e, he, rfl⟩
    · exact hcovered e he
    · obtain ⟨holder, asset, -, ha, hslot⟩ := hwf.credits e he
      have hfits := transfer_credit_fits hwf hdisj hcovered he
      have hword : e.1.word = balanceWord asset := by rw [hslot]; rfl
      rw [hword] at hfits
      exact (hfits.trans hreserve).trans_lt (hs.word_sum_lt ha)
  | issue args burns _ _ _ _ hwrites hburns =>
    have hw := hburns.mem_of_op_ne hwrites hw hspent
    simp only [issueWrites, mem_cons, not_mem_nil, or_false] at hw
    rcases hw with rfl | rfl | rfl | rfl <;> trivial
  | mint args burns hprog hasset _ _ hcap hr hwrites hburns =>
    have hw := hburns.mem_of_op_ne hwrites hw hspent
    simp only [mintWrites, mem_cons, not_mem_nil, or_false] at hw
    rcases hw with rfl | rfl
    · obtain ⟨-, -, hroom⟩ := mint_reads_hold hr hcap hreads
      exact hroom.trans_lt args.cap.isLt
    · have hminted := hs.minted_lt hc (Or.inr hasset) hreads
      have hcell := get_le_word_sum (s := (reserve c j).s) (balanceSlot args.dst args.asset) rfl
      have hle := hreserve (ω := balanceWord args.asset)
      simp only [mintedOn, hprog, if_true] at hminted
      simp only [InRange]
      have hword : (balanceSlot args.dst args.asset).word = balanceWord args.asset := rfl
      rw [hword] at hcell
      omega
  | retire addrs _ _ hburns => exact absurd (hburns.op_eq hw) hspent

theorem CertStep.not_overflow (hc : ValidCert c p) (hs : Sound j.s)
    (h : CertStep c id p fs fp j burned out tip j' burned') : out.outcome ≠ .skippedOverflow := by
  cases h with
  | dropped => simp [CertOutcome.drop]
  | billed hf hp hr hpay hb =>
    cases hp with
    | stale => simp
    | applied => simp
    | unstaged reason hreads hstage =>
      rcases stage_writes_error hstage with ⟨rfl, -⟩ | ⟨rfl, w, hw, hout⟩
      · simp
      · exact absurd (writes_in_range hc hs hf hreads w hw) hout

/-! ## The sweep -/

/-- The calls of `moveResidual` that a sweep makes: the journal at the call and the cell that is to
be emptied. -/
inductive SweepCall (c : Certificate) (j : Journal) : Journal → Slot → Prop where
  | native {before after : List Write} {w : Write} (hsplit : c.writes = before ++ w :: after)
      (hop : w.op = .markSpent) :
      SweepCall c j (before.foldl (sweepAddress c) ⟨j, 0, 0, 0⟩).j (nativeBalanceSlot w.slot.addr)
  | named {before after xs ys : List Write} {w x : Write}
      (hsplit : c.writes = before ++ w :: after) (hop : w.op = .markSpent)
      (hsplit' : c.writes = xs ++ x :: ys) (haddr : x.slot.addr = w.slot.addr)
      (hop' : x.op ≠ .markSpent) (hnative : isNativeBalanceSlot x.slot = false) :
      SweepCall c j (xs.foldl (sweepCell c.deposit.refundTo.addr w.slot.addr isNativeBalanceSlot)
        (sweepNative c (before.foldl (sweepAddress c) ⟨j, 0, 0, 0⟩) w.slot.addr)).j x.slot

/-- The branch of `moveResidual` that declines because the destination would carry past 2^256. -/
def CarriesPast (j : Journal) (src : Slot) (dst : Address) : Prop :=
  (j.s.get src).isZero = false ∧ j.s.isSpent dst = false ∧
    U256.checked ((j.s.get ⟨dst, src.word⟩).add (j.s.get src)) = none

variable {j₁ : Journal} {src : Slot}

/-- A sweep moves the cells of a spent address only. -/
theorem SweepCall.moves (h : SweepCall c j j₁ src) : Moves c j j₁ ∧ src.addr ∈ spentHere c := by
  cases h with
  | @native before after w hsplit hop =>
    have hmem : ∀ x ∈ before, x ∈ c.writes := fun x hx => by simp [hsplit, hx]
    exact ⟨sweep_addresses_moves hmem ⟨j, 0, 0, 0⟩,
      mem_spent_here.mpr ⟨w, by simp [hsplit], hop, rfl⟩⟩
  | @named before after xs ys w x hsplit hop hsplit' haddr hop' hnative =>
    have hmem : ∀ x ∈ before, x ∈ c.writes := fun x hx => by simp [hsplit, hx]
    have hburn : w.slot.addr ∈ spentHere c := mem_spent_here.mpr ⟨w, by simp [hsplit], hop, rfl⟩
    refine ⟨?_, haddr ▸ hburn⟩
    exact ((sweep_addresses_moves hmem ⟨j, 0, 0, 0⟩).move (nativeBalanceSlot w.slot.addr)
      hburn).trans
      (sweep_cells_moves hburn _ _ (sweepNative c _ w.slot.addr))

theorem burned_cell_balance (hc : ValidCert c p) {x : Write} (hx : x ∈ c.writes)
    (hop : x.op ≠ .markSpent) (hburned : x.slot.addr ∈ spentHere c) :
    ∃ asset, IsAssetID asset ∧ x.slot.word = balanceWord asset := by
  have hsub : x.op = .deltaSub := by
    by_contra hne
    exact hc.burned_clean x hx hop hne hburned
  cases hc.shape.written hx with
  | burned a _ heq => simp [heq, markSpentWrite] at hop
  | balance _ ha hslot _ => exact ⟨_, ha, by rw [hslot]; rfl⟩
  | issued _ _ _ _ _ _ _ hop' | minted _ _ _ hop' => simp [hsub] at hop'

theorem SweepCall.balance (hc : ValidCert c p) (h : SweepCall c j j₁ src) :
    ∃ asset, IsAssetID asset ∧ src.word = balanceWord asset := by
  have hburned := h.moves.2
  cases h with
  | native => exact ⟨nativeAsset, native_is_asset_id, rfl⟩
  | @named before after xs ys w x hsplit hop hsplit' haddr hop' hnative =>
    exact burned_cell_balance hc (by simp [hsplit']) hop' hburned

omit [Crypto] in
theorem get_add_get_le_word_sum {dst : Address} (hne : src.addr ≠ dst) :
    (s.get ⟨dst, src.word⟩).toNat + (s.get src).toNat ≤ wordSum src.word s := by
  have hne' : src ≠ ⟨dst, src.word⟩ := fun heq => by
    have haddr : src.addr = (⟨dst, src.word⟩ : Slot).addr := congrArg Slot.addr heq
    exact hne haddr
  have hkeys : [src, ⟨dst, src.word⟩].Nodup := by simpa using hne'
  have hpair := s.cells.sum_keys_le hkeys (onWord src.word) fun k => on_word_zero _ k
  simp only [map_cons, map_nil, sum_cons, sum_nil, onWord, if_true, Nat.add_zero] at hpair
  unfold State.get wordSum
  omega

theorem SweepCall.not_carries (hwd : WordsDistinct) (hc : ValidCert c p) (hs : Sound j.s)
    (hf : Funded c j.s) (hreads : readsHold (reserve c j).s c = true)
    (h : SweepCall c (writeStaged c (reserve c j)) j₁ src) :
    ¬ CarriesPast j₁ src c.deposit.refundTo.addr := by
  rintro ⟨-, -, hover⟩
  obtain ⟨hmoves, hburned⟩ := h.moves
  obtain ⟨asset, ha, hword⟩ := h.balance hc
  have hcommitted := word_sum_committed hwd hc ha hf (writes_in_range hc hs hf hreads)
  have hswept := hmoves.word_sum (ω := balanceWord asset) hc.refund_not_burned
  have hfits := hs.minted_lt hc ha hreads
  -- source and destination are two cells of the word
  have hne : src.addr ≠ c.deposit.refundTo.addr := fun heq => hc.refund_not_burned (heq ▸ hburned)
  have hpair := get_add_get_le_word_sum (s := j₁.s) hne
  rw [U256.checked_add_eq_none] at hover
  rw [hword] at hpair hover
  omega

/-! ## Runs -/

variable {b : Block} {log : ChainLog}

/-- Every run keeps the state sound while the emission fits a word. -/
theorem Run.sound (hp : p.Valid) (hwd : WordsDistinct) (h : Run p log s)
    (hemission : emittedBefore p log.length < 2 ^ 256) : Sound s := by
  refine ⟨?_, fun asset ha => ?_⟩
  · have htotal := h.native_total_le hp hwd
    unfold nativeTotal at htotal
    omega
  · exact h.reachable.supply_ok hwd ha

theorem Sound.opened (hwd : WordsDistinct) (hs : Sound s) (h : Header) :
    Sound (opened h p s).s := by
  refine ⟨?_, fun asset ha => supply_ok_opened hwd ha h (hs.assets asset ha)⟩
  rw [word_sum_opened hwd native_is_asset_id]
  exact hs.native

/-- In the next block of a run under accepted parameters, while the schedule stays below 2^256, no
certificate is skipped for an overflow, and no residual that a committing certificate sweeps is
left behind because its destination would carry past 2^256. -/
theorem overflow_unreachable (hwd : WordsDistinct) (hp : p.validate = .ok ()) (hrun : Run p log s)
    (hemission : ∑ h ∈ Finset.range log.length, (p.emission (.ofNat h)).toNat < 2 ^ 256) :
    (∀ r s', applyBlock s b p = (.ok r, s') → ∀ o ∈ r.outcomes, o.outcome ≠ .skippedOverflow) ∧
      (checkBlockRules s b p (carry b.certs) = .ok () →
        ∀ before cy after tips σ ov, foldOrder (carry b.certs) = before ++ cy :: after →
          applyCerts p (openedFees b.header p s).1 (openedFees b.header p s).2 before
            ⟨opened b.header p s, Result.empty⟩ = (.ok tips, σ) →
          Funded cy.cert σ.j.s → readsHold (reserve cy.cert σ.j).s cy.cert = true →
          stageWrites (reserve cy.cert σ.j).s cy.cert = .ok ov →
          ∀ j src, SweepCall cy.cert (((reserve cy.cert σ.j).setAll ov.cells).markAllSpent ov.spend)
              j src →
            ¬ CarriesPast j src cy.cert.deposit.refundTo.addr) := by
  have hvalid := Params.valid_of_validate hp
  have hopened := (hrun.sound hvalid hwd hemission).opened (p := p) hwd b.header
  constructor
  · intro r s' happly
    obtain ⟨tr, hy⟩ := block_trace happly
    rw [hy.outcomes_eq]
    refine tr.certs.forall_outcomes (I := fun j => Sound j.s) hopened ?_ (by simp [Result.empty])
    intro cy hcy j j' burned burned' tip out hj hstep
    have hc := tr.ok.valid hcy
    exact ⟨hstep.sound hwd hc hj, hstep.not_overflow hc hj⟩
  · intro hrules before cy after tips σ ov hsplit hcerts hf hreads hstage j src hcall
    have hok := check_block_rules_eq_ok.mp hrules
    have hbefore : CertRun p (openedFees b.header p s).1 (openedFees b.header p s).2 before
        ⟨opened b.header p s, Result.empty⟩ 0 σ tips := by
      have hspec := Mut.of_wp_ok (apply_certs_spec before _) hcerts
      exact hspec
    have hsound : Sound σ.j.s := by
      refine hbefore.invariant (I := fun j => Sound j.s) hopened ?_
      intro x hx j j' burned burned' tip out hj hstep
      exact hstep.sound hwd (hok.valid (by simp [hsplit, hx])) hj
    obtain ⟨-, rfl⟩ := stage_writes_eq_ok.mp hstage
    exact hcall.not_carries hwd (hok.valid (by simp [hsplit])) hsound hf hreads

end

section

open Sample

attribute [local instance] Reference.crypto

theorem sample_emission_le (height : UInt64) : (params.emission height).toNat ≤ 1000000 := by
  have htail : params.tailEmission.toNat = 1000000 := rfl
  unfold Params.emission
  split
  · exact Nat.zero_le _
  · cases (params.epoch height).toNat with
    | zero => exact le_of_eq htail
    | succ n => exact le_of_eq htail

theorem sample_emitted_lt {n : ℕ} (hn : n ≤ 2 ^ 64) :
    ∑ h ∈ Finset.range n, (params.emission (.ofNat h)).toNat < 2 ^ 256 := by
  have hle : ∑ h ∈ Finset.range n, (params.emission (.ofNat h)).toNat ≤ n * 1000000 := by
    induction n with
    | zero => exact Nat.zero_le _
    | succ n ih =>
      have hlast := sample_emission_le (.ofNat n)
      rw [Finset.sum_range_succ]
      omega
  omega

/-- In the executed chain the payment is not skipped for an overflow. -/
theorem sample_overflow_unreachable :
    ∃ log s b r s', Run params log s ∧ applyBlock s b params = (.ok r, s') ∧ b.certs = [payment] ∧
      ∀ o ∈ r.outcomes, o.outcome ≠ .skippedOverflow := by
  obtain ⟨log, s, b, r, s', hrun, hheight, happly, -, hcerts, -⟩ := payment_applies
  have hlen : log.length ≤ 2 ^ 64 := hheight ▸ b.header.height.toNat_lt.le
  exact ⟨log, s, b, r, s', hrun, happly, hcerts, (overflow_unreachable Reference.words_distinct
    params_validate hrun (sample_emitted_lt hlen)).1 r s' happly⟩

end

end Zycord.Fold
