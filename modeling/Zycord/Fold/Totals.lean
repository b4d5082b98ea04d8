import Zycord.Fold.Certificate
import Zycord.Validity.Shape

/-!
# What a certificate does to the totals

`wordSum ω` adds up the cells of a storage word over all addresses. A certificate moves value
within a word (transfers, sweeps, refunds), takes its fee out of the native word, and adds to the
word of an asset what it mints; `CertStep.word_sum` is that balance for every asset at once.
-/

namespace Zycord.Fold

open Crypto Journal Option U256 Validity List

/-- The sum of all cells of a word. -/
def wordSum (ω : Word) (s : State) : ℕ := s.cells.sum (onWord ω)

section Sums

variable {ω : Word} {s : State} {j j' : Journal}

theorem word_sum_set (slot : Slot) (v : U256) :
    wordSum ω (s.set slot v) + onWord ω slot (s.get slot) = wordSum ω s + onWord ω slot v :=
  s.cells.sum_set slot v _ (on_word_zero ω slot)

theorem get_le_word_sum (slot : Slot) (h : slot.word = ω) : (s.get slot).toNat ≤ wordSum ω s := by
  have hle : onWord ω slot (s.get slot) ≤ wordSum ω s :=
    s.cells.get_le_sum slot (onWord ω) (on_word_zero ω slot)
  simpa [onWord, h] using hle

@[simp] theorem cells_mark_spent (a : Address) : (j.markSpent a).s.cells = j.s.cells := by
  unfold Journal.markSpent
  split <;> rfl

@[simp] theorem cells_mark_seen (id : Hash) (ttl : UInt64) :
    (j.markSeen id ttl).s.cells = j.s.cells := by
  unfold Journal.markSeen
  split <;> rfl

@[simp] theorem cells_mark_all_spent (addrs : List Address) :
    (j.markAllSpent addrs).s.cells = j.s.cells := by
  refine addrs.foldlRecOn (motive := fun j' : Journal => j'.s.cells = j.s.cells) _ rfl
    fun j' h a _ => ?_
  rw [cells_mark_spent, h]

@[simp] theorem cells_set_all (cells : List (Slot × U256)) :
    (j.setAll cells).s.cells = j.s.cells.setAll cells := by
  exact (foldl_hom (fun j : Journal => j.s.cells) fun _ _ => rfl).symm

@[simp] theorem word_sum_mark_seen (id : Hash) (ttl : UInt64) :
    wordSum ω (j.markSeen id ttl).s = wordSum ω j.s := by
  simp [wordSum]

end Sums

/-! ## The parts of a certificate -/

section Parts

variable {c : Certificate} {ω : Word} {j j' : Journal}

theorem word_sum_reserve (hf : Funded c j.s) :
    wordSum ω (reserve c j).s + onWord ω c.deposit.cell c.deposit.amount = wordSum ω j.s := by
  have hset := word_sum_set (ω := ω) (s := j.s) c.deposit.cell
    ((j.s.get c.deposit.cell).sub c.deposit.amount).1
  have hsub := to_nat_sub hf.covered
  have hcov := hf.covered
  have hadd := on_word_add ω c.deposit.cell (u := c.deposit.amount)
    (v := ((j.s.get c.deposit.cell).sub c.deposit.amount).1) (w := j.s.get c.deposit.cell)
    (by omega)
  rw [reserve, s_set]
  omega

section

variable (hd : c.writes.Pairwise fun a b => a.slot < b.slot)

include hd

theorem staged_cells_distinct (s : State) :
    (overlayOf s c.writes).cells.Pairwise fun a b => a.1 ≠ b.1 :=
  pairwise_map.mpr ((hd.filter _).imp fun h => ne_of_lt h)

theorem get_write_staged_of_mem {w : Write} (hw : w ∈ c.writes) (hop : w.op ≠ .markSpent) :
    (writeStaged c j).s.get w.slot = stagedValue j.s w := by
  have hmem : (w.slot, stagedValue j.s w) ∈ (overlayOf j.s c.writes).cells :=
    mem_map.mpr ⟨w, mem_filter.mpr ⟨hw, by simpa using hop⟩, rfl⟩
  rw [writeStaged, get_mark_all_spent, State.get, cells_set_all]
  exact j.s.cells.get_set_all_of_mem (staged_cells_distinct hd j.s) hmem

end

theorem get_write_staged_of_not_mem {slot : Slot}
    (h : ∀ w ∈ c.writes, w.op ≠ .markSpent → w.slot ≠ slot) :
    (writeStaged c j).s.get slot = j.s.get slot := by
  rw [writeStaged, get_mark_all_spent, State.get, cells_set_all]
  refine FinFun.get_set_all_of_not_mem fun e he => ?_
  obtain ⟨w, hw, rfl⟩ := mem_map.mp he
  obtain ⟨hwm, hop⟩ := mem_filter.mp hw
  exact h w hwm (by simpa using hop)

/-- The overlay moves a word's sum by its credits less its debits. -/
theorem overlay_word_sum {ws : List Write} (s : State) (hin : ∀ w ∈ ws, InRange s w)
    (hset : ∀ w ∈ ws, w.op = .set → w.slot.word ≠ ω) :
    ((overlayOf s ws).cells.map fun e => onWord ω e.1 e.2).sum + wordTotal .deltaSub ω ws =
      ((overlayOf s ws).cells.map fun e => onWord ω e.1 (s.get e.1)).sum +
        wordTotal .deltaAdd ω ws := by
  induction ws with
  | nil => rfl
  | cons w rest ih =>
    have hrest := ih (fun x hx => hin x (mem_cons_of_mem _ hx))
      fun x hx => hset x (mem_cons_of_mem _ hx)
    have hw := hin w mem_cons_self
    rw [show w :: rest = [w] ++ rest from rfl, overlay_of_append, word_total_append,
      word_total_append]
    simp only [map_append, sum_append_nat]
    have hone : ((overlayOf s [w]).cells.map fun e => onWord ω e.1 e.2).sum +
        wordTotal .deltaSub ω [w] =
        ((overlayOf s [w]).cells.map fun e => onWord ω e.1 (s.get e.1)).sum +
          wordTotal .deltaAdd ω [w] := by
      cases hop : w.op with
      | markSpent => simp [overlayOf, hop]
      | set =>
        have hne := hset w mem_cons_self hop
        simp [overlayOf, hop, onWord, hne]
      | deltaAdd =>
        rw [InRange, hop] at hw
        have hval := to_nat_add hw
        simp [overlayOf, hop, onWord, stagedValue]
        split <;> omega
      | deltaSub =>
        rw [InRange, hop] at hw
        have hval := to_nat_sub hw
        simp [overlayOf, hop, onWord, stagedValue]
        split <;> omega
      | unknown code => simp [InRange, hop] at hw
    omega

theorem word_sum_write_staged (hd : c.writes.Pairwise fun a b => a.slot < b.slot)
    (hin : ∀ w ∈ c.writes, InRange j.s w)
    (hset : ∀ w ∈ c.writes, w.op = .set → w.slot.word ≠ ω) :
    wordSum ω (writeStaged c j).s + wordTotal .deltaSub ω c.writes =
      wordSum ω j.s + wordTotal .deltaAdd ω c.writes := by
  have hsum := j.s.cells.sum_set_all (staged_cells_distinct hd j.s) (onWord ω)
    fun k => on_word_zero ω k
  have hover := overlay_word_sum j.s hin hset
  have hcells : wordSum ω (writeStaged c j).s =
      (j.s.cells.setAll (overlayOf j.s c.writes).cells).sum (onWord ω) := by
    simp [wordSum, writeStaged]
  rw [hcells]
  have hget : (fun e : Slot × U256 => onWord ω e.1 (j.s.cells.get e.1)) =
      fun e => onWord ω e.1 (j.s.get e.1) := rfl
  rw [hget] at hsum
  unfold wordSum
  omega

/-- The sweep moves value within each word. -/
theorem Moves.word_sum (h : Moves c j j') (hr : c.deposit.refundTo.addr ∉ spentHere c) :
    wordSum ω j'.s = wordSum ω j.s := by
  induction h with
  | refl => rfl
  | @move j₁ src _ hsrc ih =>
    rcases move_residual_cases j₁ src c.deposit.refundTo.addr with heq | ⟨sum, hsum, heq⟩
    · rwa [heq]
    · have hne : src ≠ ⟨c.deposit.refundTo.addr, src.word⟩ := fun h => by
        have haddr : src.addr = (⟨c.deposit.refundTo.addr, src.word⟩ : Slot).addr :=
          congrArg Slot.addr h
        exact hr (haddr ▸ hsrc)
      have hout := word_sum_set (ω := ω) (s := j₁.s) src 0
      have hin := word_sum_set (ω := ω) (s := j₁.s.set src 0)
        ⟨c.deposit.refundTo.addr, src.word⟩ sum
      rw [State.get_set_of_ne _ _ hne] at hin
      have hadd := on_word_add ω ⟨c.deposit.refundTo.addr, src.word⟩ hsum
      have hword : onWord ω ⟨c.deposit.refundTo.addr, src.word⟩ (j₁.s.get src) =
          onWord ω src (j₁.s.get src) := rfl
      rw [heq, s_set, s_set]
      rw [on_word_zero] at hout
      omega

/-- A payment adds what is paid to the word of its destination. -/
theorem PaidOut.word_sum {dst : Slot} {amount paid unpaid : U256}
    (h : PaidOut dst amount j paid unpaid j') :
    wordSum ω j'.s = wordSum ω j.s + onWord ω dst paid := by
  cases h with
  | nothing h => simp
  | burned h hs => simp
  | paid credited h hs hv =>
    have hset := word_sum_set (ω := ω) (s := j.s) dst credited
    have hadd := on_word_add ω dst hv
    rw [s_set]
    omega

end Parts

/-! ## The certificate -/

section

variable [Crypto] {c : Certificate} {id : Hash} {p : Params} {fs fp : U256} {j j' : Journal}
  {outcome : Outcome} {fees : FeeSplit} {sweep : Sweep} {burned burned' tip : U256}
  {out : CertOutcome} {asset : Address}

/-- What an outcome mints. -/
def mintedBy (c : Certificate) (outcome : Outcome) (asset : Address) : ℕ :=
  if outcome = .applied then mintedOn c asset else 0

theorem word_sum_committed (hwd : WordsDistinct) (hc : ValidCert c p) (ha : IsAssetID asset)
    (hf : Funded c j.s) (hw : ∀ w ∈ c.writes, InRange (reserve c j).s w) :
    wordSum (balanceWord asset) (writeStaged c (reserve c j)).s +
        onWord (balanceWord asset) c.deposit.cell c.deposit.amount =
      wordSum (balanceWord asset) j.s + mintedOn c asset := by
  have hreserve := word_sum_reserve (ω := balanceWord asset) hf
  have hstaged := word_sum_write_staged (ω := balanceWord asset) hc.writes_sorted hw
    (hc.shape.set_not_balance hwd ha)
  have hbal := hc.shape.word_total_balance hwd ha
  omega

/-- Before it is settled, a certificate has taken its deposit out and added what it mints. -/
theorem Prepared.word_sum (hwd : WordsDistinct) (hc : ValidCert c p) (ha : IsAssetID asset)
    (hf : Funded c j.s) (h : Prepared c p fs fp j outcome fees sweep) :
    wordSum (balanceWord asset) sweep.j.s +
        onWord (balanceWord asset) c.deposit.cell c.deposit.amount =
      wordSum (balanceWord asset) j.s + mintedBy c outcome asset := by
  have hreserve := word_sum_reserve (ω := balanceWord asset) hf
  cases h with
  | stale => simpa [mintedBy] using hreserve
  | unstaged reason hr hstage => simpa [mintedBy, stage_error_ne_applied hstage] using hreserve
  | applied fees hr hw hfees =>
    have hcommitted := word_sum_committed hwd hc ha hf fun w hwm => (hw w hwm).2
    have hsweep := (sweep_burned_moves c (writeStaged c (reserve c j))).word_sum
      (ω := balanceWord asset) hc.refund_not_burned
    simp only [mintedBy, if_true]
    omega

omit [Crypto] in
theorem charge_eq {fees : FeeSplit} (h : c.fees p fs fp = some fees) :
    fees.charge.toNat = fees.burned.toNat + fees.tip.toNat := by
  simp only [Certificate.fees, bind_eq_bind, bind_eq_some_iff] at h
  obtain ⟨seq, -, par, -, burned, -, tip, -, charge, hcharge, heq⟩ := h
  obtain rfl := some.inj heq
  exact checked_add_eq_some.mp hcharge

theorem Prepared.charge_eq (h : Prepared c p fs fp j outcome fees sweep) :
    fees.charge.toNat = fees.burned.toNat + fees.tip.toNat := by
  cases h with
  | stale | unstaged => simp [skipSplit]
  | applied fees hr hw hfees => exact Fold.charge_eq hfees

/-- One certificate conserves the native balances, burn and tip. -/
theorem CertStep.native_sum (hwd : WordsDistinct) (hc : ValidCert c p)
    (h : CertStep c id p fs fp j burned out tip j' burned') :
    wordSum (balanceWord nativeAsset) j'.s + burned'.toNat + tip.toNat =
      wordSum (balanceWord nativeAsset) j.s + burned.toNat := by
  cases h with
  | dropped => simp
  | billed hf hp hr hpay hb =>
    have hsum := hp.word_sum hwd hc native_is_asset_id hf
    have hpaid := hpay.word_sum (ω := balanceWord nativeAsset)
    have htotal := hpay.total
    have hcharge := hp.charge_eq
    rw [mintedBy, hc.shape.minted_on_native, ite_self] at hsum
    simp only [onWord, hc.deposit_native, hc.refund_native, if_true] at hsum hpaid
    rw [word_sum_mark_seen]
    omega

theorem native_word_ne (hwd : WordsDistinct) (ha : asset.version = addrVersionAsset) :
    balanceWord nativeAsset ≠ balanceWord asset := fun heq => by
  rw [hwd.balance_word_eq_iff native_is_asset_id (Or.inr ha)] at heq
  rw [← heq] at ha
  exact absurd ha (by decide)

/-- One certificate changes an asset's supply by what it mints. -/
theorem CertStep.asset_sum (hwd : WordsDistinct) (hc : ValidCert c p)
    (ha : asset.version = addrVersionAsset)
    (h : CertStep c id p fs fp j burned out tip j' burned') :
    wordSum (balanceWord asset) j'.s =
      wordSum (balanceWord asset) j.s + mintedBy c out.outcome asset := by
  have hne := native_word_ne hwd ha
  cases h with
  | dropped => simp [mintedBy, CertOutcome.drop]
  | billed hf hp hr hpay hb =>
    have hsum := hp.word_sum hwd hc (Or.inr ha) hf
    have hpaid := hpay.word_sum (ω := balanceWord asset)
    simp only [onWord, hc.deposit_native, hc.refund_native, hne, if_false] at hsum hpaid
    rw [word_sum_mark_seen]
    dsimp only
    omega

end

end Zycord.Fold
