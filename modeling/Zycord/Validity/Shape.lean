import Zycord.Validity.Check

/-!
# The shape of valid certificates

A valid certificate declares exactly what its program derives, so its reads and writes are known
up to order: `CertShape` lists them program by program, and `ValidCert.shape` is the way there.
Of a transfer it also says that debits and credits balance on every storage word.
-/

namespace Zycord.Validity

open Except FinMap Prod U256 Crypto List

/-! ## Totals by word -/

/-- A value, if its cell is of a word. -/
def onWord (ω : Word) (slot : Slot) (v : U256) : ℕ := if slot.word = ω then v.toNat else 0

@[simp] theorem on_word_zero (ω : Word) (slot : Slot) : onWord ω slot 0 = 0 := by
  simp [onWord]

theorem on_word_add (ω : Word) (slot : Slot) {u v w : U256} (h : w.toNat = u.toNat + v.toNat) :
    onWord ω slot w = onWord ω slot u + onWord ω slot v := by
  unfold onWord
  split <;> omega

/-- What the writes of one kind move on a word. -/
def wordTotal (op : Op) (ω : Word) (ws : List Write) : ℕ :=
  (ws.map fun w => if w.op = op then onWord ω w.slot w.value else 0).sum

section WordTotal

variable {op : Op} {ω : Word} {ws ws' : List Write}

@[simp] theorem word_total_nil : wordTotal op ω [] = 0 := rfl

@[simp] theorem word_total_cons (w : Write) :
    wordTotal op ω (w :: ws) =
      (if w.op = op then onWord ω w.slot w.value else 0) + wordTotal op ω ws := by
  simp [wordTotal]

@[simp] theorem word_total_append :
    wordTotal op ω (ws ++ ws') = wordTotal op ω ws + wordTotal op ω ws' := by
  simp [wordTotal]

theorem word_total_perm (h : ws.Perm ws') : wordTotal op ω ws = wordTotal op ω ws' :=
  (h.map _).sum_nat

theorem word_total_eq_zero (h : ∀ w ∈ ws, w.op ≠ op) : wordTotal op ω ws = 0 := by
  induction ws with
  | nil => rfl
  | cons w rest ih =>
    rw [word_total_cons, if_neg (h w mem_cons_self), ih fun x hx => h x (mem_cons_of_mem _ hx)]

theorem word_total_entries (sums : SlotSums) :
    wordTotal op ω (sums.entries.map fun e => ⟨e.1, op, e.2⟩) = sums.sum (onWord ω) := by
  simp [wordTotal, FinMap.sum, Function.comp_def]

theorem word_total_entries_of_ne {other : Op} (h : other ≠ op) (entries : List (Slot × U256)) :
    wordTotal op ω (entries.map fun e => ⟨e.1, other, e.2⟩) = 0 := word_total_eq_zero fun w hw => by
    obtain ⟨e, -, rfl⟩ := mem_map.mp hw
    exact h

end WordTotal

/-! ## The totals of a transfer -/

variable {sums sums' : SlotSums} {slot : Slot} {v : U256}

/-- A sum is added where it does not overflow. -/
theorem slot_sums_add_eq_ok :
    sums.add slot v = .ok sums' ↔
      ∃ total : U256, total.toNat = (SlotSums.total sums slot).toNat + v.toNat ∧
        sums' = sums.insert slot total := by
  unfold SlotSums.add
  cases h : checked ((SlotSums.total sums slot).add v) with
  | none =>
    simp only [reduceCtorEq, false_iff, not_exists, not_and]
    intro total htotal
    have := checked_add_eq_none.mp h
    have := total.isLt
    omega
  | some total =>
    have htotal := checked_add_eq_some.mp h
    simp only [ok.injEq]
    constructor
    · rintro rfl
      exact ⟨total, htotal, rfl⟩
    · rintro ⟨total', htotal', rfl⟩
      rw [ext (htotal.trans htotal'.symm)]

theorem sum_slot_sums_add (ω : Word) (h : sums.add slot v = .ok sums') :
    sums'.sum (onWord ω) = sums.sum (onWord ω) + onWord ω slot v := by
  obtain ⟨total, htotal, rfl⟩ := slot_sums_add_eq_ok.mp h
  have hins := sum_insert_list (k := slot) (v := total) (onWord ω) sums.sorted
  have hold : (findList slot sums.entries).elim 0 (onWord ω slot) =
      onWord ω slot (SlotSums.total sums slot) := by
    unfold SlotSums.total FinMap.find?
    cases findList slot sums.entries <;> simp
  rw [hold] at hins
  have hins' : (sums.insert slot total).sum (onWord ω) +
      onWord ω slot (SlotSums.total sums slot) = sums.sum (onWord ω) + onWord ω slot total := hins
  have hadd := on_word_add ω slot htotal
  omega

/-- The sums are of balances of users. -/
def BalanceCells [Crypto] (sums : SlotSums) : Prop :=
  ∀ e ∈ sums.entries, ∃ holder asset,
    isUserAddress holder = true ∧ IsAssetID asset ∧ e.1 = balanceSlot holder asset

section

variable [Crypto]

variable {asset : Address} {t : TransferSums} {moves : List Move} {p : Params} {w : Write}

theorem BalanceCells.add {sums sums' : SlotSums} {holder : Address} {v : U256}
    (h : BalanceCells sums) (hu : isUserAddress holder = true) (ha : IsAssetID asset)
    (hadd : sums.add (balanceSlot holder asset) v = .ok sums') : BalanceCells sums' := by
  obtain ⟨total, -, rfl⟩ := slot_sums_add_eq_ok.mp hadd
  intro e he
  rcases mem_insert_list he with rfl | he
  · exact ⟨holder, asset, hu, ha, rfl⟩
  · exact h e he

/-- What the totals of every list of moves satisfy. -/
structure TransferSums.WF (t : TransferSums) : Prop where
  balanced : ∀ ω, t.debits.sum (onWord ω) = t.credits.sum (onWord ω)
  debits : BalanceCells t.debits
  credits : BalanceCells t.credits
  burns : ∀ e ∈ t.oneShotDebited.entries, e.1.version = addrVersionOneShot

/-- A move keeps the sums well formed. -/
theorem TransferSums.WF.add_move {t' : TransferSums} {m : Move} (h : t.WF)
    (hadd : addMove t m = .ok t') : t'.WF := by
  simp only [addMove, seq_eq_ok, reject_if_eq_ok, bind_eq_ok (x := SlotSums.add _ _ _)]
    at hadd
  obtain ⟨hasset, -, hsrc, hdst, -, debits, hdebits, credits, hcredits, heq⟩ := hadd
  have hid : IsAssetID m.asset := by
    by_cases hn : m.asset = nativeAsset
    · exact Or.inl hn
    · exact Or.inr (not_not.mp fun hv => hasset ⟨hn, hv⟩)
  have hsrc' : isUserAddress m.src = true := by simpa using hsrc
  have hdst' : isUserAddress m.dst = true := by simpa using hdst
  obtain rfl : TransferSums.mk debits credits _ = t' := ok.inj heq
  refine ⟨fun ω => ?_, h.debits.add hsrc' hid hdebits, h.credits.add hdst' hid hcredits, ?_⟩
  · rw [sum_slot_sums_add ω hdebits, sum_slot_sums_add ω hcredits, h.balanced ω]
    rfl
  · split_ifs with hv
    · intro e he
      rcases mem_insert_list he with rfl | he
      · exact hv
      · exact h.burns e he
    · exact h.burns

theorem wf_of_sum_moves (h : sumMoves moves = .ok t) : t.WF := by
  refine foldlM_invariant (fun t m t' ht hadd => ht.add_move hadd) ?_ h
  exact ⟨fun _ => rfl, fun e he => by simp [empty] at he,
    fun e he => by simp [empty] at he, fun e he => by simp [empty] at he⟩

/-! ## Programs -/

/-- The writes burn one-shot addresses. -/
def OneShotBurns (ws : List Write) : Prop :=
  ∀ w ∈ ws, ∃ a, a.version = addrVersionOneShot ∧ w = markSpentWrite a

/-- The writes of an issue. -/
def issueWrites (asset : Address) (args : IssueArgs) : List Write :=
  [⟨assetCapSlot asset, .set, args.cap⟩,
   ⟨assetDecimalsSlot asset, .set, .fromUint64 args.decimals.toUInt64⟩,
   ⟨assetSymbolSlot asset, .set, .fromBytes args.symbolHash⟩,
   ⟨assetMinterSlot asset, .set, .fromBytes args.minter⟩]

/-- The guards of a minting. -/
def mintReads (args : MintArgs) : List Read :=
  [⟨assetCapSlot args.asset, .exact, args.cap⟩,
   ⟨assetMinterSlot args.asset, .exact, .fromBytes args.minter⟩,
   ⟨assetMintedSlot args.asset, .guardLE, (args.cap.sub args.amount).1⟩]

/-- The writes of a minting. -/
def mintWrites (args : MintArgs) : List Write :=
  [⟨assetMintedSlot args.asset, .deltaAdd, args.amount⟩,
   ⟨balanceSlot args.dst args.asset, .deltaAdd, args.amount⟩]

/-- The reads and writes of a certificate, up to order, by its program. Whatever the program,
one-shot addresses may be burned with it. -/
inductive CertShape (c : Certificate) : Prop where
  | transfer (moves : List Move) (sums : TransferSums) (burns : List Write)
      (hprog : c.program = .transfer moves) (hsums : sumMoves moves = .ok sums)
      (hdisj : ∀ e ∈ sums.debits.entries, sums.credits.contains e.1 = false)
      (hreads : c.reads.Perm (transferReads sums))
      (hwrites : c.writes.Perm (sums.debits.entries.map (fun e => ⟨e.1, .deltaSub, e.2⟩) ++
          sums.credits.entries.map (fun e => ⟨e.1, .deltaAdd, e.2⟩) ++ burns))
      (hburns : OneShotBurns burns)
  | issue (args : IssueArgs) (burns : List Write) (hprog : c.program = .issue args)
      (hissuer : isUserAddress args.issuer = true) (hcap : args.cap ≠ 0)
      (hreads : c.reads =
        [⟨assetCapSlot (deriveAssetAddress c.chainID args.issuer c.seq), .exact, 0⟩])
      (hwrites : c.writes.Perm
        (issueWrites (deriveAssetAddress c.chainID args.issuer c.seq) args ++ burns))
      (hburns : OneShotBurns burns)
  | mint (args : MintArgs) (burns : List Write) (hprog : c.program = .mint args)
      (hasset : args.asset.version = addrVersionAsset) (hdst : isUserAddress args.dst = true)
      (hamount : args.amount ≠ 0) (hcap : args.amount ≤ args.cap)
      (hreads : c.reads.Perm (mintReads args)) (hwrites : c.writes.Perm (mintWrites args ++ burns))
      (hburns : OneShotBurns burns)
  | retire (addrs : List Address) (hprog : c.program = .retire addrs) (hreads : c.reads = [])
      (hburns : OneShotBurns c.writes)

theorem OneShotBurns.perm {ws ws' : List Write} (h : OneShotBurns ws) (hp : ws'.Perm ws) :
    OneShotBurns ws' := fun w hw => h w (hp.mem_iff.mp hw)

theorem OneShotBurns.append {ws ws' : List Write} (h : OneShotBurns ws) (h' : OneShotBurns ws') :
    OneShotBurns (ws ++ ws') := fun w hw => (mem_append.mp hw).elim (h w) (h' w)

theorem with_deposit_mark_spent_perm (ws : List Write) (deposit : Address) :
    ∃ burns, OneShotBurns burns ∧ (withDepositMarkSpent ws deposit).Perm (ws ++ burns) := by
  have hnone : OneShotBurns [] := fun w hw => by simp at hw
  unfold withDepositMarkSpent
  split_ifs with hv hold
  · exact ⟨[], hnone, by simp⟩
  · exact ⟨[], hnone, by simp⟩
  · refine ⟨[markSpentWrite deposit], fun w hw => ?_, perm_insertionSort _ _⟩
    exact ⟨deposit, not_not.mp hv, mem_singleton.mp hw⟩

omit [Crypto] in
theorem check_retire_one_shot {last : Option Address} {addrs : List Address}
    (h : checkRetire last addrs = .ok ()) : ∀ a ∈ addrs, a.version = addrVersionOneShot := by
  induction addrs generalizing last with
  | nil => simp
  | cons a rest ih =>
    simp only [checkRetire, seq_eq_ok, reject_if_eq_ok, not_not] at h
    exact forall_mem_cons.mpr ⟨h.1, ih h.2.2⟩

theorem derive_transfer_eq_ok {rs : List Read} {ws : List Write}
    (h : deriveTransfer moves = .ok (rs, ws)) :
    ∃ sums, sumMoves moves = .ok sums ∧
      (∀ e ∈ sums.debits.entries, sums.credits.contains e.1 = false) ∧
      rs.Perm (transferReads sums) ∧ ws.Perm (transferWrites sums) := by
  simp only [deriveTransfer, seq_eq_ok, reject_if_eq_ok, bind_eq_ok (x := sumMoves moves)] at h
  obtain ⟨-, sums, hsums, hdisj, heq⟩ := h
  obtain ⟨rfl, rfl⟩ := mk.inj (ok.inj heq)
  exact ⟨sums, hsums, by simpa using hdisj, perm_insertionSort _ _, perm_insertionSort _ _⟩

variable {c : Certificate}

/-- What a program derives has a certificate's shape. -/
theorem shape_of_derive
    (h : deriveCert c.program c.chainID c.seq c.deposit.cell.addr = .ok (c.reads, c.writes)) :
    CertShape c := by
  obtain ⟨⟨rs, ws⟩, hderive, heq⟩ := bind_eq_ok.mp h
  obtain ⟨hreads, hwrites⟩ := mk.inj (ok.inj heq)
  obtain ⟨burns, hburns, hperm⟩ := with_deposit_mark_spent_perm ws c.deposit.cell.addr
  rw [hwrites] at hperm
  obtain rfl : rs = c.reads := hreads
  unfold derive at hderive
  split at hderive
  · rename_i moves hprog
    obtain ⟨sums, hsums, hdisj, hr, hw⟩ := derive_transfer_eq_ok hderive
    have hspent : OneShotBurns (sums.oneShotDebited.entries.map fun e => markSpentWrite e.1) := by
      intro w hw
      obtain ⟨e, he, rfl⟩ := mem_map.mp hw
      exact ⟨e.1, (wf_of_sum_moves hsums).burns e he, rfl⟩
    refine .transfer moves sums _ hprog hsums hdisj hr ?_ (hspent.append hburns)
    rw [← append_assoc]
    exact hperm.trans (hw.append_right burns)
  · rename_i args hprog
    simp only [deriveIssue, seq_eq_ok, reject_if_eq_ok] at hderive
    obtain ⟨hissuer, hcap, heq⟩ := hderive
    obtain ⟨hr, hw⟩ := mk.inj (ok.inj heq)
    refine .issue args burns hprog (by simpa using hissuer) (fun h0 => hcap (by rw [h0]; rfl))
      hr.symm ?_ hburns
    subst hw
    exact hperm.trans ((perm_insertionSort _ _).append_right burns)
  · rename_i args hprog
    simp only [deriveMint, seq_eq_ok, reject_if_eq_ok] at hderive
    obtain ⟨hasset, hdst, hamount, -, hcap, heq⟩ := hderive
    obtain ⟨hr, hw⟩ := mk.inj (ok.inj heq)
    refine .mint args burns hprog (not_not.mp hasset) (by simpa using hdst)
      (fun h0 => hamount (by rw [h0]; rfl)) (not_lt.mp hcap) (hr ▸ perm_insertionSort _ _) ?_
      hburns
    subst hw
    exact hperm.trans ((perm_insertionSort _ _).append_right burns)
  · rename_i addrs hprog
    simp only [deriveRetire, seq_eq_ok, reject_if_eq_ok] at hderive
    obtain ⟨-, hcheck, heq⟩ := hderive
    obtain ⟨hr, hw⟩ := mk.inj (ok.inj heq)
    refine .retire addrs hprog hr.symm (OneShotBurns.perm ?_ hperm)
    refine OneShotBurns.append (fun w hmem => ?_) hburns
    rw [← hw, sortWrites, (perm_insertionSort _ _).mem_iff, mem_map] at hmem
    obtain ⟨a, ha, rfl⟩ := hmem
    exact ⟨a, check_retire_one_shot hcheck a ha, rfl⟩

/-- A valid certificate has the shape of its program. -/
theorem ValidCert.shape (h : ValidCert c p) : CertShape c := shape_of_derive h.derived

/-! ## Debits and credits balance -/

/-- What a certificate mints of an asset. -/
def mintedOn (c : Certificate) (asset : Address) : ℕ :=
  match c.program with
  | .mint args => if args.asset = asset then args.amount.toNat else 0
  | _ => 0

theorem OneShotBurns.op_eq {ws : List Write} (h : OneShotBurns ws) (hw : w ∈ ws) :
    w.op = .markSpent := by
  obtain ⟨a, -, rfl⟩ := h w hw
  rfl

theorem OneShotBurns.mem_of_op_ne {all ws burns : List Write} (h : OneShotBurns burns)
    (hperm : all.Perm (ws ++ burns)) (hw : w ∈ all) (hop : w.op ≠ .markSpent) : w ∈ ws := by
  rw [hperm.mem_iff, mem_append] at hw
  exact hw.resolve_right fun hw => hop (h.op_eq hw)

/-- What the program of a certificate can make it write. -/
inductive Written (c : Certificate) (w : Write) : Prop where
  | burned (a : Address) (hversion : a.version = addrVersionOneShot) (heq : w = markSpentWrite a)
  | balance {holder asset : Address} (huser : isUserAddress holder = true) (ha : IsAssetID asset)
      (hslot : w.slot = balanceSlot holder asset) (hop : w.op = .deltaSub ∨ w.op = .deltaAdd)
  | issued (args : IssueArgs) (l : WordLabel) (hprog : c.program = .issue args) (hl : l.Proper)
      (hbalance : ∀ b, l ≠ .balance b) (hminted : l ≠ .assetMinted)
      (hslot : w.slot = ⟨deriveAssetAddress c.chainID args.issuer c.seq, storageWord l⟩)
      (hop : w.op = .set)
  | minted (args : MintArgs) (hprog : c.program = .mint args)
      (hslot : w.slot = assetMintedSlot args.asset) (hop : w.op = .deltaAdd)

/-- What a write of a shaped certificate can be. -/
theorem CertShape.written (h : CertShape c) (hw : w ∈ c.writes) : Written c w := by
  have hburn : ∀ {burns : List Write}, OneShotBurns burns → w ∈ burns → Written c w := by
    intro burns hburns hw
    obtain ⟨a, hversion, heq⟩ := hburns w hw
    exact .burned a hversion heq
  cases h with
  | transfer moves sums burns _ hsums _ _ hwrites hburns =>
    rw [hwrites.mem_iff, mem_append, mem_append, mem_map, mem_map] at hw
    rcases hw with (⟨e, he, rfl⟩ | ⟨e, he, rfl⟩) | hw
    · obtain ⟨holder, asset, huser, ha, hslot⟩ := (wf_of_sum_moves hsums).debits e he
      exact .balance huser ha hslot (.inl rfl)
    · obtain ⟨holder, asset, huser, ha, hslot⟩ := (wf_of_sum_moves hsums).credits e he
      exact .balance huser ha hslot (.inr rfl)
    · exact hburn hburns hw
  | issue args burns hprog _ _ _ hwrites hburns =>
    simp only [hwrites.mem_iff, issueWrites, mem_append, mem_cons, not_mem_nil, or_false] at hw
    rcases hw with (rfl | rfl | rfl | rfl) | hw
    · exact .issued args .assetCap hprog trivial (by simp) (by simp) rfl rfl
    · exact .issued args .assetDecimals hprog trivial (by simp) (by simp) rfl rfl
    · exact .issued args .assetSymbol hprog trivial (by simp) (by simp) rfl rfl
    · exact .issued args .assetMinter hprog trivial (by simp) (by simp) rfl rfl
    · exact hburn hburns hw
  | mint args burns hprog hasset hdst _ _ _ hwrites hburns =>
    simp only [hwrites.mem_iff, mintWrites, mem_append, mem_cons, not_mem_nil, or_false] at hw
    rcases hw with (rfl | rfl) | hw
    · exact .minted args hprog rfl rfl
    · exact .balance hdst (.inr hasset) rfl (.inr rfl)
    · exact hburn hburns hw
  | retire addrs _ _ hburns => exact hburn hburns hw

theorem CertShape.burn_eq (h : CertShape c) (hw : w ∈ c.writes) (hop : w.op = .markSpent) :
    ∃ a, a.version = addrVersionOneShot ∧ w = markSpentWrite a := by
  cases h.written hw with
  | burned a hversion heq => exact ⟨a, hversion, heq⟩
  | balance _ _ _ hop' => simp [hop] at hop'
  | issued _ _ _ _ _ _ _ hop' | minted _ _ _ hop' => simp [hop] at hop'

theorem OneShotBurns.word_total {ws : List Write} (h : OneShotBurns ws) {op : Op} {ω : Word}
    (hop : op ≠ .markSpent) : wordTotal op ω ws = 0 :=
  word_total_eq_zero fun _ hw heq => hop (heq ▸ h.op_eq hw)

theorem CertShape.set_slot (h : CertShape c) (hw : w ∈ c.writes) (hop : w.op = .set) :
    ∃ args l, c.program = .issue args ∧ WordLabel.Proper l ∧ (∀ b, l ≠ .balance b) ∧
      l ≠ .assetMinted ∧
      w.slot = ⟨deriveAssetAddress c.chainID args.issuer c.seq, storageWord l⟩ := by
  cases h.written hw with
  | burned a _ heq => simp [heq, markSpentWrite] at hop
  | balance _ _ _ hop' => simp [hop] at hop'
  | issued args l hprog hl hbalance hminted hslot _ =>
    exact ⟨args, l, hprog, hl, hbalance, hminted, hslot⟩
  | minted _ _ _ hop' => simp [hop] at hop'

theorem CertShape.set_not_balance (hwd : WordsDistinct) (h : CertShape c) (ha : IsAssetID asset) :
    ∀ w ∈ c.writes, w.op = .set → w.slot.word ≠ balanceWord asset := by
  intro w hw hop
  obtain ⟨args, l, -, hl, hbalance, -, hslot⟩ := h.set_slot hw hop
  rw [hslot]
  exact (hwd.balance_word_ne ha hl hbalance).symm

/-- A certificate credits an asset what it debits and mints. -/
theorem CertShape.word_total_balance (hwd : WordsDistinct) (h : CertShape c)
    (ha : IsAssetID asset) :
    wordTotal .deltaAdd (balanceWord asset) c.writes =
      wordTotal .deltaSub (balanceWord asset) c.writes + mintedOn c asset := by
  have hburnt : ∀ {ws : List Write}, OneShotBurns ws → ∀ {op : Op}, op ≠ .markSpent →
      wordTotal op (balanceWord asset) ws = 0 := fun hb _ hop => hb.word_total hop
  cases h with
  | transfer moves sums burns hprog hsums _ _ hwrites hburns =>
    simp only [word_total_perm hwrites, word_total_append, word_total_entries,
      word_total_entries_of_ne (show Op.deltaSub ≠ Op.deltaAdd by decide),
      word_total_entries_of_ne (show Op.deltaAdd ≠ Op.deltaSub by decide),
      hburnt hburns (show Op.deltaAdd ≠ Op.markSpent by decide),
      hburnt hburns (show Op.deltaSub ≠ Op.markSpent by decide),
      mintedOn, hprog, (wf_of_sum_moves hsums).balanced]
    omega
  | issue args burns hprog _ _ _ hwrites hburns =>
    simp [word_total_perm hwrites, hburnt hburns, issueWrites, mintedOn, hprog]
  | mint args burns hprog hasset _ _ _ _ hwrites hburns =>
    have hminted : storageWord .assetMinted ≠ balanceWord asset :=
      Ne.symm (hwd.balance_word_ne ha trivial (by simp))
    have hbal : balanceWord args.asset = balanceWord asset ↔ args.asset = asset :=
      hwd.balance_word_eq_iff (Or.inr hasset) ha
    simp [word_total_perm hwrites, hburnt hburns, mintWrites, mintedOn, hprog, onWord,
      assetMintedSlot, balanceSlot, hminted, hbal]
  | retire addrs hprog _ hburns => simp [hburnt hburns, mintedOn, hprog]

theorem CertShape.minted_on_native (h : CertShape c) : mintedOn c nativeAsset = 0 := by
  cases h with
  | mint args burns hprog hasset =>
    have hne : args.asset ≠ nativeAsset := fun heq => by
      rw [heq] at hasset
      exact absurd hasset (by decide)
    simp [mintedOn, hprog, hne]
  | transfer _ _ _ hprog | issue _ _ hprog | retire _ hprog => simp [mintedOn, hprog]

end

end Zycord.Validity
