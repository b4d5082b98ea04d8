import Zycord.Fold.Conservation
import Zycord.Fold.Undo

/-!
# The supply of an asset

For every asset, the balances add up to its minted counter, and the counter stays within the cap.
What a certificate can do to the cells under an asset address is one of three things
(`AssetStep`): nothing, the issue that finds the cap unset, or a mint that finds room under it.
`asset_supply_invariant` carries this over blocks and reorganisations.
-/

namespace Zycord.Fold

open Crypto Journal Nat Option U256 Validity

/-- A change of the cells under an asset address that mints `n` units. -/
inductive AssetStep [Crypto] (asset : Address) (s s' : State) : ℕ → Prop where
  | kept (h : ∀ word, s'.get ⟨asset, word⟩ = s.get ⟨asset, word⟩) : AssetStep asset s s' 0
  | issued (hcap : s.get (assetCapSlot asset) = 0)
      (hminted : s'.get (assetMintedSlot asset) = s.get (assetMintedSlot asset)) :
      AssetStep asset s s' 0
  | minted {n : ℕ}
      (hkept : ∀ word, word ≠ storageWord .assetMinted → s'.get ⟨asset, word⟩ = s.get ⟨asset, word⟩)
      (hadd : (s'.get (assetMintedSlot asset)).toNat = (s.get (assetMintedSlot asset)).toNat + n)
      (hle : (s.get (assetMintedSlot asset)).toNat + n ≤ (s.get (assetCapSlot asset)).toNat) :
      AssetStep asset s s' n

section

variable [Crypto] {c : Certificate} {id : Hash} {p : Params} {fs fp : U256} {j j' : Journal}
  {burned burned' tip : U256} {out : CertOutcome} {asset : Address}

/-! ## One certificate -/

variable {a : Address}

theorem spent_here_one_shot (hc : ValidCert c p) (ha : a ∈ spentHere c) :
    a.version = addrVersionOneShot := by
  obtain ⟨w, hw, hop, rfl⟩ := mem_spent_here.mp ha
  obtain ⟨a, hversion, rfl⟩ := hc.shape.burn_eq hw hop
  exact hversion

omit [Crypto] in
theorem ne_of_user_of_asset (hu : isUserAddress a = true) (ha : asset.version = addrVersionAsset) :
    a ≠ asset := by
  rintro rfl
  rw [not_user_of_version_asset ha] at hu
  exact Bool.false_ne_true hu

omit [Crypto] in
/-- The sweep changes cells under burned addresses and under the refund address only. -/
theorem Moves.get_eq {slot : Slot} (h : Moves c j j') (hs : slot.addr ∉ spentHere c)
    (hr : slot.addr ≠ c.deposit.refundTo.addr) : j'.s.get slot = j.s.get slot := by
  induction h with
  | refl => rfl
  | @move j₁ src _ hsrc ih =>
    rcases move_residual_cases j₁ src c.deposit.refundTo.addr with heq | ⟨sum, -, heq⟩
    · rwa [heq]
    · have hne : src ≠ slot := fun h => hs (h ▸ hsrc)
      have hdst : (⟨c.deposit.refundTo.addr, src.word⟩ : Slot) ≠ slot := fun h => hr (h ▸ rfl)
      rwa [heq, s_set, s_set, State.get_set_of_ne _ _ hdst, State.get_set_of_ne _ _ hne]

theorem get_reserve_asset (hc : ValidCert c p) (ha : asset.version = addrVersionAsset)
    (word : Word) : (reserve c j).s.get ⟨asset, word⟩ = j.s.get ⟨asset, word⟩ :=
  get_reserve_of_ne fun h => ne_of_user_of_asset hc.deposit_user ha (congrArg Slot.addr h)

/-- An asset's record moves only when a certificate that writes it is applied. -/
theorem CertStep.get_asset (hc : ValidCert c p) (ha : asset.version = Crypto.addrVersionAsset)
    (h : CertStep c id p fs fp j burned out tip j' burned') :
    (out.outcome ≠ .applied ∧ ∀ word, j'.s.get ⟨asset, word⟩ = j.s.get ⟨asset, word⟩) ∨
      out.outcome = .applied ∧ readsHold (reserve c j).s c = true ∧
        (∀ w ∈ c.writes, InRange (reserve c j).s w) ∧
        ∀ word, j'.s.get ⟨asset, word⟩ = (writeStaged c (reserve c j)).s.get ⟨asset, word⟩ := by
  have hrefund : asset ≠ c.deposit.refundTo.addr := (ne_of_user_of_asset hc.refund_user ha).symm
  cases h with
  | dropped => exact Or.inl ⟨by simp [CertOutcome.drop], fun _ => rfl⟩
  | @billed outcome fees sweep refund refunded refundBurned burned' j' hf hp hr hpay hb =>
    have hpaid : ∀ word,
        (j'.markSeen id c.ttl).s.get ⟨asset, word⟩ = sweep.j.s.get ⟨asset, word⟩ := by
      intro word
      refine ext ?_
      have hne : (⟨asset, word⟩ : Slot) ≠ c.deposit.refundTo := fun h =>
        hrefund (congrArg Slot.addr h)
      rw [get_mark_seen, hpay.get_eq, if_neg hne, add_zero]
    cases hp with
    | stale => exact Or.inl ⟨by simp, fun word => (hpaid word).trans (get_reserve_asset hc ha word)⟩
    | unstaged reason _ hstage =>
      exact Or.inl ⟨stage_error_ne_applied hstage,
        fun word => (hpaid word).trans (get_reserve_asset hc ha word)⟩
    | applied fees hreads hw _ =>
      refine Or.inr ⟨rfl, hreads, fun w hwm => (hw w hwm).2, fun word => (hpaid word).trans ?_⟩
      refine (sweep_burned_moves c _).get_eq (fun hmem => ?_) hrefund
      have hshot := spent_here_one_shot hc hmem
      rw [ha] at hshot
      exact absurd hshot (by decide)

omit [Crypto] in
theorem read_holds_of_mem {s : State} (h : readsHold s c = true) {r : Read} (hr : r ∈ c.reads) :
    readHolds s r = true := List.all_eq_true.mp h r hr

/-- What a mint's reads say of the record it mints against. -/
theorem mint_reads_hold {s : State} {args : MintArgs} (hr : c.reads.Perm (mintReads args))
    (hcap : args.amount ≤ args.cap) (h : readsHold s c = true) :
    s.get (assetCapSlot args.asset) = args.cap ∧
      s.get (assetMinterSlot args.asset) = .fromBytes args.minter ∧
      (s.get (assetMintedSlot args.asset)).toNat + args.amount.toNat ≤ args.cap.toNat := by
  have hcapRead := read_holds_of_mem h (r := ⟨assetCapSlot args.asset, .exact, args.cap⟩)
    (hr.mem_iff.mpr (by simp [mintReads]))
  have hminterRead := read_holds_of_mem h
    (r := ⟨assetMinterSlot args.asset, .exact, .fromBytes args.minter⟩)
    (hr.mem_iff.mpr (by simp [mintReads]))
  have hmintedRead := read_holds_of_mem h
    (r := ⟨assetMintedSlot args.asset, .guardLE, (args.cap.sub args.amount).1⟩)
    (hr.mem_iff.mpr (by simp [mintReads]))
  simp only [readHolds, Bool.and_eq_true, decide_eq_true_eq, Bool.not_eq_true',
    decide_eq_false_iff_not, not_lt, gt_iff_lt] at hcapRead hminterRead hmintedRead
  have hle := le_def.mp hmintedRead.2
  have hcap' := le_def.mp hcap
  rw [to_nat_sub hcap'] at hle
  exact ⟨hcapRead.2, hminterRead.2, by omega⟩

/-- A cell of an asset is written by its issue, apart from the minted total, or by a mint of it. -/
theorem written_asset (hc : ValidCert c p) (ha : asset.version = addrVersionAsset) {w : Write}
    {word : Word} (hw : w ∈ c.writes) (hop : w.op ≠ .markSpent) (heq : w.slot = ⟨asset, word⟩) :
    (∃ args l, c.program = .issue args ∧ deriveAssetAddress c.chainID args.issuer c.seq = asset ∧
      WordLabel.Proper l ∧ l ≠ .assetMinted ∧ storageWord l = word) ∨
      ∃ args, c.program = .mint args ∧ args.asset = asset ∧ storageWord .assetMinted = word := by
  cases hc.shape.written hw with
  | burned a _ hburn => simp [hburn, markSpentWrite] at hop
  | balance huser _ hslot _ =>
    exact absurd (congrArg Slot.addr (hslot.symm.trans heq)) (ne_of_user_of_asset huser ha)
  | issued args l hprog hl _ hminted hslot _ =>
    obtain ⟨haddr, hword⟩ := Slot.mk.inj (hslot.symm.trans heq)
    exact .inl ⟨args, l, hprog, haddr, hl, hminted, hword⟩
  | minted args hprog hslot _ =>
    obtain ⟨haddr, hword⟩ := Slot.mk.inj (hslot.symm.trans heq)
    exact .inr ⟨args, hprog, haddr, hword⟩

section Applied

variable (hwd : WordsDistinct) (hc : ValidCert c p) (ha : asset.version = addrVersionAsset)
  (hreads : readsHold (reserve c j).s c = true) (hin : ∀ w ∈ c.writes, InRange (reserve c j).s w)
  (hget : ∀ word, j'.s.get ⟨asset, word⟩ = (writeStaged c (reserve c j)).s.get ⟨asset, word⟩)

include hc ha hget

theorem get_asset_unwritten {word : Word}
    (hw : ∀ w ∈ c.writes, w.op ≠ .markSpent → w.slot ≠ ⟨asset, word⟩) :
    j'.s.get ⟨asset, word⟩ = j.s.get ⟨asset, word⟩ := by
  rw [hget, get_write_staged_of_not_mem hw, get_reserve_asset hc ha]

include hwd hreads

/-- Issuing sets up one fresh asset and mints nothing. -/
theorem asset_step_issue {args : IssueArgs} (hprog : c.program = .issue args)
    (hr : c.reads = [⟨assetCapSlot (deriveAssetAddress c.chainID args.issuer c.seq), .exact, 0⟩]) :
    AssetStep asset j.s j'.s 0 := by
  by_cases hA : deriveAssetAddress c.chainID args.issuer c.seq = asset
  · refine .issued ?_ (get_asset_unwritten hc ha hget fun w hw hop heq => ?_)
    · have hread := read_holds_of_mem hreads (r := ⟨assetCapSlot asset, .exact, 0⟩)
        (by simp [hr, hA])
      simp only [readHolds, Bool.and_eq_true, decide_eq_true_eq] at hread
      exact (get_reserve_asset hc ha _).symm.trans hread.2
    · rcases written_asset hc ha hw hop heq with ⟨_, l, -, -, hl, hne, hword⟩ | ⟨_, hmint, -⟩
      · exact hwd.ne (m := .assetMinted) hl trivial hne hword
      · simp [hprog] at hmint
  · refine .kept fun word => get_asset_unwritten hc ha hget fun w hw hop heq => ?_
    rcases written_asset hc ha hw hop heq with ⟨_, _, hissue, haddr, -⟩ | ⟨_, hmint, -⟩
    · cases hprog.symm.trans hissue
      exact hA haddr
    · simp [hprog] at hmint

omit hwd
include hin

/-- Minting raises the minted word of its asset by the amount. -/
theorem asset_step_mint {args : MintArgs} (hprog : c.program = .mint args)
    (hcap : args.amount ≤ args.cap) (hr : c.reads.Perm (mintReads args)) {burns : List Write}
    (hwrites : c.writes.Perm (mintWrites args ++ burns)) :
    AssetStep asset j.s j'.s (if args.asset = asset then args.amount.toNat else 0) := by
  split_ifs with hA
  · subst hA
    obtain ⟨hcapEq, -, hroom⟩ := mint_reads_hold hr hcap hreads
    rw [assetCapSlot, get_reserve_asset hc ha] at hcapEq
    rw [assetMintedSlot, get_reserve_asset hc ha] at hroom
    have hw : (⟨assetMintedSlot args.asset, .deltaAdd, args.amount⟩ : Write) ∈ c.writes :=
      hwrites.mem_iff.mpr (by simp [mintWrites])
    refine .minted (fun word hword => get_asset_unwritten hc ha hget fun w hw hop heq => ?_) ?_ ?_
    · rcases written_asset hc ha hw hop heq with ⟨_, _, hissue, -⟩ | ⟨_, -, -, heq⟩
      · simp [hprog] at hissue
      · exact hword heq.symm
    · have hstaged := get_write_staged_of_mem (j := reserve c j) hc.writes_sorted hw (by simp)
      have hrange := hin _ hw
      have hnew : j'.s.get (assetMintedSlot args.asset) =
          (((reserve c j).s.get (assetMintedSlot args.asset)).add args.amount).1 :=
        (hget _).trans hstaged
      rw [hnew, U256.to_nat_add hrange, assetMintedSlot, get_reserve_asset hc ha]
    · rw [assetCapSlot, hcapEq]
      exact hroom
  · refine .kept fun word => get_asset_unwritten hc ha hget fun w hw hop heq => ?_
    rcases written_asset hc ha hw hop heq with ⟨_, _, hissue, -⟩ | ⟨_, hmint, haddr, -⟩
    · simp [hprog] at hissue
    · cases hprog.symm.trans hmint
      exact hA haddr

end Applied

/-- One certificate moves an asset's record by what it mints. -/
theorem CertStep.asset_step (hwd : WordsDistinct) (hc : ValidCert c p)
    (ha : asset.version = addrVersionAsset)
    (h : CertStep c id p fs fp j burned out tip j' burned') :
    AssetStep asset j.s j'.s (mintedBy c out.outcome asset) := by
  rcases h.get_asset hc ha with ⟨hne, hkept⟩ | ⟨happ, hreads, hin, hget⟩
  · rw [mintedBy, if_neg hne]
    exact .kept hkept
  rw [mintedBy, if_pos happ]
  cases hc.shape with
  | transfer _ _ _ hprog | retire _ hprog =>
    rw [mintedOn, hprog]
    refine .kept fun word => get_asset_unwritten hc ha hget fun w hw hop heq => ?_
    rcases written_asset hc ha hw hop heq with ⟨_, _, hprog', -⟩ | ⟨_, hprog', -⟩ <;>
      simp [hprog] at hprog'
  | issue args burns hprog _ _ hr =>
    rw [mintedOn, hprog]
    exact asset_step_issue hwd hc ha hreads hget hprog hr
  | mint args burns hprog _ _ _ hcap hr hwrites =>
    rw [mintedOn, hprog]
    exact asset_step_mint hc ha hreads hin hget hprog hcap hr hwrites

/-! ## Blocks -/

/-- The supply of an asset is what was minted, and within the cap. -/
def SupplyOK (asset : Address) (s : State) : Prop :=
  wordSum (balanceWord asset) s = (s.get (assetMintedSlot asset)).toNat ∧
    (s.get (assetMintedSlot asset)).toNat ≤ (s.get (assetCapSlot asset)).toNat

/-- The cells of an asset that its issue writes are the same in two states. -/
def SameMetadata (asset : Address) (s s' : State) : Prop :=
  s'.get (assetCapSlot asset) = s.get (assetCapSlot asset) ∧
    s'.get (assetDecimalsSlot asset) = s.get (assetDecimalsSlot asset) ∧
    s'.get (assetSymbolSlot asset) = s.get (assetSymbolSlot asset) ∧
    s'.get (assetMinterSlot asset) = s.get (assetMinterSlot asset)

theorem SameMetadata.refl (asset : Address) (s : State) : SameMetadata asset s s :=
  ⟨rfl, rfl, rfl, rfl⟩

variable {s s' s'' : State} {b : Block} {n : ℕ}

theorem SameMetadata.trans (h : SameMetadata asset s s') (h' : SameMetadata asset s' s'') :
    SameMetadata asset s s'' :=
  ⟨h'.1.trans h.1, h'.2.1.trans h.2.1, h'.2.2.1.trans h.2.2.1, h'.2.2.2.trans h.2.2.2⟩

theorem SameMetadata.of_get
    (h : ∀ l : WordLabel, l.Plain → s'.get ⟨asset, storageWord l⟩ = s.get ⟨asset, storageWord l⟩) :
    SameMetadata asset s s' :=
  ⟨h .assetCap trivial, h .assetDecimals trivial, h .assetSymbol trivial, h .assetMinter trivial⟩

/-- A step that mints within the cap keeps the supply accounted. -/
theorem SupplyOK.step (hwd : WordsDistinct) (h : SupplyOK asset s) (hstep : AssetStep asset s s' n)
    (hsum : wordSum (balanceWord asset) s' = wordSum (balanceWord asset) s + n) :
    SupplyOK asset s' := by
  obtain ⟨htotal, hcap⟩ := h
  cases hstep with
  | kept hkept =>
    rw [SupplyOK, assetMintedSlot, assetCapSlot, hkept, hkept, hsum]
    exact ⟨htotal, hcap⟩
  | issued hunset hminted =>
    rw [hunset, to_nat_zero, le_zero] at hcap
    rw [SupplyOK, hminted, hcap]
    exact ⟨by omega, zero_le _⟩
  | minted hkept hadd hle =>
    have hword : storageWord .assetCap ≠ storageWord .assetMinted :=
      hwd.ne (l := .assetCap) (m := .assetMinted) trivial trivial (by simp)
    refine ⟨by omega, ?_⟩
    rw [hadd, assetCapSlot, hkept _ hword]
    exact hle

/-- A step keeps the metadata of an issued asset. -/
theorem AssetStep.metadata (hwd : WordsDistinct) (h : AssetStep asset s s' n)
    (hcap : s.get (assetCapSlot asset) ≠ 0) : SameMetadata asset s s' := by
  cases h with
  | kept hkept => exact .of_get fun l _ => hkept _
  | issued hunset _ => exact absurd hunset hcap
  | minted hkept _ _ =>
    have hne : ∀ {l : WordLabel}, l.Proper → l ≠ .assetMinted →
        storageWord l ≠ storageWord .assetMinted := fun hl hne => hwd.ne hl trivial hne
    exact ⟨hkept _ (hne (l := .assetCap) trivial (by simp)),
      hkept _ (hne (l := .assetDecimals) trivial (by simp)),
      hkept _ (hne (l := .assetSymbol) trivial (by simp)),
      hkept _ (hne (l := .assetMinter) trivial (by simp))⟩

omit [Crypto] in
theorem ne_protocol_of_asset (ha : asset.version = addrVersionAsset) : asset ≠ protocolAddress := by
  rintro rfl
  exact absurd ha (by decide)

theorem get_asset_opened (ha : asset.version = addrVersionAsset) (h : Header) (s : State)
    (word : Word) : (opened h p s).s.get ⟨asset, word⟩ = s.get ⟨asset, word⟩ :=
  (opened_writes h p s).get_eq (ne_protocol_of_asset ha)

theorem supply_ok_opened (hwd : WordsDistinct) (ha : asset.version = addrVersionAsset)
    (h : Header) (hs : SupplyOK asset s) : SupplyOK asset (opened h p s).s := by
  rw [SupplyOK, word_sum_opened hwd (Or.inr ha), assetMintedSlot, assetCapSlot,
    get_asset_opened ha, get_asset_opened ha]
  exact hs

namespace BlockTrace

section

variable (tr : BlockTrace s b p) (hwd : WordsDistinct) (ha : asset.version = addrVersionAsset)

include tr hwd ha

theorem get_asset_closed {l : WordLabel} (hl : l.Plain) :
    tr.closed.s.get ⟨asset, storageWord l⟩ = tr.σ₁.j.s.get ⟨asset, storageWord l⟩ := by
  have hne : (⟨asset, storageWord l⟩ : Slot) ≠ maturedCell b.header p tr.σ₂.j.s := fun heq =>
    plain_ne_balance hwd hl native_is_asset_id (congrArg Slot.word heq)
  refine ext ?_
  rw [tr.get_closed (ne_protocol_of_asset ha), if_neg hne, add_zero]

theorem asset_sum_closed :
    wordSum (balanceWord asset) tr.closed.s = wordSum (balanceWord asset) tr.σ₁.j.s := by
  have hne : balanceWord nativeAsset ≠ balanceWord asset := native_word_ne hwd ha
  rw [tr.word_sum_closed hwd (Or.inr ha), tr.word_sum hwd (Or.inr ha)]
  simp [onWord, treasury_slot_word, matured_cell_word, hne]

theorem supply_ok (h : SupplyOK asset s) : SupplyOK asset tr.closed.s := by
  have hcerts : SupplyOK asset tr.σ₁.j.s := by
    refine tr.certs.invariant (I := fun j => SupplyOK asset j.s)
      (supply_ok_opened hwd ha b.header h) ?_
    intro cy hcy j j' burned burned' tip out hj hstep
    have hc := tr.ok.valid hcy
    exact hj.step hwd (hstep.asset_step hwd hc ha) (hstep.asset_sum hwd hc ha)
  rw [SupplyOK, tr.asset_sum_closed hwd ha, assetMintedSlot, assetCapSlot,
    tr.get_asset_closed hwd ha (l := .assetMinted) trivial,
    tr.get_asset_closed hwd ha (l := .assetCap) trivial]
  exact hcerts

theorem metadata (hcap : s.get (assetCapSlot asset) ≠ 0) : SameMetadata asset s tr.closed.s := by
  have hopened : SameMetadata asset s (opened b.header p s).s := .of_get fun l _ =>
    get_asset_opened ha b.header s _
  have hcerts : SameMetadata asset s tr.σ₁.j.s := by
    refine tr.certs.invariant (I := fun j => SameMetadata asset s j.s) hopened ?_
    intro cy hcy j j' burned burned' tip out hj hstep
    exact hj.trans ((hstep.asset_step hwd (tr.ok.valid hcy) ha).metadata hwd (hj.1 ▸ hcap))
  exact hcerts.trans (.of_get fun l hl => tr.get_asset_closed hwd ha hl)

end

end BlockTrace

/-! ## Runs -/

theorem supply_ok_new (asset : Address) : SupplyOK asset State.new := ⟨rfl, le_refl _⟩

variable {logs : List UndoLog}

/-- No chain of blocks changes the metadata of an issued asset. -/
theorem metadata_apply_blocks (hwd : WordsDistinct) (ha : asset.version = addrVersionAsset)
    {bs : List Block} (hcap : s.get (assetCapSlot asset) ≠ 0)
    (h : applyBlocks p s bs = some (s', logs)) : SameMetadata asset s s' := by
  induction bs generalizing s logs with
  | nil =>
    simp only [applyBlocks, some.injEq, Prod.mk.injEq] at h
    exact h.1 ▸ .refl asset s
  | cons b rest ih =>
    unfold applyBlocks at h
    split at h
    · rename_i r mid happly
      obtain ⟨⟨last, logs'⟩, hrest, heq⟩ := map_eq_some_iff.mp h
      obtain rfl : last = s' := congrArg Prod.fst heq
      obtain ⟨tr, hy⟩ := block_trace happly
      have hfirst : SameMetadata asset s mid := hy.state ▸ tr.metadata hwd ha hcap
      exact hfirst.trans (ih (hfirst.1 ▸ hcap) hrest)
    · simp at h

theorem Reachable.supply_ok (hwd : WordsDistinct) (ha : asset.version = addrVersionAsset)
    (h : Reachable p logs s) : SupplyOK asset s := by
  refine h.invariant (I := SupplyOK asset) (supply_ok_new asset) fun hs happly => ?_
  obtain ⟨tr, hy⟩ := block_trace happly
  exact hy.state ▸ tr.supply_ok hwd ha hs

theorem Run.reachable {log : ChainLog} (h : Run p log s) :
    Reachable p (log.map fun e => e.2.undo) s := by
  induction h with
  | genesis => exact .genesis
  | apply _ _ happly ih => exact ih.apply happly

/-- In every state that applying and undoing blocks leads to, the balances of every asset add up
to its minted counter and the counter is within the cap; and on the way forward from there the
metadata of an issued asset never changes. -/
theorem asset_supply_invariant (hwd : WordsDistinct) {asset : Address}
    (ha : asset.version = Crypto.addrVersionAsset) {logs : List UndoLog}
    (h : Reachable p logs s) :
    (wordSum (balanceWord asset) s = (s.get (assetMintedSlot asset)).toNat ∧
      (s.get (assetMintedSlot asset)).toNat ≤ (s.get (assetCapSlot asset)).toNat) ∧
    ∀ bs s' logs', applyBlocks p s bs = some (s', logs') → s.get (assetCapSlot asset) ≠ 0 →
      s'.get (assetCapSlot asset) = s.get (assetCapSlot asset) ∧
      s'.get (assetDecimalsSlot asset) = s.get (assetDecimalsSlot asset) ∧
      s'.get (assetSymbolSlot asset) = s.get (assetSymbolSlot asset) ∧
      s'.get (assetMinterSlot asset) = s.get (assetMinterSlot asset) :=
  ⟨h.supply_ok hwd ha, fun _ _ _ happly hcap => metadata_apply_blocks hwd ha hcap happly⟩

end

section

open Reference

attribute [local instance] Reference.crypto

namespace Sample

/-- An asset of the first user. -/
def gold : Address := deriveAssetAddress params.chainID (user 1) 1

/-- Its issue. -/
def issuance : Certificate :=
  certificate (.issue ⟨user 1, .ofNat 100, 0, key 1, 2⟩) 1 (user 1) 5000 [key 1]

/-- A minting of it. -/
def minting : Certificate :=
  certificate (.mint ⟨gold, user 2, .ofNat 30, .ofNat 100, key 1⟩) 2 (user 1) 5000 [key 1]

theorem minting_applies :
    ∃ log s, Run params log s ∧ (s.get (assetMintedSlot gold)).toNat = 30 ∧
      (s.get (assetCapSlot gold)).toNat = 100 := by
  have hproduce : ∃ x, produce params
      ((header 4 (user 1), [minting]) :: (header 3 (user 1), [issuance]) :: funding) = some x ∧
      (x.2.get (assetMintedSlot gold)).toNat = 30 ∧ (x.2.get (assetCapSlot gold)).toNat = 100 := by
    decide +kernel
  obtain ⟨⟨log, s⟩, hx, hminted, hcap⟩ := hproduce
  exact ⟨log, s, run_of_produce hx, hminted, hcap⟩

end Sample

open Sample

/-- The minted units of the executed chain are all held by someone. -/
theorem sample_asset_supply_invariant :
    ∃ logs s, Reachable params logs s ∧ wordSum (balanceWord gold) s = 30 ∧
      ∀ bs s' logs', applyBlocks params s bs = some (s', logs') →
        s'.get (assetCapSlot gold) = s.get (assetCapSlot gold) := by
  obtain ⟨log, s, hrun, hminted, hcap⟩ := minting_applies
  obtain ⟨⟨hsum, -⟩, hmeta⟩ := asset_supply_invariant Reference.words_distinct
    (show gold.version = addrVersionAsset from version_derive_asset_address _ _ _)
    hrun.reachable
  refine ⟨_, s, hrun.reachable, hsum.trans hminted, fun bs s' logs' happly => ?_⟩
  refine (hmeta bs s' logs' happly fun hzero => ?_).1
  rw [hzero] at hcap
  exact absurd hcap (by decide)

end

end Zycord.Fold
