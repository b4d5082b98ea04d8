import Zycord.Fold.Authority
import Zycord.Fold.Overflow

/-!
# Poisoning immunity

What a certificate depends on is out of a stranger's reach. `Meanwhile` is what can happen to the
state while a certificate waits: certificates of others are executed, and the fold takes its own
steps around them. Along it everything the waiting certificate reads is kept (`Kept`): its owners'
cells only grow, its addresses are not burned, and the cells of the asset it issues or mints stay.
In a state whose native balances fit, that is enough for it to apply: `poisoning_immunity`.
-/

namespace Zycord.Fold

open Crypto Journal List Mut Nat State U256 Validity

section

variable [Crypto] {c d : Certificate} {id : Hash} {p : Params} {fs fp : U256} {j j' : Journal}
  {burned burned' tip : U256} {out : CertOutcome} {asset : Address} {s s' s'' : State}
  {σ σ' : FoldState}

/-! ## The steps around the certificates -/

/-- The steps the fold takes around the certificates of a block. -/
inductive FoldStep (p : Params) : FoldState → FoldState → Prop where
  | opens (h : Header) (σ : FoldState) : FoldStep p σ { σ with j := openBlock h p σ.j }
  | records (h : Header) (cites : List Header) (gas : UInt64) (σ : FoldState) :
      FoldStep p σ { σ with j := recordBlock h cites p gas σ.j }
  | prunes (h : Header) (σ : FoldState) : FoldStep p σ { σ with j := pruneExpired h σ.j }
  | rewards {h : Header} {t : UInt64} {tips : U256} {σ σ' : FoldState}
      (hpay : payReward h p t tips σ = (.ok (), σ')) : FoldStep p σ σ'
  | rolls {h : Header} {matured : U256} {σ σ' : FoldState}
      (hroll : rollCoinbaseRing h p σ = (.ok matured, σ')) : FoldStep p σ σ'
  | prices (h : Header) (t : UInt64) (seqBaseFee parBaseFee : U256) (σ : FoldState) :
      FoldStep p σ { σ with j := updateBaseFees h p t seqBaseFee parBaseFee σ.res σ.j }

/-- What such steps can do outside the protocol's own cells: credit native balances. -/
structure Credits (s s' : State) : Prop where
  grows : ∀ slot, isUserAddress slot.addr = true → (s.get slot).toNat ≤ (s'.get slot).toNat
  spent : ∀ a, s'.isSpent a = s.isSpent a
  assets : ∀ asset, asset.version = Crypto.addrVersionAsset → ∀ l : WordLabel, l.Plain →
    s'.get ⟨asset, storageWord l⟩ = s.get ⟨asset, storageWord l⟩
  sums : ∀ asset, asset.version = Crypto.addrVersionAsset →
    wordSum (balanceWord asset) s' = wordSum (balanceWord asset) s

theorem Credits.trans (h : Credits s s') (h' : Credits s' s'') : Credits s s'' where
  grows slot hu := (h.grows slot hu).trans (h'.grows slot hu)
  spent a := (h'.spent a).trans (h.spent a)
  assets asset ha l hl := (h'.assets asset ha l hl).trans (h.assets asset ha l hl)
  sums asset ha := (h'.sums asset ha).trans (h.sums asset ha)

theorem Credits.of_labels (hwd : WordsDistinct) {labels : List WordLabel}
    (hplain : ∀ m ∈ labels, m.Plain) (h : Writes (labelFootprint labels) j j') :
    Credits j.s j'.s where
  grows _ hu := le_of_eq (congrArg U256.toNat
    ((h.mono (label_within_protocol _)).get_eq (ne_protocol_of_user hu)).symm)
  spent := h.is_spent_eq fun _ hb => hb
  assets _ ha _ _ := (h.mono (label_within_protocol _)).get_eq (ne_protocol_of_asset ha)
  sums _ ha := word_sum_of_labels hwd hplain h (Or.inr ha)

theorem Credits.of_prune (h : Header) (j : Journal) : Credits j.s (pruneExpired h j).s where
  grows slot _ := by rw [get_prune_expired]
  spent a := is_spent_prune_expired j a
  assets _ _ _ _ := get_prune_expired j _
  sums _ _ := word_sum_prune_expired h j

theorem Credits.of_treasury (hwd : WordsDistinct) (s : State) (credited : U256) :
    Credits s (s.set treasurySlot credited) where
  grows slot hu := by
    have hne : treasurySlot ≠ slot := fun h => ne_protocol_of_user hu (h ▸ rfl)
    rw [get_set_of_ne _ _ hne]
  spent a := is_spent_set ..
  assets asset ha l _ := by
    have hne : treasurySlot ≠ ⟨asset, storageWord l⟩ := fun h =>
      ne_protocol_of_asset ha (congrArg Slot.addr h).symm
    rw [get_set_of_ne _ _ hne]
  sums asset ha := by
    have hset := word_sum_set (ω := balanceWord asset) (s := s) treasurySlot credited
    have hword : treasurySlot.word ≠ balanceWord asset := native_word_ne hwd ha
    simp only [onWord, hword, if_false, add_zero] at hset
    exact hset

theorem Credits.of_paid (hwd : WordsDistinct) {payee : Address} {amount paid unpaid : U256}
    (h : PaidOut (nativeBalanceSlot payee) amount j paid unpaid j') : Credits j.s j'.s where
  grows slot _ := by rw [h.get_eq]; exact le_add_right _ _
  spent a := h.is_spent_eq a
  assets asset ha l hl := by
    have hne : (⟨asset, storageWord l⟩ : Slot) ≠ nativeBalanceSlot payee := fun heq =>
      plain_ne_balance hwd hl native_is_asset_id (congrArg Slot.word heq)
    exact ext (by rw [h.get_eq, if_neg hne, add_zero])
  sums asset ha := by
    have hword : (nativeBalanceSlot payee).word ≠ balanceWord asset := native_word_ne hwd ha
    rw [h.word_sum, onWord, if_neg hword, add_zero]

/-- Steps around the certificates only credit native balances. -/
theorem FoldStep.credits (hwd : WordsDistinct) (h : FoldStep p σ σ') : Credits σ.j.s σ'.j.s := by
  cases h with
  | opens h => exact .of_labels hwd (open_labels_plain h) open_block_labels
  | records h cites gas =>
    exact .of_labels hwd (record_labels_plain _) (record_block_labels cites gas)
  | prunes h => exact .of_prune h σ.j
  | @rewards h t tips _ _ hpay =>
    obtain ⟨gross, hrewarded⟩ := of_wp_ok (pay_reward_spec tips σ) hpay
    obtain ⟨credited, -, hs⟩ := hrewarded.treasury
    exact hs ▸ .of_treasury hwd σ.j.s credited
  | @rolls h matured _ _ hroll =>
    obtain ⟨unpaid, mid, hrolled⟩ := of_wp_ok (roll_coinbase_ring_spec σ) hroll
    rw [hrolled.j]
    exact (Credits.of_paid hwd hrolled.paid).trans
      (.of_labels hwd (ring_labels_plain _) (store_pending_labels _ _ _))
  | prices h t seqBaseFee parBaseFee =>
    exact .of_labels hwd fee_labels_plain (update_base_fees_labels t seqBaseFee parBaseFee σ.res)

/-! ## Strangers -/

/-- A valid certificate that shares no signing key with another. -/
structure Stranger (c d : Certificate) (p : Params) : Prop where
  checked : check d p = .ok ()
  keys : ∀ k ∈ c.sigs, ∀ l ∈ d.sigs, k.pubKey ≠ l.pubKey

/-- The address hash does not collide on the keys and the issuers of two certificates. -/
structure NoCollision (c d : Certificate) : Prop where
  keys : ∀ version, ∀ k ∈ c.sigs, ∀ l ∈ d.sigs,
    addressFromPubKey version k.pubKey = addressFromPubKey version l.pubKey → k.pubKey = l.pubKey
  issuers : ∀ args args', c.program = .issue args → d.program = .issue args' →
    deriveAssetAddress c.chainID args.issuer c.seq =
      deriveAssetAddress d.chainID args'.issuer d.seq → args.issuer = args'.issuer

/-- A certificate credits an address. -/
def CreditsTo (c : Certificate) (a : Address) : Prop :=
  ∃ w ∈ c.writes, w.op = .deltaAdd ∧ w.slot.addr = a

variable {a : Address} {slot : Slot}

theorem Stranger.not_both_signed (h : Stranger c d p) (hcol : NoCollision c d) {k l : Sig}
    (hk : k ∈ c.sigs) (hl : l ∈ d.sigs) (hka : addressFromPubKey a.version k.pubKey = a)
    (hla : addressFromPubKey a.version l.pubKey = a) : False :=
  h.keys k hk l hl (hcol.keys a.version k hk l hl (hka.trans hla.symm))

theorem Stranger.not_spends (h : Stranger c d p) (hcol : NoCollision c d) (hc : ValidCert c p)
    (ha : isUserAddress a = true) (hs : Spends c a) : ¬ Spends d a := fun hd => by
  obtain ⟨k, hk, hka, -⟩ := signed_of_spends hc ha hs
  obtain ⟨l, hl, hla, -⟩ := signed_of_spends (validCert_of_check h.checked) ha hd
  exact h.not_both_signed hcol hk hl hka hla

theorem Stranger.not_issues (h : Stranger c d p) (hcol : NoCollision c d) (hc : ValidCert c p)
    {args args' : IssueArgs} (hprog : c.program = .issue args) (hprog' : d.program = .issue args') :
    deriveAssetAddress c.chainID args.issuer c.seq ≠
      deriveAssetAddress d.chainID args'.issuer d.seq := fun heq => by
  have hissuer := hcol.issuers args args' hprog hprog' heq
  obtain ⟨k, hk, hka⟩ := hc.authorised args.issuer (by simp [requiredAddrs, hprog])
  obtain ⟨l, hl, hla⟩ := (validCert_of_check h.checked).authorised args'.issuer
    (by simp [requiredAddrs, hprog'])
  rw [← hissuer] at hla
  exact h.not_both_signed hcol hk hl (by simpa [authorises] using hka)
    (by simpa [authorises] using hla)

theorem CertStep.issues_of_get_ne (hd : ValidCert d p)
    (ha : asset.version = Crypto.addrVersionAsset)
    (h : CertStep d id p fs fp j burned out tip j' burned') {word : Word}
    (hminted : storageWord .assetMinted ≠ word)
    (hne : j'.s.get ⟨asset, word⟩ ≠ j.s.get ⟨asset, word⟩) :
    ∃ args, d.program = .issue args ∧ deriveAssetAddress d.chainID args.issuer d.seq = asset := by
  rcases h.get_asset hd ha with ⟨-, hkept⟩ | ⟨-, -, -, hget⟩
  · exact absurd (hkept _) hne
  by_contra hissue
  refine hne (get_asset_unwritten hd ha hget fun w hw hop heq => ?_)
  rcases written_asset hd ha hw hop heq with ⟨args, _, hprog, haddr, -⟩ | ⟨_, -, -, hword⟩
  · exact hissue ⟨args, hprog, haddr⟩
  · exact hminted hword

/-- Whoever mints has signed with the minter's key. -/
theorem CertStep.minter_signed (hd : ValidCert d p) (ha : asset.version = addrVersionAsset)
    (h : CertStep d id p fs fp j burned out tip j' burned')
    (hne : mintedBy d out.outcome asset ≠ 0) :
    ∃ l ∈ d.sigs, j.s.get (assetMinterSlot asset) = .fromBytes l.pubKey := by
  rcases h.get_asset hd ha with ⟨hskip, -⟩ | ⟨happ, hreads, -, -⟩
  · simp [mintedBy, hskip] at hne
  rw [mintedBy] at hne
  cases hd.shape with
  | mint args burns hprog _ _ _ hcap hr _ _ =>
    rw [mintedOn, hprog] at hne
    have hA : args.asset = asset := by
      by_contra hA
      simp [hA] at hne
    subst hA
    obtain ⟨-, hminter, -⟩ := mint_reads_hold hr hcap hreads
    rw [assetMinterSlot, get_reserve_asset hd ha] at hminter
    obtain ⟨l, hl, hkey⟩ := hd.keyed args.minter (by simp [requiredKeys, hprog])
    exact ⟨l, hl, hkey ▸ hminter⟩
  | transfer _ _ _ hprog | issue _ _ hprog | retire _ hprog => simp [mintedOn, hprog] at hne

/-! ## What is kept -/

/-- What a later state keeps of the things a certificate depends on: the cells it debits have
grown, the addresses it names are not burned, and the asset it issues or mints is as it was. -/
structure Kept (c : Certificate) (s s' : State) : Prop where
  grows : ∀ slot, isUserAddress slot.addr = true → Spends c slot.addr →
    (s.get slot).toNat ≤ (s'.get slot).toNat
  unspent : ∀ a, Spends c a ∨ CreditsTo c a ∨ isUserAddress a = false →
    s.isSpent a = false → s'.isSpent a = false
  unissued : ∀ args, c.program = .issue args →
    s'.get (assetCapSlot (deriveAssetAddress c.chainID args.issuer c.seq)) =
      s.get (assetCapSlot (deriveAssetAddress c.chainID args.issuer c.seq))
  unminted : ∀ args, c.program = .mint args → s.get (assetCapSlot args.asset) ≠ 0 →
    s.get (assetMinterSlot args.asset) = .fromBytes args.minter →
      s'.get (assetCapSlot args.asset) = s.get (assetCapSlot args.asset) ∧
        s'.get (assetMinterSlot args.asset) = s.get (assetMinterSlot args.asset) ∧
        s'.get (assetMintedSlot args.asset) = s.get (assetMintedSlot args.asset)

theorem Kept.refl (c : Certificate) (s : State) : Kept c s s :=
  ⟨fun _ _ _ => le_refl _, fun _ _ h => h, fun _ _ => rfl, fun _ _ _ _ => ⟨rfl, rfl, rfl⟩⟩

theorem Kept.trans (h : Kept c s s') (h' : Kept c s' s'') : Kept c s s'' where
  grows slot hu hs := (h.grows slot hu hs).trans (h'.grows slot hu hs)
  unspent a ha hs := h'.unspent a ha (h.unspent a ha hs)
  unissued args hprog := (h'.unissued args hprog).trans (h.unissued args hprog)
  unminted args hprog hcap hminter := by
    obtain ⟨hc, hk, hm⟩ := h.unminted args hprog hcap hminter
    obtain ⟨hc', hk', hm'⟩ := h'.unminted args hprog (hc ▸ hcap) (hk.trans hminter)
    exact ⟨hc'.trans hc, hk'.trans hk, hm'.trans hm⟩

theorem mint_asset_version {args : MintArgs} (hc : ValidCert c p) (hprog : c.program = .mint args) :
    args.asset.version = addrVersionAsset := by
  cases hc.shape with
  | mint args' _ hprog' hasset =>
    obtain rfl : args' = args := Program.mint.inj (hprog'.symm.trans hprog)
    exact hasset
  | transfer _ _ _ hprog' | issue _ _ hprog' | retire _ hprog' => simp [hprog'] at hprog

/-- Credits keep what a certificate depends on. -/
theorem Credits.kept (hc : ValidCert c p) (h : Credits s s') : Kept c s s' where
  grows slot hu _ := h.grows slot hu
  unspent a _ hs := (h.spent a).trans hs
  unissued args _ := h.assets _ (version_derive_asset_address _ _ _) .assetCap trivial
  unminted args hprog _ _ := by
    have hasset := mint_asset_version hc hprog
    exact ⟨h.assets _ hasset .assetCap trivial, h.assets _ hasset .assetMinter trivial,
      h.assets _ hasset .assetMinted trivial⟩

theorem AssetStep.unminted (hwd : WordsDistinct) (h : AssetStep asset s s' 0)
    (hcap : s.get (assetCapSlot asset) ≠ 0) :
    s'.get (assetCapSlot asset) = s.get (assetCapSlot asset) ∧
      s'.get (assetMinterSlot asset) = s.get (assetMinterSlot asset) ∧
      s'.get (assetMintedSlot asset) = s.get (assetMintedSlot asset) := by
  obtain ⟨hc, -, -, hk⟩ := h.metadata hwd hcap
  refine ⟨hc, hk, ?_⟩
  cases h with
  | kept hkept => exact hkept _
  | issued hunset _ => exact absurd hunset hcap
  | minted _ hadd _ => exact ext hadd

/-- A stranger's certificate keeps what this one depends on. -/
theorem Stranger.kept (hwd : WordsDistinct) (hc : ValidCert c p) (hd : Stranger c d p)
    (hcol : NoCollision c d) (h : CertStep d id p fs fp j burned out tip j' burned')
    (hspares : ∀ a, CreditsTo c a → j.s.isSpent a = false → j'.s.isSpent a = false) :
    Kept c j.s j'.s where
  grows slot hu hs := h.le_of_not_spends slot (hd.not_spends hcol hc hu hs)
  unspent a ha hold := by
    by_contra hburn
    rw [Bool.not_eq_false] at hburn
    have huser : isUserAddress a = true := by
      rcases h.writes.spent_new hburn with hspent | hmem
      · simp [hold] at hspent
      · simp [isUserAddress, spent_here_one_shot (validCert_of_check hd.checked) hmem]
    rcases ha with hs | hcredit | hforeign
    · exact hd.not_spends hcol hc huser hs (h.spends_of_burn hold hburn)
    · rw [hspares a hcredit hold] at hburn
      exact Bool.false_ne_true hburn
    · rw [huser] at hforeign
      exact Bool.noConfusion hforeign
  unissued args hprog := by
    by_contra hne
    have hminted : storageWord .assetMinted ≠ storageWord .assetCap :=
      hwd.ne (l := .assetMinted) (m := .assetCap) trivial trivial (by simp)
    obtain ⟨args', hprog', heq⟩ := h.issues_of_get_ne (validCert_of_check hd.checked)
      (version_derive_asset_address _ _ _) hminted hne
    exact hd.not_issues hcol hc hprog hprog' heq.symm
  unminted args hprog hcap hminter := by
    have hasset := mint_asset_version hc hprog
    have hstep := h.asset_step hwd (validCert_of_check hd.checked) hasset
    have hnone : mintedBy d out.outcome args.asset = 0 := by
      by_contra hne
      obtain ⟨l, hl, hcell⟩ := h.minter_signed (validCert_of_check hd.checked) hasset hne
      obtain ⟨k, hk, hkey⟩ := hc.keyed args.minter (by simp [requiredKeys, hprog])
      have hbytes : args.minter = l.pubKey := congrArg bytes32 (hminter.symm.trans hcell)
      exact hd.keys k hk l hl (hkey.trans hbytes)
    rw [hnone] at hstep
    exact hstep.unminted hwd hcap

/-! ## While a certificate waits -/

/-- What can happen to the state while a certificate waits: the fold takes steps of its own, and
certificates of strangers are executed, at any base fees and with any outcome, that burn no
address the waiting one credits. -/
inductive Meanwhile (c : Certificate) (p : Params) : State → State → Prop where
  | nothing (s : State) : Meanwhile c p s s
  | fold {s : State} {σ σ' : FoldState} (h : Meanwhile c p s σ.j.s) (hstep : FoldStep p σ σ') :
      Meanwhile c p s σ'.j.s
  | certificate {s : State} {σ σ' : FoldState} {d : Certificate} {id : Hash} {fs fp : U256}
      {x : CertOutcome × U256} (h : Meanwhile c p s σ.j.s) (hd : Stranger c d p)
      (hcol : NoCollision c d) (hrun : applyCertificate d id p fs fp σ = (.ok x, σ'))
      (hspares : ∀ a, CreditsTo c a → σ.j.s.isSpent a = false → σ'.j.s.isSpent a = false) :
      Meanwhile c p s σ'.j.s

theorem cert_step_of_apply {x : CertOutcome × U256}
    (h : applyCertificate c id p fs fp σ = (.ok x, σ')) :
    CertStep c id p fs fp σ.j σ.res.burned x.1 x.2 σ'.j σ'.res.burned := by
  obtain ⟨burned', j', hstep, rfl⟩ := of_wp_ok (apply_certificate_spec σ) h
  exact hstep

theorem Meanwhile.kept (hwd : WordsDistinct) (hc : ValidCert c p) (h : Meanwhile c p s s') :
    Kept c s s' := by
  induction h with
  | nothing => exact .refl c s
  | fold _ hstep ih => exact ih.trans ((hstep.credits hwd).kept hc)
  | certificate _ hd hcol hrun hspares ih =>
    exact ih.trans (hd.kept hwd hc hcol (cert_step_of_apply hrun) hspares)

/-- Blocks in between keep the supply accounted. -/
theorem Meanwhile.supply_ok (hwd : WordsDistinct) (ha : asset.version = addrVersionAsset)
    (h : Meanwhile c p s s') (hs : SupplyOK asset s) : SupplyOK asset s' := by
  induction h with
  | nothing => exact hs
  | fold _ hstep ih =>
    have hcredits := hstep.credits hwd
    rw [SupplyOK, hcredits.sums asset ha, assetMintedSlot, assetCapSlot,
      hcredits.assets asset ha .assetMinted trivial, hcredits.assets asset ha .assetCap trivial]
    exact ih
  | certificate _ hd _ hrun _ ih =>
    have hvalid := validCert_of_check hd.checked
    have hstep := cert_step_of_apply hrun
    exact ih.step hwd (hstep.asset_step hwd hvalid ha) (hstep.asset_sum hwd hvalid ha)

/-! ## Applying again -/

omit [Crypto] in
theorem get_reserve_mono (hf : Funded c j.s) (hle : (j.s.get slot).toNat ≤ (j'.s.get slot).toNat) :
    ((reserve c j).s.get slot).toNat ≤ ((reserve c j').s.get slot).toNat := by
  by_cases hslot : c.deposit.cell = slot
  · subst hslot
    have hcovered := hf.covered
    rw [reserve, reserve, s_set, s_set, get_set_self, get_set_self,
      to_nat_sub hcovered, to_nat_sub (hcovered.trans hle)]
    omega
  · rwa [get_reserve_of_ne hslot, get_reserve_of_ne hslot]

omit [Crypto] in
theorem read_holds_of_get_eq {r : Read} (h : readHolds s r = true)
    (hget : s'.get r.slot = s.get r.slot) (hspent : s'.isSpent r.slot.addr = false) :
    readHolds s' r = true := by
  simp only [readHolds, Bool.and_eq_true] at h ⊢
  rw [hget, hspent]
  exact ⟨rfl, h.2⟩

omit [Crypto] in
theorem guard_holds_of_le {bound : U256} (h : readHolds s ⟨slot, .guardGE, bound⟩ = true)
    (hle : (s.get slot).toNat ≤ (s'.get slot).toNat) (hspent : s'.isSpent slot.addr = false) :
    readHolds s' ⟨slot, .guardGE, bound⟩ = true := by
  simp only [readHolds, Bool.and_eq_true, Bool.not_eq_true', decide_eq_false_iff_not, not_lt,
    le_def] at h ⊢
  exact ⟨hspent, h.2.trans hle⟩

section Again

variable (hc : ValidCert c p) (hkept : Kept c j.s j'.s) (hf : Funded c j.s)

include hc hkept hf

theorem Kept.funded : Funded c j'.s where
  unspent := hkept.unspent _ (Or.inl (Or.inl rfl)) hf.unspent
  covered := hf.covered.trans (hkept.grows _ hc.deposit_user (Or.inl rfl))

/-- Reads that held still hold when what they depend on is kept. -/
theorem Kept.reads_hold (hreads : readsHold (reserve c j).s c = true) :
    readsHold (reserve c j').s c = true := by
  refine all_eq_true.mpr fun r hr => ?_
  have hold := read_holds_of_mem hreads hr
  have hunspent : Spends c r.slot.addr ∨ CreditsTo c r.slot.addr ∨
      isUserAddress r.slot.addr = false → (reserve c j').s.isSpent r.slot.addr = false := by
    intro hrelies
    refine hkept.unspent _ hrelies ?_
    simp only [readHolds, Bool.and_eq_true, Bool.not_eq_true'] at hold
    exact hold.1
  have hasset : ∀ {asset : Address} {word : Word}, asset.version = Crypto.addrVersionAsset →
      r.slot = ⟨asset, word⟩ → j'.s.get ⟨asset, word⟩ = j.s.get ⟨asset, word⟩ →
      readHolds (reserve c j').s r = true := by
    intro asset word ha hslot hget
    refine read_holds_of_get_eq hold ?_ (hunspent (Or.inr (Or.inr ?_)))
    · rw [hslot, get_reserve_asset hc ha, get_reserve_asset hc ha, hget]
    · rw [hslot]
      exact not_user_of_version_asset ha
  cases hc.shape with
  | transfer moves sums burns _ hsums _ hperm hwrites _ =>
    obtain ⟨e, he, rfl⟩ := mem_map.mp (hperm.mem_iff.mp hr)
    obtain ⟨holder, asset, huser, -, hslot⟩ := (wf_of_sum_moves hsums).debits e he
    have hw : (⟨e.1, .deltaSub, e.2⟩ : Write) ∈ c.writes :=
      hwrites.mem_iff.mpr (mem_append_left _ (mem_append_left _
        (mem_map.mpr ⟨e, he, rfl⟩)))
    have hspends : Spends c e.1.addr := Or.inr ⟨_, hw, rfl, Or.inr (Or.inl rfl)⟩
    have hu : isUserAddress e.1.addr = true := by rw [hslot]; exact huser
    exact guard_holds_of_le hold (get_reserve_mono hf (hkept.grows e.1 hu hspends))
      (hunspent (Or.inl hspends))
  | issue args burns hprog _ _ hreads' _ _ =>
    rw [hreads', mem_singleton] at hr
    exact hasset (version_derive_asset_address _ _ _) (hr ▸ rfl) (hkept.unissued args hprog)
  | mint args burns hprog ha _ hamount hcap hperm _ _ =>
    obtain ⟨hcapCell, hminterCell, -⟩ := mint_reads_hold hperm hcap hreads
    rw [assetCapSlot, get_reserve_asset hc ha] at hcapCell
    rw [assetMinterSlot, get_reserve_asset hc ha] at hminterCell
    have hissued : j.s.get (assetCapSlot args.asset) ≠ 0 := fun hzero => by
      have hzero' : args.cap = 0 := hcapCell.symm.trans hzero
      rw [hzero'] at hcap
      exact hamount (U256.ext (Nat.le_zero.mp (U256.le_def.mp hcap)))
    obtain ⟨hcapEq, hminterEq, hmintedEq⟩ := hkept.unminted args hprog hissued hminterCell
    have hr := hperm.mem_iff.mp hr
    simp only [mintReads, mem_cons, not_mem_nil, or_false] at hr
    rcases hr with rfl | rfl | rfl
    · exact hasset ha rfl hcapEq
    · exact hasset ha rfl hminterEq
    · exact hasset ha rfl hmintedEq
  | retire addrs _ hnone _ => simp [hnone] at hr

omit hc hf in
theorem Kept.writes_unspent
    (hw : ∀ w ∈ c.writes, (reserve c j).s.isSpent w.slot.addr = false ∧ InRange (reserve c j).s w) :
    ∀ w ∈ c.writes, (reserve c j').s.isSpent w.slot.addr = false := by
  intro w hwm
  obtain ⟨hold, hin⟩ := hw w hwm
  refine hkept.unspent _ ?_ hold
  cases hop : w.op with
  | deltaAdd => exact Or.inr (Or.inl ⟨w, hwm, hop, rfl⟩)
  | set => exact Or.inl (Or.inr ⟨w, hwm, rfl, Or.inl hop⟩)
  | deltaSub => exact Or.inl (Or.inr ⟨w, hwm, rfl, Or.inr (Or.inl hop)⟩)
  | markSpent => exact Or.inl (Or.inr ⟨w, hwm, rfl, Or.inr (Or.inr hop)⟩)
  | unknown code => simp [InRange, hop] at hin

end Again

omit [Crypto] in
theorem bids_of_fees {fees : FeeSplit} (h : c.fees p fs fp = some fees) :
    fs ≤ c.feeBid.seqMax ∧ fp ≤ c.feeBid.parMax := by
  obtain ⟨hseq, hpar, -⟩ := fees_eq_some.mp h
  exact ⟨hseq, hpar⟩

section

variable (h : CertStep c id p fs fp j burned out tip j' burned')

include h

theorem CertStep.applied_iff :
    out.outcome = .applied ↔ Funded c j.s ∧ readsHold (reserve c j).s c = true ∧
      ∀ w ∈ c.writes, (reserve c j).s.isSpent w.slot.addr = false ∧ InRange (reserve c j).s w := by
  cases h with
  | dropped hnot => simp [CertOutcome.drop, hnot]
  | billed hf hp _ _ _ =>
    cases hp with
    | stale hstale => simp [hstale]
    | unstaged reason hr hstage =>
      have hnot : ¬ ∀ w ∈ c.writes, (reserve c j).s.isSpent w.slot.addr = false ∧
          InRange (reserve c j).s w := fun hw => by
        rw [stage_writes_eq_ok.mpr ⟨hw, rfl⟩] at hstage
        simp at hstage
      simp [stage_error_ne_applied hstage, hnot]
    | applied fees hr hw _ => simp only [hf, hr, true_and, true_iff]; exact hw

theorem CertStep.of_applied (happlied : out.outcome = .applied) :
    Funded c j.s ∧ readsHold (reserve c j).s c = true ∧
      (∀ w ∈ c.writes, InRange (reserve c j).s w) ∧
      ∃ fees refund refunded unpaid j₁, c.fees p fs fp = some fees ∧ out.charged = fees.charge ∧
        fees.charge.toNat + refund.toNat = c.deposit.amount.toNat ∧
        PaidOut c.deposit.refundTo refund (sweepBurned c (writeStaged c (reserve c j))).j refunded
          unpaid j₁ ∧ j' = j₁.markSeen id c.ttl := by
  cases h with
  | dropped => simp [CertOutcome.drop] at happlied
  | billed hf hp hr hpay hb =>
    cases hp with
    | stale => simp at happlied
    | unstaged reason _ hstage => exact absurd happlied (stage_error_ne_applied hstage)
    | applied _ hreads hw hfees =>
      exact ⟨hf, hreads, fun w hwm => (hw w hwm).2, _, _, _, _, _, hfees, rfl, hr, hpay, rfl⟩

end

theorem apply_certificate_returns (hwd : WordsDistinct) (hc : ValidCert c p)
    (hseq : fs ≤ c.feeBid.seqMax) (hpar : fp ≤ c.feeBid.parMax)
    (hbound : wordSum (balanceWord nativeAsset) σ.j.s + σ.res.burned.toNat < 2 ^ 256) :
    ∃ x σ', applyCertificate c id p fs fp σ = (.ok x, σ') := by
  rcases run_cases (applyCertificate c id p fs fp) σ with hrun | ⟨e, σ', hrun⟩
  · exact hrun
  · have hfail := of_wp_error (apply_certificate_spec σ) hrun
    exact (hfail.false hwd hc hseq hpar hbound).elim

/-- A certificate that applied applies again while what it depends on is kept. -/
theorem Kept.applies (hwd : WordsDistinct) (hc : ValidCert c p) (hkept : Kept c j.s σ.j.s)
    (hfirst : CertStep c id p fs fp j burned out tip j' burned') (happlied : out.outcome = .applied)
    (hassets : ∀ asset, asset.version = addrVersionAsset → SupplyOK asset σ.j.s)
    (hbound : wordSum (balanceWord nativeAsset) σ.j.s + σ.res.burned.toNat < 2 ^ 256) :
    ∃ x σ', applyCertificate c id p fs fp σ = (.ok x, σ') ∧ x.1.outcome = .applied := by
  have hsound : Sound σ.j.s := ⟨by omega, hassets⟩
  obtain ⟨hf, hreads, hw⟩ := hfirst.applied_iff.mp happlied
  obtain ⟨-, -, -, _, _, _, _, _, hfees, -⟩ := hfirst.of_applied happlied
  obtain ⟨hseq, hpar⟩ := bids_of_fees hfees
  have hreturns : ∃ x σ', applyCertificate c id p fs fp σ = (.ok x, σ') :=
    apply_certificate_returns hwd hc hseq hpar hbound
  obtain ⟨x, σ', hrun⟩ := hreturns
  have hf' := hkept.funded hc hf
  have hreads' := hkept.reads_hold hc hf hreads
  have hin := writes_in_range hc hsound hf' hreads'
  refine ⟨x, σ', hrun, (cert_step_of_apply hrun).applied_iff.mpr ⟨hf', hreads', fun w hwm => ?_⟩⟩
  exact ⟨hkept.writes_unspent hw w hwm, hin w hwm⟩

/-- A valid certificate that applies in a reachable state still applies after any sequence of
strangers' certificates and fold steps that burns no address it credits, while the native coins fit
in 256 bits, the burn of the current block included. -/
theorem poisoning_immunity (hwd : WordsDistinct) {logs : List UndoLog} (hreach : Reachable p logs s)
    (hcheck : check c p = .ok ()) {σ₀ σ₁ : FoldState} {x₀ : CertOutcome × U256} (hσ₀ : σ₀.j.s = s)
    (happly : applyCertificate c id p fs fp σ₀ = (.ok x₀, σ₁)) (happlied : x₀.1.outcome = .applied)
    (hmeanwhile : Meanwhile c p s s') (hσ : σ.j.s = s')
    (hbound : wordSum (balanceWord nativeAsset) s' + σ.res.burned.toNat < 2 ^ 256) :
    ∃ x σ', applyCertificate c id p fs fp σ = (.ok x, σ') ∧ x.1.outcome = .applied := by
  have hc := validCert_of_check hcheck
  subst hσ₀ hσ
  exact (hmeanwhile.kept hwd hc).applies hwd hc (cert_step_of_apply happly) happlied
    (fun asset ha => hmeanwhile.supply_ok hwd ha (hreach.supply_ok hwd ha)) hbound

end

section

attribute [local instance] Reference.crypto

namespace Sample

/-- Four blocks, after which the first and the third user have matured rewards. -/
def twoPayees : List (Header × List Certificate) :=
  [(header 3 (user 1), []), (header 2 (user 3), []), (header 1 (user 1), []), (header 0 0, [])]

/-- A user pays the fourth. -/
def gift (n amount : ℕ) : Certificate :=
  certificate (.transfer [⟨nativeAsset, user n, user 4, .ofNat amount⟩]) 0 (user n) 5000 [key n]

/-- Accepted parameters whose schedule issues more than 2^256 in two blocks. -/
def generous : Params :=
  { params with genesisEmission := .ofNat (3 * 2 ^ 254), tailEmission := .ofNat (3 * 2 ^ 254) }

/-- What becomes of a certificate on a state. -/
def outcomeOf (p : Params) (c : Certificate) (s : State) : Option Outcome :=
  match (applyCertificate c c.id p 1 1 ⟨⟨s, UndoLog.empty⟩, Result.empty⟩).1 with
  | .ok x => some x.1.outcome
  | .error _ => none

/-- The state it leaves behind. -/
def after (p : Params) (c : Certificate) (s : State) : State :=
  (applyCertificate c c.id p 1 1 ⟨⟨s, UndoLog.empty⟩, Result.empty⟩).2.j.s

variable {o : Outcome} {a b : ℕ}

theorem apply_of_outcome {p : Params} {c : Certificate} {s : State} (h : outcomeOf p c s = some o) :
    ∃ x σ', applyCertificate c c.id p 1 1 ⟨⟨s, UndoLog.empty⟩, Result.empty⟩ = (.ok x, σ') ∧
      x.1.outcome = o ∧ σ'.j.s = after p c s := by
  unfold outcomeOf at h
  split at h
  · rename_i x hx
    exact ⟨x, _, Prod.ext hx rfl, Option.some.inj h, rfl⟩
  · simp at h

theorem gift_no_collision (a b : ℕ) : NoCollision (gift 1 a) (gift 3 b) where
  keys version k hk l hl heq := by
    have hbytes : ∀ n : Fin 256, addressFromPubKey (UInt8.ofNat n) (key 1) ≠
        addressFromPubKey (UInt8.ofNat n) (key 3) := by decide +kernel
    have hone := hbytes ⟨version.toNat, version.toNat_lt⟩
    rw [show k = ⟨key 1, key 1, 0⟩ from mem_singleton.mp hk,
      show l = ⟨key 3, key 3, 0⟩ from mem_singleton.mp hl] at heq
    simp only [UInt8.ofNat_toNat] at hone
    exact absurd heq hone
  issuers _ _ hprog := by simp [gift, certificate] at hprog

theorem gift_stranger {p : Params} (h : check (gift 3 b) p = .ok ()) :
    Stranger (gift 1 a) (gift 3 b) p where
  checked := h
  keys k hk l hl := by
    rw [show k = ⟨key 1, key 1, 0⟩ from mem_singleton.mp hk,
      show l = ⟨key 3, key 3, 0⟩ from mem_singleton.mp hl]
    decide

theorem gift_meanwhile {p : Params} {s : State} (hcheck : check (gift 3 b) p = .ok ())
    (hclean : spentHere (gift 3 b) = []) (h : outcomeOf p (gift 3 b) s = some o) :
    Meanwhile (gift 1 a) p s (after p (gift 3 b) s) := by
  obtain ⟨x, σ', hrun, -, hs⟩ := apply_of_outcome h
  rw [← hs]
  refine (Meanwhile.nothing s).certificate (gift_stranger hcheck) (gift_no_collision a b) hrun ?_
  intro addr _ hold
  by_contra hburn
  rcases (cert_step_of_apply hrun).writes.spent_new (Bool.not_eq_false _ ▸ hburn) with hspent | hmem
  · rw [hold] at hspent
    exact Bool.false_ne_true hspent
  · rw [certFootprint, hclean] at hmem
    simp at hmem

end Sample

open Sample

/-- A gift still applies after a stranger's gift to the same address. -/
theorem sample_poisoning_immunity :
    ∃ logs s s', Reachable params logs s ∧ Meanwhile (gift 1 5) params s s' ∧
      s'.get (nativeBalanceSlot (user 4)) ≠ s.get (nativeBalanceSlot (user 4)) ∧
      ∃ x σ', applyCertificate (gift 1 5) (gift 1 5).id params 1 1
        ⟨⟨s', UndoLog.empty⟩, Result.empty⟩ = (.ok x, σ') ∧ x.1.outcome = .applied := by
  have hproduce : ∃ x, produce params twoPayees = some x ∧
      outcomeOf params (gift 1 5) x.2 = some .applied ∧
      outcomeOf params (gift 3 7) x.2 = some .applied ∧
      (after params (gift 3 7) x.2).get (nativeBalanceSlot (user 4)) ≠
        x.2.get (nativeBalanceSlot (user 4)) ∧
      wordSum (balanceWord nativeAsset) (after params (gift 3 7) x.2) < 2 ^ 256 := by
    decide +kernel
  obtain ⟨⟨log, s⟩, hx, hfirst, hother, hne, hbound⟩ := hproduce
  have hmeanwhile : Meanwhile (gift 1 5) params s (after params (gift 3 7) s) :=
    gift_meanwhile (by decide +kernel) (by decide +kernel) hother
  obtain ⟨x₀, σ₁, happly, happlied, -⟩ := apply_of_outcome hfirst
  have hreach := (run_of_produce hx).reachable
  exact ⟨_, s, _, hreach, hmeanwhile, hne, poisoning_immunity Reference.words_distinct hreach
    (by decide +kernel) rfl happly happlied hmeanwhile rfl hbound⟩

/-- Under a schedule past 2^256, two gifts can carry one balance past it, and then the second is
skipped although it would have applied alone. -/
theorem sample_gift_skipped :
    ∃ logs s s', generous.validate = .ok () ∧ Reachable generous logs s ∧
      Validity.check (gift 1 (9 * 2 ^ 252)) generous = .ok () ∧
      outcomeOf generous (gift 1 (9 * 2 ^ 252)) s = some .applied ∧
      Meanwhile (gift 1 (9 * 2 ^ 252)) generous s s' ∧
      outcomeOf generous (gift 1 (9 * 2 ^ 252)) s' = some .skippedOverflow := by
  have hproduce : ∃ x, produce generous twoPayees = some x ∧
      outcomeOf generous (gift 1 (9 * 2 ^ 252)) x.2 = some .applied ∧
      outcomeOf generous (gift 3 (9 * 2 ^ 252)) x.2 = some .applied ∧
      outcomeOf generous (gift 1 (9 * 2 ^ 252)) (after generous (gift 3 (9 * 2 ^ 252)) x.2) =
        some .skippedOverflow := by
    decide +kernel
  obtain ⟨⟨log, s⟩, hx, hfirst, hother, hsecond⟩ := hproduce
  exact ⟨_, s, _, by decide +kernel, (run_of_produce hx).reachable, by decide +kernel, hfirst,
    gift_meanwhile (by decide +kernel) (by decide +kernel) hother, hsecond⟩

end

end Zycord.Fold
