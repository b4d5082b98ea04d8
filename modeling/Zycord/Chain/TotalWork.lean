import Zycord.Chain.Calls

/-!
# Fork choice is monotone in work

The canonical chain as the store gives it: the index names the ids, the ids name the headers
(`headers_ending_at`). Over calls that apply blocks and consider branches the stored work is the
work of that chain, exactly until it saturates (`Moves.weighed`), and the tip moves by one block or
to a heavier branch. The main result is `fork_choice_monotone`.
-/

namespace Zycord.Chain

open U256 UInt64 List
open Storage (Live applyBatch)
open Fold (ChainLog Run)

section

variable [Crypto] {p : Params} {log log' : ChainLog} {c c' : Chain} {hs : Set Header}

/-! ## The chain that the index names -/

/-- The headers of a chain from genesis on. -/
def ascending (log : ChainLog) : List Header := (log.map fun e => e.1.header).reverse

/-- The headers that the index of a chain names, from genesis to the tip. -/
def canonicalHeaders (c : Chain) : List Header :=
  headersEndingAtHeight c.store.live c.height (c.height.toNat + 1)

variable {live : Live} {e : Block × Fold.Result} {s : State} {work : U256} {tip : Header}
  {call : Action × Bool}

omit [Crypto] in
theorem Keeps.eq {p : Params} {k : Key} {want : Option Bytes} (h : Keeps p False live k want) :
    get live k = want := by
  rcases h with heq | ⟨hfalse, -⟩
  · exact heq
  · exact hfalse.elim

theorem canonical_id_at (hc : Canonical p False log c) (he : e ∈ log) :
    canonicalIDAt c.store.live e.1.header.height = some e.1.header.id := by
  rw [canonicalIDAt, (hc.stored.index e he).eq, Option.map_some, copy_hash_bytes]

theorem canonical_header_at (hc : Canonical p False log c) (he : e ∈ log) :
    canonicalHeaderAt c.store.live e.1.header.height = .ok e.1.header := by
  rw [canonicalHeaderAt, canonical_id_at hc he]
  exact header_locked_eq_ok.mpr (hc.stored.headers e he).eq

/-- The window that ends at a canonical block holds the blocks below it, as many as are asked for
and exist. -/
theorem headers_ending_at {newer base : ChainLog} {top : Header}
    (hc : Canonical p False (newer ++ base) c)
    (hhead : base.head?.map (fun e => e.1.header) = some top) (n : ℤ) :
    headersEndingAtHeight c.store.live top.height n = ascending (base.take n.toNat) := by
  unfold headersEndingAtHeight
  by_cases hn : n ≤ 0
  · rw [if_pos hn, Int.toNat_of_nonpos hn]
    rfl
  · rw [if_neg hn]
    obtain ⟨e, he, rfl⟩ := Option.map_eq_some_iff.mp hhead
    obtain ⟨older, rfl⟩ : ∃ older, base = e :: older := head?_eq_some_iff.mp he
    have hheight := hc.run.height_eq
    have hsize := e.1.header.height.toNat_lt
    obtain ⟨s₀, hrun₀⟩ := hc.run.of_append
    -- the window is the newest part of what is left
    have hsplit := (take_append_drop n.toNat (e :: older)).symm
    have hwindow : heightsUpTo
        (if (e.1.header.height.toNat : ℤ) ≥ n then e.1.header.height - UInt64.ofNat n.toNat + 1
          else 0) e.1.header.height =
        ((e :: older).take n.toNat).reverse.map fun e => e.1.header.height := by
      have hrun : Run p ((e :: older).take n.toNat ++ (e :: older).drop n.toNat) s₀ :=
        hsplit ▸ hrun₀
      refine heights_up_to_run hrun ?_ ?_
      · rw [length_drop, length_cons]
        split
        · have hof : (UInt64.ofNat n.toNat).toNat = n.toNat :=
            toNat_ofNat_of_lt' (show n.toNat < 2 ^ 64 by omega)
          have hone : (1 : UInt64).toNat = 1 := rfl
          rw [UInt64.toNat_add, UInt64.toNat_sub_of_le _ _ (by
            rw [le_iff_toNat_le]
            omega)]
          omega
        · show 0 = _
          omega
      · rw [← hsplit, length_cons, hheight]
    dsimp only
    rw [hwindow, ascending, ← map_reverse, filterMap_map]
    have hread : ∀ e' ∈ ((e :: older).take n.toNat).reverse,
        (canonicalHeaderAt c.store.live e'.1.header.height).toOption = some e'.1.header := by
      intro e' he'
      have hmem : e' ∈ newer ++ e :: older :=
        mem_append_right _ (mem_of_mem_take (mem_reverse.mp he'))
      rw [canonical_header_at hc hmem]
      rfl
    rw [← filterMap_eq_map]
    exact filterMap_congr hread

theorem canonical_headers_eq_ascending (hc : Canonical p False log c) :
    canonicalHeaders c = ascending log := by
  have hall : Canonical p False ([] ++ log) c := hc
  have hwindow := headers_ending_at hall hc.tip (c.height.toNat + 1)
  rw [canonicalHeaders, hc.height]
  rw [hc.height] at hwindow
  rw [hwindow]
  have hsucc := hc.height_succ
  rw [hc.height] at hsucc
  rw [take_of_length_le (by omega)]

/-- Read from genesis up, each header of the log follows the one before. -/
theorem ascending_chain (hrun : Run p log s) (hlinked : Linked log) :
    (ascending log).IsChain Follows := by
  rw [ascending, isChain_reverse, isChain_map]
  induction log generalizing s with
  | nil => exact .nil
  | cons e rest ih =>
    obtain ⟨s₀, hrest, hheight, -⟩ := hrun.of_cons
    cases rest with
    | nil => exact .singleton _
    | cons below older =>
      obtain ⟨hlink, hlinked'⟩ := isChain_cons_cons.mp hlinked
      obtain ⟨-, -, hbelow, -⟩ := hrest.of_cons
      refine isChain_cons_cons.mpr ⟨⟨hlink, UInt64.toNat_inj.mp ?_⟩, ih hrest hlinked'⟩
      have hsize := e.1.header.height.toNat_lt
      have hone : (1 : UInt64).toNat = 1 := rfl
      rw [length_cons] at hheight
      rw [UInt64.toNat_add]
      omega

/-- What the store gives as the canonical chain: every height up to the tip is indexed with the id
of its header and no height above it is, the headers read back, and they follow one another. -/
structure IndexIs (live : Live) (chain : List Header) : Prop where
  ids : ∀ h, canonicalIDAt live h = chain[h.toNat]?.map Header.id
  headers : ∀ h ∈ chain, headerLocked live h.id = .ok h
  heights : ∀ (i : ℕ) (h : Header), chain[i]? = some h → h.height.toNat = i
  linked : chain.IsChain Follows

theorem ascending_heights (hrun : Run p log s) {i : ℕ} {h : Header}
    (hi : (ascending log)[i]? = some h) : h.height.toNat = i := by
  induction log generalizing s with
  | nil => cases hi
  | cons e rest ih =>
    obtain ⟨s₀, hrest, hheight, -⟩ := hrun.of_cons
    have hlen : (ascending rest).length = rest.length := by simp [ascending]
    rw [ascending, map_cons, reverse_cons, ← ascending, getElem?_append] at hi
    split at hi
    · exact ih hrest hi
    · rw [getElem?_singleton] at hi
      split at hi
      · obtain rfl := Option.some.inj hi
        omega
      · cases hi

/-- The height index of a canonical store lists its headers. -/
theorem Canonical.index_is (hc : Canonical p False log c) :
    IndexIs c.store.live (canonicalHeaders c) := by
  rw [canonical_headers_eq_ascending hc]
  refine ⟨fun h => ?_, fun h hh => ?_, fun i h => ascending_heights hc.run,
    ascending_chain hc.run hc.linked⟩
  · cases hget : (ascending log)[h.toNat]? with
    | some hdr =>
      have hheight := UInt64.toNat_inj.mp (ascending_heights hc.run hget)
      have hmem := mem_of_getElem? hget
      rw [ascending, mem_reverse] at hmem
      obtain ⟨e, he, rfl⟩ := mem_map.mp hmem
      rw [← hheight, canonical_id_at hc he]
      rfl
    | none =>
      rw [List.getElem?_eq_none_iff, ascending, length_reverse, length_map] at hget
      refine (hc.stored.noIndex h fun e he heq => ?_).no_index
      have hlt := hc.run.height_lt he
      rw [heq] at hlt
      omega
  · rw [ascending, mem_reverse] at hh
    obtain ⟨e, he, rfl⟩ := mem_map.mp hh
    exact header_locked_eq_ok.mpr (hc.stored.headers e he).eq

/-! ## The stored work -/

omit [Crypto] in
theorem total_work_of_get (h : get live (.metadata .work) = some work.bytes32.bytes) :
    totalWork live = work := by
  rw [totalWork, h]
  simp

theorem total_work_advance {live' : Live} {networkID : Hash} {t : Touched} {undone new : ChainLog}
    {pending : UInt64 → Option Hash} {stats : Stats}
    (hlands : Lands live (advanceChanges p live networkID t s undone new tip pending work stats)
      live') :
    totalWork live' = work := by
  refine total_work_of_get ?_
  rw [hlands.applied, get_apply_changes, advanceChanges, last_change_append]
  rfl

/-- The total work on record is that of the chain, as far as a word goes. -/
def Weighed (log : ChainLog) (c : Chain) : Prop :=
  (totalWork c.store.live).toNat = min (exactWork (ascending log)) (2 ^ 256 - 1)

omit [Crypto] in
theorem exact_work_ascending (log : ChainLog) :
    exactWork (ascending log) = exactWork (log.map fun e => e.1.header) := exact_work_reverse _

omit [Crypto] in
theorem exchange_work {total : U256} {below : ℕ} {replaced br : List Header}
    (htotal : total.toNat = min (below + exactWork replaced) (2 ^ 256 - 1))
    (hheavier : sumWork replaced < sumWork br) :
    ((total.satSub (sumWork replaced)).satAdd (sumWork br)).toNat =
      min (below + exactWork br) (2 ^ 256 - 1) := by
  obtain ⟨hlt, hfits⟩ := exact_work_lt_of_sum_work hheavier
  rw [to_nat_sat_add, to_nat_sat_sub, to_nat_sum_work, to_nat_sum_work, htotal]
  omega

/-- Extending and switching keep the stored work exact. -/
theorem Moves.weighed (h : Moves p log c call c' log') (hcall : call.1 ≠ .rollback)
    (hw : Weighed log c) : Weighed log' c' := by
  cases h with
  | stays h =>
    rw [Weighed, h.store]
    exact hw
  | @grows b res _ h =>
    obtain ⟨stats, hlands⟩ := h.lands
    rw [Weighed, total_work_advance hlands, exact_work_ascending, map_cons,
      exact_work_cons, U256.to_nat_sat_add, hw, exact_work_ascending]
    dsimp only
    omega
  | @switches br undone base new _ h =>
    obtain ⟨t, stats, -, hlands⟩ := h.lands
    rw [Weighed, total_work_advance hlands, exact_work_ascending, map_append, exact_work_append]
    have hnew : new.map (fun e => e.1.header) = (headers br).reverse := by
      rw [headers, ← map_reverse, ← h.blocks, map_map]
      rfl
    rw [hnew, exact_work_reverse, Nat.add_comm]
    refine exchange_work ?_ h.heavier
    rw [hw, exact_work_ascending, h.split, map_append, exact_work_append, Nat.add_comm,
      headers, map_map]
    rfl
  | shrinks hroll => exact absurd hroll hcall

theorem open_weighed {lands : Bool} {store : Storage.Memory} (hempty : store.live = FinMap.empty)
    (hopen : openWith p lands store = .ok c) (hbuilt : buildGenesis p = .ok e.1) :
    Weighed [e] c := by
  obtain ⟨b, res, hbuilt', -, -, -, -, -, stats, hlands⟩ := open_empty_eq_ok hempty hopen
  obtain rfl : e.1 = b := Except.ok.inj (hbuilt.symm.trans hbuilt')
  rw [Weighed, total_work_advance hlands, to_nat_sat_add]
  simp [ascending]

/-- How the canonical chain may move: not at all, by a block that follows the tip, or by a heavier
branch in the place of its newest blocks. -/
inductive TipMoves (tip : Header) (action : Action) (chain : List Header) : List Header → Prop where
  | stays : TipMoves tip action chain chain
  | grows {b : Block} (haction : action = .apply b) (hfollows : Follows tip b.header) :
      TipMoves tip action chain (chain ++ [b.header])
  | switches {br : List Block} {kept replaced : List Header} (haction : action = .considerBranch br)
      (hchain : chain = kept ++ replaced) (hheavier : exactWork replaced < exactWork (headers br)) :
      TipMoves tip action chain (kept ++ headers br)

/-- What a call other than a rollback does to the tip, on the headers alone. -/
theorem Moves.tip_moves (h : Moves p log c call c' log') (hcall : call.1 ≠ .rollback) :
    TipMoves c.tip call.1 (ascending log) (ascending log') := by
  cases h with
  | stays => exact .stays
  | @grows b res haction h =>
    have hgrown : ascending ((b, res) :: log) = ascending log ++ [b.header] := by
      simp [ascending]
    rw [hgrown]
    exact .grows haction h.follows
  | @switches br undone base new haction h =>
    have hnew : ascending (new ++ base) = ascending base ++ headers br := by
      have hblocks : (new.map fun e => e.1.header) = (headers br).reverse := by
        rw [headers, ← map_reverse, ← h.blocks, map_map]
        rfl
      rw [ascending, map_append, reverse_append, hblocks, reverse_reverse]
      rfl
    have hold : ascending log = ascending base ++ ascending undone := by
      simp [ascending, h.split]
    rw [hnew]
    refine .switches haction hold ?_
    rw [exact_work_ascending]
    have hlt := (exact_work_lt_of_sum_work h.heavier).1
    rw [headers, map_map] at hlt
    exact hlt
  | shrinks hroll => exact absurd hroll hcall

theorem TipMoves.exact_work_le {action : Action} {chain chain' : List Header}
    (h : TipMoves tip action chain chain') : exactWork chain ≤ exactWork chain' := by
  cases h with
  | stays => exact le_refl _
  | grows => simp
  | switches _ hchain hheavier =>
    rw [hchain, exact_work_append, exact_work_append]
    omega

/-- Fork choice is monotone in work and the stored work is exact: after any sequence of calls that
apply blocks or consider branches, from genesis on, the index is a chain of linked headers at
consecutive heights that ends at the tip, its work is what is stored, and the next such call moves
it by nothing, by a block that follows the tip, or by a heavier branch, so that the stored work
does not fall. -/
theorem fork_choice_monotone {lands : Bool} {store : Storage.Memory} {c₀ : Chain}
    (calls : List (Action × Bool)) (hnc : NoCollision p hs) (hempty : store.live = FinMap.empty)
    (hopen : openWith p lands store = .ok c₀) (hgenesis : c₀.tip ∈ hs)
    (hcalls : ∀ call ∈ calls, call.1 ≠ .rollback ∧ ∀ h ∈ call.1.headers, h ∈ hs) :
    let c := runCalls p c₀ calls
    IndexIs c.store.live (canonicalHeaders c) ∧ (canonicalHeaders c).getLast? = some c.tip ∧
      (totalWork c.store.live).toNat = min (exactWork (canonicalHeaders c)) (2 ^ 256 - 1) ∧
      ∀ call : Action × Bool, call.1 ≠ .rollback → (∀ h ∈ call.1.headers, h ∈ hs) →
        TipMoves c.tip call.1 (canonicalHeaders c) (canonicalHeaders (step p c call)) ∧
          totalWork c.store.live ≤ totalWork (step p c call).store.live := by
  intro c
  obtain ⟨e, hbuilt, hc₀⟩ : ∃ e, buildGenesis p = .ok e.1 ∧ Canonical p False [e] c₀ :=
    open_canonical hempty hopen
  have htip : e.1.header = c₀.tip := Option.some.inj hc₀.tip
  have hlog₀ : ∀ e' ∈ [e], e'.1.header ∈ hs := by simpa [htip] using hgenesis
  obtain ⟨log, hc, hlog, hweighed⟩ := run_invariant (I := Weighed) hnc hc₀ hlog₀
    (fun call hcall => (hcalls call hcall).2) (fun call hcall hroll =>
      absurd hroll (hcalls call hcall).1) (open_weighed hempty hopen hbuilt)
    fun call hcall => fun _ hmoves _ hw => hmoves.weighed (hcalls call hcall).1 hw
  refine ⟨hc.index_is, ?_, ?_, fun call hroll hheaders => ?_⟩
  · rw [canonical_headers_eq_ascending hc, ascending, getLast?_reverse, head?_map]
    exact hc.tip
  · rw [canonical_headers_eq_ascending hc]
    exact hweighed
  · obtain ⟨log', hmoves, hc', -⟩ := step_moves hnc hc hlog call hheaders (absurd · hroll)
    have htipMoves := hmoves.tip_moves hroll
    refine ⟨?_, ?_⟩
    · rw [canonical_headers_eq_ascending hc, canonical_headers_eq_ascending hc']
      exact htipMoves
    · have hle := htipMoves.exact_work_le
      have hweighed' : Weighed log' (step p c call) := hmoves.weighed hroll hweighed
      rw [le_def, hweighed, hweighed']
      omega

end

section

attribute [local instance] Reference.crypto

open Sample
open Fold.Sample (params)

/-- After a block and the branch that replaces it, the stored work is that of three blocks. -/
theorem sample_fork_choice_monotone :
    ∃ c₀, openWith params true emptyStore = .ok c₀ ∧
      let c := runCalls params c₀
        [(.apply (extension c₀), true), (.considerBranch (rival c₀), true)]
      IndexIs c.store.live (canonicalHeaders c) ∧ (canonicalHeaders c).getLast? = some c.tip := by
  obtain ⟨c₀, hopen, hstory⟩ := story
  have hopen := eq_ok_of_to_option hopen
  have hmonotone := fork_choice_monotone
    [(.apply (extension c₀), true), (.considerBranch (rival c₀), true)]
    (no_collision hstory) rfl hopen (by simp [seenHeaders]) (by
      intro call hcall
      simp only [mem_cons, not_mem_nil, or_false] at hcall
      rcases hcall with rfl | rfl
      · exact ⟨by simp, by simp [Action.headers, seenHeaders]⟩
      · refine ⟨by simp, fun h hh => ?_⟩
        exact mem_cons_of_mem _ (mem_cons_of_mem _ hh))
  exact ⟨c₀, hopen, hmonotone.1, hmonotone.2.1⟩

end

end Zycord.Chain
