import Zycord.Mempool.Pool

/-!
# The ids a request lists

`Pool.IDs`: a bounded request keeps the smallest ids in a heap of exactly that many, largest first,
in one pass over the map of the pool, and sorts what is left.
-/

namespace Zycord.Mempool

open Heap List OrderDual

/-- Sort ids in increasing order. -/
def sortIDs (ids : List Hash) : List Hash := ids.mergeSort

/-- One turn of the pass: fill up, then let a smaller id displace the largest one kept. -/
def keepSmallest (limit : ℕ) (worst : List Hash) (id : Hash) : List Hash :=
  if worst.length < limit then
    if (worst ++ [id]).length = limit then heapify toDual (worst ++ [id]) else worst ++ [id]
  else
    match worst with
    | [] => []
    | top :: rest => if id < top then siftDown toDual worst.length (id :: rest) 0 else worst

/-- The listed ids, over the pooled ids in the order in which the map is visited. -/
def ids (limit : ℤ) (byID : List Hash) : List Hash :=
  if limit < 0 ∨ byID.length ≤ limit then sortIDs byID
  else if limit = 0 then []
  else sortIDs (byID.foldl (keepSmallest limit.toNat) [])

variable {limit : ℕ} {seen worst next : List Hash}

/-- The ids kept of those seen so far: the others are no smaller, there are none while the heap
fills, and it is in order when it is full. -/
structure Kept (limit : ℕ) (seen worst : List Hash) : Prop where
  length_le : worst.length ≤ limit
  split : ∃ dropped, seen.Perm (worst ++ dropped) ∧ (∀ w ∈ worst, ∀ d ∈ dropped, w ≤ d) ∧
    (worst.length < limit → dropped = [])
  ordered : worst.length = limit → Ordered toDual worst

/-- Before the pass nothing is kept. -/
theorem Kept.start (hlimit : 0 < limit) : Kept limit [] [] :=
  ⟨Nat.zero_le limit, ⟨[], .refl _, by simp, fun _ => rfl⟩, fun hlen => absurd hlen hlimit.ne⟩

/-- While the heap fills, every id is kept. -/
theorem Kept.fill {id : Hash} (h : Kept limit seen worst) (hroom : worst.length < limit)
    (hnext : next.Perm (worst ++ [id])) (hord : next.length = limit → Ordered toDual next) :
    Kept limit (seen ++ [id]) next := by
  obtain ⟨dropped, hperm, -, hnone⟩ := h.split
  rw [hnone hroom, append_nil] at hperm
  refine ⟨by rw [hnext.length_eq, length_append]; exact hroom, ⟨[], ?_, by simp, fun _ => rfl⟩,
    hord⟩
  rw [append_nil]
  exact (hperm.append_right _).trans hnext.symm

/-- One turn of the pass keeps the smallest ids seen. -/
theorem Kept.step (h : Kept limit seen worst) (hlimit : 0 < limit) (id : Hash) :
    Kept limit (seen ++ [id]) (keepSmallest limit worst id) := by
  unfold keepSmallest
  split_ifs with hroom hfull
  · exact h.fill hroom (heapify_perm _) fun _ => ordered_heapify _ _
  · exact h.fill hroom (.refl _) fun hlen => absurd hlen hfull
  · obtain ⟨dropped, hperm, hle, -⟩ := h.split
    have hlen : worst.length = limit := le_antisymm h.length_le (not_lt.mp hroom)
    have hord := h.ordered hlen
    cases worst with
    | nil => exact absurd hlen hlimit.ne
    | cons top rest =>
      have htop : ∀ w ∈ top :: rest, w ≤ top := fun w hw => hord.head_le hw
      have hseen : (seen ++ [id]).Perm (id :: (top :: rest ++ dropped)) :=
        (perm_append_singleton id seen).trans (hperm.cons id)
      dsimp only
      split_ifs with hless
      · -- the largest id kept is dropped
        have hsift : (siftDown toDual (top :: rest).length (id :: rest) 0).Perm (id :: rest) :=
          sift_down_perm _
        have hsmall : ∀ w ∈ id :: rest, w ≤ top :=
          forall_mem_cons.mpr ⟨hless.le, fun w hw => htop w (mem_cons_of_mem _ hw)⟩
        refine ⟨by rw [hsift.length_eq]; exact h.length_le, ⟨top :: dropped, ?_, fun w hw => ?_,
          fun hlt => absurd hlt (by rw [hsift.length_eq]; exact hroom)⟩,
          fun _ => ordered_replace hord id⟩
        · exact hseen.trans (((perm_middle.symm).cons id).trans (hsift.symm.append_right _))
        · have hw := hsmall w (hsift.mem_iff.mp hw)
          exact forall_mem_cons.mpr ⟨hw, fun d hd => hw.trans (hle top mem_cons_self d hd)⟩
      · refine ⟨h.length_le, ⟨id :: dropped, hseen.trans perm_middle.symm, fun w hw => ?_,
          fun hlt => absurd hlt hroom⟩, h.ordered⟩
        exact forall_mem_cons.mpr ⟨(htop w hw).trans (not_lt.mp hless), hle w hw⟩

theorem Kept.pass (h : Kept limit seen worst) (hlimit : 0 < limit) (rest : List Hash) :
    Kept limit (seen ++ rest) (rest.foldl (keepSmallest limit) worst) := by
  induction rest generalizing seen worst with
  | nil => rwa [append_nil]
  | cons id rest ih =>
    rw [append_cons]
    exact ih (h.step hlimit id)

/-- What is kept of an increasing list, when the rest is no smaller, is the front of it. -/
theorem sort_ids_eq_take {keys dropped : List Hash} (hkeys : keys.Pairwise (· < ·))
    (hperm : keys.Perm (worst ++ dropped)) (hle : ∀ w ∈ worst, ∀ d ∈ dropped, w ≤ d) :
    sortIDs worst = keys.take worst.length := by
  have hsplit : keys = sortIDs worst ++ sortIDs dropped := by
    refine Perm.eq_of_pairwise (fun a b _ _ => le_antisymm) (hkeys.imp le_of_lt) ?_
      (hperm.trans ((mergeSort_perm _ _).symm.append (mergeSort_perm _ _).symm))
    refine pairwise_append.mpr ⟨by simpa [sortIDs] using pairwise_mergeSort' (· ≤ ·) worst,
      by simpa [sortIDs] using pairwise_mergeSort' (· ≤ ·) dropped, fun a ha b hb => ?_⟩
    exact hle a (mem_mergeSort.mp ha) b (mem_mergeSort.mp hb)
  rw [hsplit]
  exact (take_left' (length_mergeSort worst)).symm

/-- The listed ids are the first of the pooled ids in increasing order, as many as the limit says or
all of them for a negative one, whatever the order in which the map is visited. -/
theorem ids_exact (byID : FinMap Hash Entry) (limit : ℤ) {visit : List Hash}
    (hvisit : visit.Perm (byID.entries.map Prod.fst)) :
    (byID.entries.map Prod.fst).Pairwise (· < ·) ∧ ids limit visit =
      if limit < 0 then byID.entries.map Prod.fst
      else (byID.entries.map Prod.fst).take limit.toNat := by
  have hkeys := pairwise_map.mpr byID.sorted
  refine ⟨hkeys, ?_⟩
  generalize byID.entries.map Prod.fst = keys at *
  have hlen := hvisit.length_eq
  have hall : sortIDs visit = keys := by
    have hperm : keys.Perm (visit ++ []) := by rwa [append_nil, perm_comm]
    rw [sort_ids_eq_take hkeys hperm (by simp), hlen, take_length]
  unfold ids
  split_ifs with hfew hneg hzero hneg hneg
  · exact hall
  · rw [hall, take_of_length_le (by omega)]
  · omega
  · rw [hzero]
    rfl
  · omega
  · have hpos : 0 < limit.toNat := by omega
    have hkept := (Kept.start hpos).pass hpos visit
    obtain ⟨dropped, hperm, hle, hnone⟩ := hkept.split
    rw [sort_ids_eq_take hkeys (hvisit.symm.trans hperm) hle]
    congr 1
    refine le_antisymm hkept.length_le (not_lt.mp fun hlt => ?_)
    have hsize := hperm.length_eq
    rw [hnone hlt, append_nil, nil_append] at hsize
    omega

namespace Sample

/-- A small number as an id. -/
def hash (n : Fin 8) : Hash := ⟨n, by omega⟩

/-- A pool of four entries; the listing reads their ids only. -/
def pooled : FinMap Hash Entry :=
  let cert : Certificate := ⟨0, 0, .retire [], [], [], [], ⟨⟨0, 0⟩, 0, ⟨0, 0⟩⟩, 0, ⟨0, 0, 0, 0⟩⟩
  FinMap.empty.insertAll ([3, 5, 1, 2].map fun n => (hash n, ⟨cert, hash n, 0, 0⟩))

end Sample

/-- Of four ids in no order two are listed: the heap fills up, and both later ids displace one. -/
theorem sample_ids_exact : ids 2 ([3, 5, 1, 2].map Sample.hash) = [1, 2].map Sample.hash :=
  (ids_exact Sample.pooled 2 (by decide)).2

/-- A negative limit lists the whole pool. -/
theorem negative_limit_lists_all : ((ids (-1) [0]).length : ℤ) ≠ min (-1) 1 := by
  simp [ids, sortIDs]

end Zycord.Mempool
