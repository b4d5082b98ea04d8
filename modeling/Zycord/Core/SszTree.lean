import Zycord.Core.Ssz
import Zycord.Lib.Merkle

/-!
# The persistent list root

`ssz.Tree`: a merkleised list that keeps its internal nodes between calls and computes again only
the nodes above the leaves that moved. A tree carries the fact that its layers are those of some
leaf layer, so a stale tree costs work and never correctness: `Tree.root_eq_list_root` says that
every call returns `listRoot` of its own arguments, whatever tree it starts from. `Forest` has many
trees in one memory, with the buffers they reuse; `Forest.tree_calls_exact` says that calls on one
never reach another.
-/

namespace Zycord.Ssz

open Function List Nat Merkle

variable [Crypto]

/-- A tree with its internal nodes. The depth is absent before the first call, where the source
has `-1`; `layers[0]` is the padded leaf layer and `layers[depth]` the root. -/
structure Tree where
  depth : Option ℕ
  layers : List (List Hash)
  built : ∀ d, depth = some d →
    ∃ leaves : List Hash, leaves.length = 2 ^ d ∧ layers = layersOf node d leaves

namespace Tree

/-- The tree before its first call. -/
def new : Tree := ⟨none, [], by simp⟩

/-- The positions at which the leaf layer is not what it should be. -/
def moved (leaf want : List Hash) : List ℕ :=
  (List.range leaf.length).filter fun i => leaf[i]? ≠ want[i]?

/-- Compute every layer: the source's `rebuild`, with the chunks copied over a zero leaf layer. -/
def rebuild (chunks : List Hash) (depth : ℕ) : List (List Hash) :=
  layersOf node depth (chunks.takeD (2 ^ depth) 0)

/-- Take over new leaves. -/
def update (t : Tree) (chunks : List Hash) : List (List Hash) :=
  let leaf := t.layers.headD []
  let want := chunks.takeD leaf.length 0
  repair node 0 (moved leaf want) want t.layers.tail

/-- The layers after a call: a change of depth is a full rebuild. -/
def relayer (t : Tree) (chunks : List Hash) (depth : ℕ) : List (List Hash) :=
  if t.depth = some depth then t.update chunks else rebuild chunks depth

omit [Crypto] in
theorem get_of_not_moved {leaf want : List Hash} (hlen : leaf.length = want.length) {i : ℕ}
    (h : i ∉ moved leaf want) : leaf[i]? = want[i]? := by
  by_cases hi : i < leaf.length
  · simpa [moved, hi] using h
  · rw [getElem?_eq_none (by omega), getElem?_eq_none (by omega)]

theorem relayer_eq (t : Tree) (chunks : List Hash) (depth : ℕ) :
    t.relayer chunks depth = layersOf node depth (chunks.takeD (2 ^ depth) 0) := by
  unfold relayer
  split_ifs with hdepth
  · obtain ⟨leaf, hlen, hlayers⟩ := t.built depth hdepth
    have hhead : t.layers.headD [] = leaf := by
      rw [hlayers, layers_of_ne_nil node depth leaf]
      rfl
    have hwant : leaf.length = (chunks.takeD (2 ^ depth) 0).length := by
      rw [takeD_length, hlen]
    simp only [update, hhead, hlen]
    rw [hlayers]
    exact repair_layers node 0 depth hwant fun i hi => get_of_not_moved hwant hi
  · rfl

/-- The root of a list under its capacity, with the tree to use at the next call. The source
panics when the list is longer than the capacity. -/
def root (t : Tree) (chunks : List Hash) (limit : ℕ) : Tree × Hash :=
  let depth := depthLoop limit 63 0
  let layers := t.relayer chunks depth
  (⟨some depth, layers, fun d hd => ⟨chunks.takeD (2 ^ depth) 0, by
      obtain rfl := Option.some.inj hd
      exact ⟨List.takeD_length _ _ _, t.relayer_eq chunks depth⟩⟩⟩,
    mixInLength (top 0 depth layers) (UInt64.ofNat chunks.length))

end Tree

/-! ## The definition of a list root -/

theorem take_d_next_layer (zero : Hash) (n : ℕ) (layer : List Hash) :
    (nextLayer zero layer).takeD n (node zero zero) = pairUp node (layer.takeD (2 * n) zero) := by
  induction n generalizing layer with
  | zero => rfl
  | succ n ih =>
    rw [mul_succ]
    match layer with
    | [] => simpa [nextLayer, pairUp, replicate_succ] using ih []
    | [l] => simpa [nextLayer, pairUp, replicate_succ] using ih []
    | l :: r :: rest => simpa [nextLayer, pairUp] using ih rest

theorem head_climb (steps d : ℕ) (layer : List Hash) :
    (climb steps d layer).headD (zeroHash (d + steps)) =
      top 0 steps (layersOf node steps (layer.takeD (2 ^ steps) (zeroHash d))) := by
  induction steps generalizing d layer with
  | zero => cases layer <;> rfl
  | succ steps ih =>
    have hdepth : d + (steps + 1) = d + 1 + steps := by omega
    rw [climb, hdepth, ih, top_layers_of_succ, pow_succ', ← take_d_next_layer]
    rfl

theorem merkleize_eq (chunks : List Hash) (limit : ℕ) :
    merkleize chunks limit = top 0 (depthLoop limit 63 0)
        (layersOf node (depthLoop limit 63 0) (chunks.takeD (2 ^ depthLoop limit 63 0) 0)) := by
  have hhead := head_climb (depthLoop limit 63 0) 0 chunks
  rw [zero_add] at hhead
  have hroot : merkleize chunks limit =
      (climb (depthLoop limit 63 0) 0 chunks).headD (zeroHash (depthLoop limit 63 0)) := by
    simp only [merkleize]
    cases climb (depthLoop limit 63 0) 0 chunks <;> rfl
  exact hroot.trans hhead

/-- A call returns the root of the list it is given, whatever the tree was used for before. -/
theorem Tree.root_eq_list_root (t : Tree) (chunks : List Hash) (limit : ℕ) :
    (t.root chunks limit).2 = listRoot chunks limit := by
  simp only [Tree.root, listRoot, merkleize_eq, Tree.relayer_eq]

/-! ## Trees in memory

The source writes the layers of a tree in place, so a clone that shared one would change with its
original. Here a tree names its layers by address. -/

/-- A tree as it is held: its depth and the addresses of its layers. -/
structure TreeRef where
  depth : Option ℕ
  layers : List ℕ

/-- The trees of a program by number, each new before its first use, over one memory. -/
structure Forest where
  memory : ℕ → List Hash
  next : ℕ
  tree : ℕ → TreeRef

/-- A call: store a clone of one tree as another, or take the root of a list. -/
inductive TreeCall where
  | clone (source i : ℕ)
  | root (i : ℕ) (chunks : List Hash) (limit : ℕ)

/-- The tree a call works on. -/
def TreeCall.target : TreeCall → ℕ
  | .clone _ i => i
  | .root i _ _ => i

namespace Forest

/-- No tree has been used. -/
def new : Forest := ⟨fun _ => [], 0, fun _ => ⟨none, []⟩⟩

/-- The layers of a tree. -/
def read (f : Forest) (i : ℕ) : List (List Hash) := (f.tree i).layers.map f.memory

/-- Write the layers of a tree in place. -/
def write (f : Forest) (i : ℕ) (layers : List (List Hash)) : Forest :=
  { f with
    memory := fun a =>
      if a ∈ (f.tree i).layers then layers.getD ((f.tree i).layers.idxOf a) [] else f.memory a }

/-- Give a tree a depth and the addresses of so many fresh layers. -/
def reserve (f : Forest) (i : ℕ) (depth : Option ℕ) (count : ℕ) : Forest :=
  { f with
    next := f.next + count
    tree := Function.update f.tree i ⟨depth, List.range' f.next count⟩ }

/-- Give a tree fresh layers. -/
def allocate (f : Forest) (i : ℕ) (depth : Option ℕ) (layers : List (List Hash)) : Forest :=
  (f.reserve i depth layers.length).write i layers

/-- The forest after a call, and what the call returns. A list longer than its capacity panics. -/
def call (f : Forest) : TreeCall → Forest × Option Hash
  | .clone source i => (f.allocate i (f.tree source).depth (f.read source), none)
  | .root i chunks limit =>
    if limit < chunks.length then (f, none)
    else
      let depth := depthLoop limit 63 0
      let f' := if (f.tree i).depth = some depth then
          let leaf := (f.read i).headD []
          let want := chunks.takeD leaf.length 0
          f.write i (repair node 0 (Tree.moved leaf want) want (f.read i).tail)
        else f.allocate i (some depth) (Tree.rebuild chunks depth)
      (f', some (mixInLength (top 0 depth (f'.read i)) (UInt64.ofNat chunks.length)))

/-- The forest after a sequence of calls. -/
def after (calls : List TreeCall) : Forest := calls.foldl (fun f c => (f.call c).1) new

/-- No two trees share a layer. -/
structure Apart (f : Forest) : Prop where
  nodup : ∀ i, (f.tree i).layers.Nodup
  disjoint : ∀ i k, i ≠ k → ∀ a ∈ (f.tree k).layers, a ∉ (f.tree i).layers
  allocated : ∀ i, ∀ a ∈ (f.tree i).layers, a < f.next

/-- The layers are those of a tree of that depth. -/
def Built (depth : Option ℕ) (layers : List (List Hash)) : Prop :=
  ∀ d, depth = some d → ∃ leaves : List Hash, leaves.length = 2 ^ d ∧
    layers = layersOf node d leaves

/-- What the calls keep. -/
def Separate (f : Forest) : Prop := f.Apart ∧ ∀ i, Built (f.tree i).depth (f.read i)

section
variable {f : Forest} {i : ℕ} {layers : List (List Hash)}

/-- Writing the layers of a tree keeps the trees apart and changes no other. -/
theorem Apart.write (h : f.Apart) (hothers : ∀ k, i ≠ k → Built (f.tree k).depth (f.read k))
    (hlen : layers.length = (f.tree i).layers.length) (hnew : Built (f.tree i).depth layers) :
    (f.write i layers).Separate ∧ (f.write i layers).read i = layers ∧
      ∀ k, i ≠ k → (f.write i layers).read k = f.read k := by
  have hself : (f.write i layers).read i = layers := by
    refine ext_getElem (by simp [read, Forest.write, hlen]) fun n hn hn' => ?_
    simp [read, Forest.write, (h.nodup i).idxOf_getElem, hn']
  have hother : ∀ k, i ≠ k → (f.write i layers).read k = f.read k := fun k hk =>
    map_congr_left fun a ha => if_neg (h.disjoint i k hk a ha)
  refine ⟨⟨⟨h.nodup, h.disjoint, h.allocated⟩, fun k => ?_⟩, hself, hother⟩
  by_cases hk : i = k
  · subst hk
    rw [hself]
    exact hnew
  · rw [hother k hk]
    exact hothers k hk

variable {depth : Option ℕ} {count : ℕ}

omit [Crypto] in
@[simp] theorem tree_reserve_self :
    (f.reserve i depth count).tree i = ⟨depth, range' f.next count⟩ :=
  update_self ..

omit [Crypto] in
theorem tree_reserve_of_ne {k : ℕ} (hk : i ≠ k) : (f.reserve i depth count).tree k = f.tree k :=
  update_of_ne hk.symm ..

omit [Crypto] in
/-- Reserving rows keeps the trees' storage apart. -/
theorem Apart.reserve (h : f.Apart) (depth : Option ℕ) (count : ℕ) :
    (f.reserve i depth count).Apart := by
  have hfresh : ∀ k, ∀ a ∈ (f.tree k).layers, a ∉ range' f.next count := by
    intro k a ha hrange
    have := h.allocated k a ha
    have := mem_range'_1.mp hrange
    omega
  refine ⟨fun k => ?_, fun j k hjk => ?_, fun k => ?_⟩
  · by_cases hk : i = k
    · subst hk
      simp [nodup_range']
    · simpa only [tree_reserve_of_ne hk] using h.nodup k
  · by_cases hj : i = j
    · subst hj
      simpa only [tree_reserve_of_ne hjk, tree_reserve_self] using hfresh k
    · by_cases hk : i = k
      · subst hk
        simpa only [tree_reserve_of_ne hj, tree_reserve_self] using
          fun a ha ha' => hfresh j a ha' ha
      · simpa only [tree_reserve_of_ne hk, tree_reserve_of_ne hj] using h.disjoint j k hjk
  · by_cases hk : i = k
    · subst hk
      simp [Forest.reserve]
    · rw [tree_reserve_of_ne hk]
      exact fun a ha => lt_of_lt_of_le (h.allocated k a ha) (le_add_right _ _)

theorem Separate.allocate (h : f.Separate) (hnew : Built depth layers) :
    (f.allocate i depth layers).Separate ∧ (f.allocate i depth layers).read i = layers ∧
      ∀ k, i ≠ k → (f.allocate i depth layers).tree k = f.tree k ∧
        (f.allocate i depth layers).read k = f.read k := by
  have hread : ∀ k, i ≠ k → (f.reserve i depth layers.length).read k = f.read k := by
    intro k hk
    rw [read, tree_reserve_of_ne hk]
    rfl
  have hothers : ∀ k, i ≠ k → Built ((f.reserve i depth layers.length).tree k).depth
      ((f.reserve i depth layers.length).read k) := by
    intro k hk
    rw [hread k hk, tree_reserve_of_ne hk]
    exact h.2 k
  have hlen : layers.length = ((f.reserve i depth layers.length).tree i).layers.length := by simp
  obtain ⟨hseparate, hself, hrest⟩ := (h.1.reserve depth layers.length).write hothers hlen
    (by simpa using hnew)
  exact ⟨hseparate, hself, fun k hk => ⟨tree_reserve_of_ne hk, (hrest k hk).trans (hread k hk)⟩⟩

/-- A call answers the list root and leaves every other tree alone. -/
theorem Separate.call (h : f.Separate) (c : TreeCall) :
    (f.call c).1.Separate ∧
    (f.call c).2 = (match c with
      | .clone _ _ => none
      | .root _ chunks limit =>
        if limit < chunks.length then none else some (listRoot chunks limit)) ∧
    ∀ k, c.target ≠ k → (f.call c).1.tree k = f.tree k ∧ (f.call c).1.read k = f.read k := by
  cases c with
  | clone source i =>
    obtain ⟨hseparate, -, hrest⟩ := h.allocate (i := i) (h.2 source)
    exact ⟨hseparate, rfl, hrest⟩
  | root i chunks limit =>
    simp only [Forest.call]
    split
    · exact ⟨h, rfl, fun _ _ => ⟨rfl, rfl⟩⟩
    · -- Whether it repairs the layers or builds new ones, they are those of the padded chunks.
      let depth := depthLoop limit 63 0
      let layers := layersOf node depth (chunks.takeD (2 ^ depth) 0)
      have hroot : some (mixInLength (top 0 depth layers) (UInt64.ofNat chunks.length)) =
          some (listRoot chunks limit) := by
        rw [listRoot, merkleize_eq]
      have hnew : Built (some depth) layers := by
        intro d hd
        obtain rfl := Option.some.inj hd
        exact ⟨_, takeD_length _ _ _, rfl⟩
      split_ifs with hdepth
      · have hlayers := Tree.relayer_eq ⟨(f.tree i).depth, f.read i, h.2 i⟩ chunks depth
        rw [Tree.relayer, if_pos hdepth] at hlayers
        have hlen : layers.length = (f.tree i).layers.length := by
          obtain ⟨leaves, -, hread⟩ := h.2 i depth hdepth
          have := congrArg length hread
          rw [length_layers_of, read, length_map] at this
          rw [length_layers_of, this]
        obtain ⟨hseparate, hself, hrest⟩ :=
          h.1.write (fun k _ => h.2 k) hlen (hdepth ▸ hnew)
        simp only [Tree.update] at hlayers
        rw [hlayers]
        refine ⟨hseparate, ?_, fun k hk => ⟨rfl, hrest k hk⟩⟩
        rw [hself]
        exact hroot
      · obtain ⟨hseparate, hself, hrest⟩ := h.allocate (i := i) hnew
        refine ⟨hseparate, ?_, hrest⟩
        show some (mixInLength (top 0 depth ((f.allocate i (some depth) layers).read i)) _) = _
        rw [hself]
        exact hroot

theorem separate_after (calls : List TreeCall) : (after calls).Separate := by
  have hnew : new.Separate := ⟨⟨by simp [new], by simp [new], by simp [new]⟩, by simp [Built, new]⟩
  exact calls.foldlRecOn _ hnew fun f h c _ => (Separate.call h c).1

end

/-- After any calls, on trees and clones of them: a call returns the root of the list it is given,
where that fits its capacity, and leaves the depth and the layers of every other tree alone. -/
theorem tree_calls_exact (calls : List TreeCall) (c : TreeCall) :
    ((after calls).call c).2 = (match c with
      | .clone _ _ => none
      | .root _ chunks limit =>
        if limit < chunks.length then none else some (listRoot chunks limit)) ∧
    ∀ k, c.target ≠ k → ((after calls).call c).1.tree k = (after calls).tree k ∧
      ((after calls).call c).1.read k = (after calls).read k :=
  ((separate_after calls).call c).2

end Forest

end Zycord.Ssz
