import Zycord.Core.Decode
import Zycord.Core.Reference
import Zycord.Core.SszTree
import Zycord.Core.State

/-!
# Roots bind their contents

A list root determines its list and a state root the cells and the spent registry, as long as the
hash does not collide on what the two roots hash (`Distinguishes`). A hash with digests of 32 bytes
is not injective on all payloads, so the assumption names the payloads. The main theorem is
`roots_bind_contents`.
-/

namespace Zycord.Ssz

open List UInt64 Crypto Merkle

variable [Crypto]

/-- No payload of the one list collides with one of the other. -/
def Distinguishes (tag : Tag) (xs ys : List Bytes) : Prop :=
  ∀ x ∈ xs, ∀ y ∈ ys, sum tag x = sum tag y → x = y

/-- Absence of collisions between lists can be decided. -/
instance (tag : Tag) (xs ys : List Bytes) : Decidable (Distinguishes tag xs ys) :=
  inferInstanceAs (Decidable (∀ x ∈ xs, ∀ y ∈ ys, sum tag x = sum tag y → x = y))

/-- What the length is mixed into. -/
def mixPayload (chunks : List Hash) (limit : ℕ) : Bytes :=
  (merkleize chunks limit).bytes ++ uint64 (UInt64.ofNat chunks.length) ++ List.replicate 24 0

/-- Everything that is hashed for a list root. -/
def listPayloads (chunks : List Hash) (limit : ℕ) : List Bytes :=
  mixPayload chunks limit ::
    (treePairs node (depthLoop limit 63 0) (chunks.takeD (2 ^ depthLoop limit 63 0) 0)).map
      fun x => x.1.bytes ++ x.2.bytes

omit [Crypto] in
theorem le_depth_loop {limit fuel d : ℕ} (h : limit ≤ 2 ^ (d + fuel)) :
    limit ≤ 2 ^ depthLoop limit fuel d := by
  fun_induction depthLoop limit fuel d with
  | case1 => simpa using h
  | case2 fuel d hlt ih => exact ih (by rwa [Nat.add_right_comm, Nat.add_assoc])
  | case3 fuel d hle => omega

omit [Crypto] in
theorem depth_loop_le (limit fuel d : ℕ) : depthLoop limit fuel d ≤ d + fuel := by
  fun_induction depthLoop limit fuel d with
  | case1 => simp
  | case2 fuel d hlt ih => omega
  | case3 fuel d hle => omega

omit [Crypto] in
theorem take_take_d {chunks : List Hash} {n : ℕ} (h : chunks.length ≤ n) :
    (chunks.takeD n 0).take chunks.length = chunks := by
  rw [ByteString.takeD_eq_append h, take_left]

omit [Crypto] in
theorem bytes_append_inj {a b : Bytes32} {x y : Bytes} (h : a.bytes ++ x = b.bytes ++ y) :
    a = b ∧ x = y := by
  obtain ⟨hleft, hright⟩ := append_inj h (by simp)
  exact ⟨Bytes32.bytes_injective hleft, hright⟩

section
variable {a b : List Hash} {limit limit' : ℕ}

theorem merkleize_eq_of_list_root (ha : a.length < 2 ^ 64) (hb : b.length < 2 ^ 64)
    (hinj : Distinguishes .sszNode (listPayloads a limit) (listPayloads b limit'))
    (h : listRoot a limit = listRoot b limit') :
    merkleize a limit = merkleize b limit' ∧ a.length = b.length := by
  have hmix : mixPayload a limit = mixPayload b limit' := hinj _ mem_cons_self _ mem_cons_self h
  simp only [mixPayload, append_assoc] at hmix
  obtain ⟨hroot, hrest⟩ := bytes_append_inj hmix
  obtain ⟨hlen, -⟩ := append_inj hrest (by simp)
  have hword := congrArg readUint64 hlen
  rw [read_uint64_uint64, read_uint64_uint64] at hword
  have hnat := congrArg UInt64.toNat hword
  rw [toNat_ofNat_of_lt' (by omega), toNat_ofNat_of_lt' (by omega)] at hnat
  exact ⟨hroot, hnat⟩

theorem list_root_inj (hlimit : limit ≤ 2 ^ 63) (ha : a.length ≤ limit) (hb : b.length ≤ limit)
    (hinj : Distinguishes .sszNode (listPayloads a limit) (listPayloads b limit))
    (h : listRoot a limit = listRoot b limit) : a = b := by
  obtain ⟨hroot, hlen⟩ := merkleize_eq_of_list_root (by omega) (by omega) hinj h
  have hroom : limit ≤ 2 ^ depthLoop limit 63 0 := le_depth_loop (by omega)
  rw [merkleize_eq, merkleize_eq] at hroot
  have hpadded := top_inj node 0 (takeD_length _ _ _) (takeD_length _ _ _)
    (fun x hx y hy hnode => ?_) hroot
  · rw [← take_take_d (ha.trans hroom), hpadded, hlen, take_take_d (hb.trans hroom)]
  · have hpayload := hinj _ (mem_cons_of_mem _ (mem_map_of_mem hx)) _
      (mem_cons_of_mem _ (mem_map_of_mem hy)) hnode
    obtain ⟨hleft, hright⟩ := bytes_append_inj hpayload
    exact Prod.ext hleft (Bytes32.bytes_injective hright)

end

end Zycord.Ssz

namespace Zycord.State

open Ssz

section
variable [Crypto]

/-- The leaves of the cells. -/
def cellLeaves (s : State) : List Hash := s.cells.entries.map fun e => cellLeaf e.1 e.2

/-- The leaves of the spent registry. -/
def spentLeaves (s : State) : List Hash := s.spent.entries.map fun e => spentLeaf e.1

/-- What a state root hashes, by tag. -/
def rootPayloads (s : State) : Tag → List Bytes
  | .stateCell => s.cells.entries.map fun e => e.1.addr.bytes ++ e.1.word.bytes ++ e.2.bytes32.bytes
  | .stateSpent => s.spent.entries.map fun e => e.1.bytes
  | .sszNode => listPayloads s.cellLeaves (nextPow2 s.cellLeaves.length) ++
    listPayloads s.spentLeaves (nextPow2 s.spentLeaves.length)
  | .stateRoot => [(listRoot s.cellLeaves (nextPow2 s.cellLeaves.length)).bytes ++
    (listRoot s.spentLeaves (nextPow2 s.spentLeaves.length)).bytes]
  | _ => []

omit [Crypto] in
theorem map_inj {α β : Type} {f : α → β} {a b : List α}
    (hinj : ∀ x ∈ a, ∀ y ∈ b, f x = f y → x = y) (h : a.map f = b.map f) : a = b := by
  induction a generalizing b with
  | nil => simpa using h.symm
  | cons x a ih =>
    match b, h with
    | y :: b, h =>
      obtain ⟨hhead, htail⟩ := List.cons.inj h
      rw [hinj x List.mem_cons_self y List.mem_cons_self hhead, ih (fun x hx y hy =>
        hinj x (List.mem_cons_of_mem _ hx) y (List.mem_cons_of_mem _ hy)) htail]

theorem leaves_inj {a b : List Hash} (ha : a.length ≤ 2 ^ 63) (hb : b.length ≤ 2 ^ 63)
    (hinj : Distinguishes .sszNode (listPayloads a (nextPow2 a.length))
      (listPayloads b (nextPow2 b.length)))
    (h : listRoot a (nextPow2 a.length) = listRoot b (nextPow2 b.length)) : a = b := by
  obtain ⟨-, hlen⟩ := merkleize_eq_of_list_root (by omega) (by omega) hinj h
  rw [← hlen] at h hinj
  have hroom : a.length ≤ nextPow2 a.length := le_depth_loop (by omega)
  have hlimit : nextPow2 a.length ≤ 2 ^ 63 :=
    Nat.pow_le_pow_right Nat.two_pos (depth_loop_le a.length 63 0)
  exact list_root_inj hlimit hroom (hlen ▸ hroom) hinj h

/-- Equal roots of hashed payloads that do not collide mean equal cells and spent set. -/
theorem root_inj {s t : State} (hs : s.cells.entries.length ≤ 2 ^ 63)
    (ht : t.cells.entries.length ≤ 2 ^ 63) (hs' : s.spent.entries.length ≤ 2 ^ 63)
    (ht' : t.spent.entries.length ≤ 2 ^ 63)
    (hinj : ∀ tag, Distinguishes tag (s.rootPayloads tag) (t.rootPayloads tag))
    (h : s.root = t.root) : s.cells = t.cells ∧ s.spent = t.spent := by
  have hroots := hinj .stateRoot _ List.mem_cons_self _ List.mem_cons_self h
  obtain ⟨hcells, hspent⟩ := bytes_append_inj hroots
  have hcells := leaves_inj (by simpa [cellLeaves] using hs) (by simpa [cellLeaves] using ht)
    (fun x hx y hy => hinj .sszNode x (List.mem_append_left _ hx) y (List.mem_append_left _ hy))
    hcells
  have hspent := leaves_inj (by simpa [spentLeaves] using hs') (by simpa [spentLeaves] using ht')
    (fun x hx y hy => hinj .sszNode x (List.mem_append_right _ hx) y (List.mem_append_right _ hy))
    (Bytes32.bytes_injective hspent)
  have hcell : s.cells.entries = t.cells.entries := by
    refine map_inj (fun e he e' he' hleaf => ?_) hcells
    have hpayload := hinj .stateCell _ (List.mem_map_of_mem he) _ (List.mem_map_of_mem he') hleaf
    simp only [List.append_assoc] at hpayload
    obtain ⟨haddr, hrest⟩ := bytes_append_inj hpayload
    obtain ⟨hword, hvalue⟩ := bytes_append_inj hrest
    have hvalue : e.2 = e'.2 := congrArg U256.fromBytes (Bytes32.bytes_injective hvalue)
    exact Prod.ext (congrArg₂ Slot.mk haddr hword) hvalue
  have hmark : s.spent.entries = t.spent.entries := by
    refine map_inj (fun e he e' he' hleaf => ?_) hspent
    have hpayload := hinj .stateSpent _ (List.mem_map_of_mem he) _ (List.mem_map_of_mem he') hleaf
    exact Prod.ext (Bytes32.bytes_injective hpayload) rfl
  exact ⟨FinFun.ext_get fun k => by simp only [FinFun.get, FinMap.find?, hcell],
    FinMap.ext_find fun k => by simp only [FinMap.find?, hmark]⟩

/-- Where the hash does not collide on what is hashed: lists within a limit have equal roots only if
they are equal, and states have equal roots only if they have the same cells and the same spent
registry. -/
theorem roots_bind_contents :
    (∀ (limit : ℕ) (a b : List Hash), limit < 2 ^ 63 → a.length ≤ limit → b.length ≤ limit →
      Distinguishes .sszNode (listPayloads a limit) (listPayloads b limit) →
      listRoot a limit = listRoot b limit → a = b) ∧
    ∀ s t : State, s.cells.entries.length < 2 ^ 63 → t.cells.entries.length < 2 ^ 63 →
      s.spent.entries.length < 2 ^ 63 → t.spent.entries.length < 2 ^ 63 →
      (∀ tag, Distinguishes tag (s.rootPayloads tag) (t.rootPayloads tag)) →
      s.root = t.root → s.cells = t.cells ∧ s.spent = t.spent :=
  ⟨fun _ _ _ hlimit ha hb => list_root_inj hlimit.le ha hb,
    fun _ _ hs ht hs' ht' => root_inj hs.le ht.le hs'.le ht'.le⟩

end

section
attribute [local instance] Reference.crypto

/-- A trailing zero chunk changes the root of a list, and a cell the root of a state. -/
theorem sample_roots_bind_contents :
    listRoot [0] 2 ≠ listRoot [0, 0] 2 ∧ root new ≠ root (new.set ⟨0, 0⟩ 1) := by
  obtain ⟨hlist, hstate⟩ := roots_bind_contents
  constructor
  · intro h
    have := hlist 2 [0] [0, 0] (by decide) (by decide) (by decide) (by decide +kernel) h
    simp at this
  · intro h
    have hinj : ∀ tag, Distinguishes tag (rootPayloads new tag)
        (rootPayloads (new.set ⟨0, 0⟩ 1) tag) := by
      intro tag
      cases tag <;> decide +kernel
    have := (hstate new (new.set ⟨0, 0⟩ 1) (by decide) (by decide) (by decide) (by decide) hinj h).1
    exact absurd (congrArg (fun m => m.entries.length) this) (by decide +kernel)

end

end Zycord.State
