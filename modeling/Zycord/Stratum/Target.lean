import Mathlib.Data.Set.Card
import Mathlib.Order.Interval.Finset.Nat
import Zycord.Stratum.Work

/-!
# The job target

What is left of a header target in the 64 bits that a miner filters its shares on
(`node/stratum/seam.go`). The filter reads the top limb of the commitment (`top_limb_eq`), so from
`2 ^ 192 - 1` on it passes nothing that the work rule refuses, and it misses at most one limb's
worth of digests.
-/

namespace Zycord

open ByteString Bytes32 List Set UInt64

namespace Stratum

theorem top_limb_eq (b : Bytes32) : (topLimb b).toNat = fromLEBytes b / 2 ^ 192 := by
  have hlow := little_endian_nat_lt (b.bytes.take 24)
  have hhigh := little_endian_nat_lt (b.bytes.drop 24)
  have hsplit := little_endian_nat_append (b.bytes.take 24) (b.bytes.drop 24)
  simp only [take_append_drop, length_take, length_drop, length_bytes,
    show min 24 32 = 24 from rfl] at hlow hhigh hsplit
  rw [topLimb, toNat_ofNat_of_lt' (by simpa using hhigh), fromLEBytes, hsplit]
  omega

theorem from_le_bytes_injective : Function.Injective fromLEBytes := by
  intro a b hab
  refine bytes_injective ?_
  have ha := bytes_little_endian_nat a.bytes
  have hb := bytes_little_endian_nat b.bytes
  rw [length_bytes] at ha hb
  rw [← ha, ← hb]
  exact congrArg (fun n => (List.range 32).map fun i => UInt8.ofNat (n / 256 ^ i)) hab

/-- The truncated target is the top 64 bits, never zero. -/
theorem to_nat_truncate_target (target : U256) :
    (truncateTarget target).toNat = if target.toNat = 2 ^ 256 - 1 then 2 ^ 64 - 1
      else max 1 ((target.toNat + 1) / 2 ^ 192) := by
  have hlt := target.isLt
  have hone : (1 : U256).toNat = 1 := rfl
  unfold truncateTarget
  by_cases hcarry : (target.add 1).2 = true
  · rw [if_pos hcarry, if_pos (by rw [U256.add_overflow_iff] at hcarry; omega)]
    rfl
  · rw [Bool.not_eq_true, U256.add_overflow_eq_false] at hcarry
    have hlimb : (target.toNat + 1) / 2 ^ 192 < 2 ^ 64 := by omega
    have hzero : UInt64.ofNat ((target.toNat + 1) / 2 ^ 192) = 0 ↔
        (target.toNat + 1) / 2 ^ 192 = 0 := by
      rw [← UInt64.toNat_inj, UInt64.toNat_ofNat_of_lt' hlimb]
      rfl
    simp only [U256.add_overflow_eq_false.mpr hcarry, U256.to_nat_add hcarry, hone, hzero]
    rw [if_neg Bool.false_ne_true, if_neg (show target.toNat ≠ 2 ^ 256 - 1 by omega)]
    split_ifs with h
    · rw [h]
      rfl
    · rw [UInt64.toNat_ofNat_of_lt' hlimb]
      omega

/-- The digests that meet a target and are missed by a filter on their top limb. -/
def missed (target : U256) (t64 : UInt64) : Set Bytes32 :=
  {b | fromLEBytes b ≤ target.toNat ∧ ¬ topLimb b < t64}

theorem ncard_missed_le (target : U256) (t64 : UInt64) :
    (missed target t64).ncard ≤ target.toNat + 1 - t64.toNat * 2 ^ 192 := by
  have hmaps : ∀ b ∈ missed target t64,
      fromLEBytes b ∈ (Finset.Ico (t64.toNat * 2 ^ 192) (target.toNat + 1) : Set ℕ) := by
    rintro b ⟨hle, hmiss⟩
    rw [lt_iff_toNat_lt, top_limb_eq] at hmiss
    rw [Finset.mem_coe, Finset.mem_Ico]
    omega
  have hcard := ncard_le_ncard_of_injOn fromLEBytes hmaps from_le_bytes_injective.injOn
    (Finset.finite_toSet _)
  rwa [ncard_coe_finset, Nat.card_Ico] at hcard

/-- The job target is the target's top limb, rounded up to a whole limb and kept within 64 bits.
Nothing that passes the filter misses a target of at least `2 ^ 192 - 1`, the filter misses less
than a limb's worth of the digests that meet the target, or just that much at the ceiling, and below
`2 ^ 192 - 1` it misses none. -/
theorem truncate_target_faithful [Crypto] [WorkHash] (target : U256) :
    (target.toNat < 2 ^ 256 - 1 →
        (truncateTarget target).toNat = max 1 ((target.toNat + 1) / 2 ^ 192)) ∧
      (target.toNat = 2 ^ 256 - 1 → (truncateTarget target).toNat = 2 ^ 64 - 1) ∧
      (2 ^ 192 - 1 ≤ target.toNat → ∀ h : Header, meetsJobTarget h (truncateTarget target) = true →
        fromLEBytes (commitment h) ≤ target.toNat ∧
          (h.target = target → checkCommitment h ≠ .error .workTooLow)) ∧
      (missed target (truncateTarget target)).ncard ≤ 2 ^ 192 ∧
      (target.toNat ≠ 2 ^ 256 - 1 → (missed target (truncateTarget target)).ncard < 2 ^ 192) ∧
      (target.toNat < 2 ^ 192 - 1 → missed target (truncateTarget target) = ∅ ∧
        ∀ h : Header, fromLEBytes (commitment h) ≤ target.toNat →
          meetsJobTarget h (truncateTarget target) = true) := by
  have hlt := target.isLt
  have ht64 := to_nat_truncate_target target
  have hcard := ncard_missed_le target (truncateTarget target)
  have hcount : (missed target (truncateTarget target)).ncard ≤ 2 ^ 192 ∧
      (target.toNat ≠ 2 ^ 256 - 1 → (missed target (truncateTarget target)).ncard < 2 ^ 192) := by
    split_ifs at ht64 <;> omega
  have hnone : target.toNat < 2 ^ 192 - 1 → ∀ b : Bytes32, fromLEBytes b ≤ target.toNat →
      topLimb b < truncateTarget target := by
    intro hsmall b hle
    rw [if_neg (by omega)] at ht64
    rw [lt_iff_toNat_lt, top_limb_eq, ht64]
    omega
  refine ⟨fun h => by rw [ht64, if_neg (by omega)], fun h => by rw [ht64, if_pos h], ?_,
    hcount.1, hcount.2, fun h => ⟨?_, fun header hle => decide_eq_true (hnone h _ hle)⟩⟩
  · intro hlarge h hmeets
    have hbelow := of_decide_eq_true hmeets
    rw [jobTargetValue, lt_iff_toNat_lt, top_limb_eq] at hbelow
    have hle : fromLEBytes (commitment h) ≤ target.toNat := by
      split_ifs at ht64 <;> omega
    refine ⟨hle, ?_⟩
    rintro rfl
    rw [checkCommitment, if_neg (show ¬ fromLEBytes (commitment h) > _ by omega)]
    split_ifs <;> simp
  · exact eq_empty_of_forall_notMem fun b hb => hb.2 (hnone h b hb.1)

end Stratum

end Zycord
