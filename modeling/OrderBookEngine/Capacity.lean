/-
Table and queue capacities: `round_up_pow2`, the same static function in `FlatHashMap.hpp` and
`RingBuffer.hpp`. Up to 2^63 it returns the least power of two that is at least its argument
and at least 2.
-/
import OrderBookEngine.Lib.Pow2

namespace Obe

/-- One round `v |= v >> i` of the loop of `round_up_pow2`. -/
def smear (v i : UInt64) : UInt64 := v ||| (v >>> i)

/-- `round_up_pow2`; the loop shifts by `i = 1, 2, 4, …` while `i < 64`, and the last increment
wraps above 2^63. -/
def roundUpPow2 (v : UInt64) : UInt64 :=
  if v < 2 then 2 else [1, 2, 4, 8, 16, 32].foldl smear (v - 1) + 1

example : [5, 16, 1, 0].map roundUpPow2 = [8, 16, 2, 2] := by decide

theorem smear_toNat {v i : UInt64} (hi : i.toNat < 64) : (smear v i).toNat = v.toNat ||| v.toNat >>> i.toNat := by
  unfold smear
  rw [UInt64.toNat_or, UInt64.toNat_shiftRight, Nat.mod_eq_of_lt hi]

theorem smear_all (v : UInt64) :
    Pow2.Smeared 64 v.toNat ([1, 2, 4, 8, 16, 32].foldl smear v).toNat := by
  have h1 := (Pow2.smeared_one v.toNat).step
  have h2 := h1.step
  have h4 := h2.step
  have h8 := h4.step
  have h16 := h8.step
  have h32 := h16.step
  simp only [List.foldl_cons, List.foldl_nil, smear_toNat, UInt64.reduceToNat, Nat.reduceLT]
  exact h32

/-- `round_up_pow2` brackets its argument between a power of two and its double. -/
theorem roundUpPow2_log {v : UInt64} (h2 : 2 ≤ v.toNat) (hv : v.toNat ≤ 2 ^ 63) :
    (roundUpPow2 v).toNat = 2 ^ (Nat.log 2 (v.toNat - 1) + 1) := by
  have hge : ¬ v < 2 := by rw [UInt64.lt_iff_toNat_lt]; simp only [UInt64.reduceToNat]; omega
  have hsub : (v - 1).toNat = v.toNat - 1 := by
    rw [UInt64.toNat_sub_of_le _ _ (by rw [UInt64.le_iff_toNat_le]; simp only [UInt64.reduceToNat]; omega)]
    rfl
  have hs := (smear_all (v - 1)).eq (by omega) (by omega)
  have hlog : Nat.log 2 (v.toNat - 1) < 63 := Nat.log_lt_of_lt_pow (by omega) (by omega)
  have hpow : 2 ^ (Nat.log 2 (v.toNat - 1) + 1) ≤ 2 ^ 63 := Nat.pow_le_pow_right (by omega) (by omega)
  have hpos : 0 < 2 ^ (Nat.log 2 (v.toNat - 1) + 1) := Nat.two_pow_pos _
  unfold roundUpPow2
  rw [if_neg hge, UInt64.toNat_add, hs, hsub]
  simp only [UInt64.reduceToNat]
  omega

theorem roundUpPow2_small {v : UInt64} (h2 : v.toNat < 2) : roundUpPow2 v = 2 := by
  unfold roundUpPow2
  rw [if_pos (by rw [UInt64.lt_iff_toNat_lt]; simpa using h2)]

/-- Above 2^63 the increment wraps. -/
theorem roundUpPow2_wrap {v : UInt64} (hv : 2 ^ 63 < v.toNat) : roundUpPow2 v = 0 := by
  have hlt := v.toNat_lt
  have hge : ¬ v < 2 := by rw [UInt64.lt_iff_toNat_lt]; simp only [UInt64.reduceToNat]; omega
  have hsub : (v - 1).toNat = v.toNat - 1 := by
    rw [UInt64.toNat_sub_of_le _ _ (by rw [UInt64.le_iff_toNat_le]; simp only [UInt64.reduceToNat]; omega)]
    rfl
  have hs := (smear_all (v - 1)).eq (by omega) (by omega)
  have hlog : Nat.log 2 (v.toNat - 1) = 63 := Nat.log_eq_of_pow_le_of_lt_pow (by omega) (by omega)
  rw [hsub, hlog] at hs
  unfold roundUpPow2
  rw [if_neg hge]
  apply UInt64.toNat_inj.1
  rw [UInt64.toNat_add, hs]
  rfl

/-- The result is a power of two between 2 and 2^63, and at least the argument. -/
theorem roundUpPow2_spec {v : UInt64} (hv : v.toNat ≤ 2 ^ 63) :
    ∃ k, 1 ≤ k ∧ k ≤ 63 ∧ (roundUpPow2 v).toNat = 2 ^ k ∧ v.toNat ≤ 2 ^ k := by
  by_cases h2 : v.toNat < 2
  · exact ⟨1, by omega, by omega, by rw [roundUpPow2_small h2]; rfl, by omega⟩
  · refine ⟨Nat.log 2 (v.toNat - 1) + 1, by omega, ?_, roundUpPow2_log (by omega) hv, ?_⟩
    · have : Nat.log 2 (v.toNat - 1) < 63 := Nat.log_lt_of_lt_pow (by omega) (by omega)
      omega
    · have := Nat.lt_pow_succ_log_self (b := 2) (by omega) (v.toNat - 1)
      omega

theorem roundUpPow2_le {v : UInt64} (hv : v.toNat ≤ 2 ^ 63) {j : Nat} (hj : max v.toNat 2 ≤ 2 ^ j) :
    (roundUpPow2 v).toNat ≤ 2 ^ j := by
  by_cases h2 : v.toNat < 2
  · rw [roundUpPow2_small h2]
    exact le_trans (le_max_right ..) hj
  · have hlt : v.toNat - 1 < 2 ^ j := by
      have := le_trans (le_max_left ..) hj
      omega
    rw [roundUpPow2_log (by omega) hv]
    exact Pow2.two_pow_log_succ_le (by omega) hlt

/-- The capacity asked for by `v` is the least that will do, and its mask walks the slots in a ring
for every index of the word. -/
theorem roundUpPow2_ring {v : UInt64} (hv : v.toNat ≤ 2 ^ 63) :
    IsLeast { c | (∃ k, c = 2 ^ k) ∧ max v.toNat 2 ≤ c } (roundUpPow2 v).toNat ∧
      ∀ x : UInt64, (x &&& (roundUpPow2 v - 1)).toNat = x.toNat % (roundUpPow2 v).toNat ∧
        ((x + 1) &&& (roundUpPow2 v - 1)).toNat =
          ((x &&& (roundUpPow2 v - 1)).toNat + 1) % (roundUpPow2 v).toNat := by
  obtain ⟨k, h1, h63, hp, hge⟩ := roundUpPow2_spec hv
  have h2 : 2 ≤ 2 ^ k := Nat.le_self_pow (by omega) 2
  refine ⟨⟨⟨⟨k, hp⟩, ?_⟩, ?_⟩, fun x => ⟨Pow2.and_pred_toNat h63 hp x, Pow2.and_pred_succ h63 hp x⟩⟩
  · rw [hp]
    exact max_le hge h2
  · rintro c ⟨⟨j, rfl⟩, hj⟩
    exact roundUpPow2_le hv hj

/-- Five elements ask for eight slots, and the slot after that of the last index is the first. -/
theorem roundUpPow2_ring_five : (∀ k, max 5 2 ≤ 2 ^ k → (roundUpPow2 5).toNat ≤ 2 ^ k) ∧
    (((18446744073709551615 : UInt64) + 1) &&& (roundUpPow2 5 - 1)).toNat = 0 := by
  obtain ⟨hleast, hring⟩ := roundUpPow2_ring (v := 5) (by decide)
  refine ⟨fun k hk => hleast.2 ⟨⟨k, rfl⟩, hk⟩, ?_⟩
  rw [(hring 18446744073709551615).2]
  decide

end Obe
