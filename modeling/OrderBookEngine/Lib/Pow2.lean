/-
Powers of two in 64-bit words: filling a number with ones below its leading bit by doubling
shifts, and reducing modulo a power of two by a mask. Counters that run freely through the word
are compared by their difference and spread over a ring by the mask. Numbers too large for the
word are compared by their residues, rightly or not.
-/
import Mathlib.Data.Nat.Bitwise
import Mathlib.Data.Nat.Log
import Mathlib.Data.UInt

namespace Pow2

/-! ## Filling below the leading bit -/

/-- Bit `j` of `w` is set when one of the `n` bits of `v` from `j` upwards is. -/
def Smeared (n v w : Nat) : Prop := ∀ j, w.testBit j = true ↔ ∃ k < n, v.testBit (j + k) = true

theorem smeared_one (v : Nat) : Smeared 1 v v := by
  intro j
  constructor
  · intro h; exact ⟨0, by omega, h⟩
  · rintro ⟨k, hk, h⟩
    obtain rfl : k = 0 := by omega
    exact h

/-- One step doubles the reach: `v |= v >> n`. -/
theorem Smeared.step {n v w : Nat} (h : Smeared n v w) : Smeared (n + n) v (w ||| w >>> n) := by
  intro j
  rw [Nat.testBit_or, Nat.testBit_shiftRight, Bool.or_eq_true, h j, h (n + j)]
  constructor
  · rintro (⟨k, hk, hb⟩ | ⟨k, hk, hb⟩)
    · exact ⟨k, by omega, hb⟩
    · exact ⟨n + k, by omega, by rwa [show j + (n + k) = n + j + k by omega]⟩
  · rintro ⟨k, hk, hb⟩
    by_cases hkn : k < n
    · exact .inl ⟨k, hkn, hb⟩
    · exact .inr ⟨k - n, by omega, by rwa [show n + j + (k - n) = j + k by omega]⟩

/-- Filled over all its bits, a positive number is one below the power of two above it. -/
theorem Smeared.eq {n v w : Nat} (h : Smeared n v w) (h0 : v ≠ 0) (hv : v < 2 ^ n) :
    w = 2 ^ (Nat.log 2 v + 1) - 1 := by
  have hlt : v < 2 ^ (Nat.log 2 v + 1) := Nat.lt_pow_succ_log_self (by omega) v
  have htop : v.testBit (Nat.log 2 v) = true := by
    rw [← Nat.log2_eq_log_two]
    exact Nat.testBit_log2 h0
  have hn : Nat.log 2 v < n := Nat.log_lt_of_lt_pow h0 hv
  apply Nat.eq_of_testBit_eq
  intro j
  rw [Nat.testBit_two_pow_sub_one, Bool.eq_iff_iff, h j, decide_eq_true_iff]
  constructor
  · rintro ⟨k, -, hb⟩
    by_contra hj
    rw [Nat.testBit_lt_two_pow (lt_of_lt_of_le hlt (Nat.pow_le_pow_right (by omega) (by omega)))] at hb
    cases hb
  · intro hj
    exact ⟨Nat.log 2 v - j, by omega, by rwa [show j + (Nat.log 2 v - j) = Nat.log 2 v by omega]⟩

/-- The double of the power of two below `n` is the least one from `n + 1` on. -/
theorem two_pow_log_succ_le {n j : Nat} (h0 : n ≠ 0) (h : n < 2 ^ j) : 2 ^ (Nat.log 2 n + 1) ≤ 2 ^ j :=
  Nat.pow_le_pow_right (by omega) (Nat.log_lt_of_lt_pow h0 h)

/-! ## Masks -/

theorem and_mask (x k : Nat) : x &&& (2 ^ k - 1) = x % 2 ^ k := Nat.and_two_pow_sub_one_eq_mod x k

/-- Of two powers of two the smaller divides the larger. -/
theorem two_pow_dvd_of_le {a b : Nat} (h : 2 ^ a ≤ 2 ^ b) : 2 ^ a ∣ 2 ^ b :=
  Nat.pow_dvd_pow 2 ((Nat.pow_le_pow_iff_right (by omega)).1 h)

theorem two_pow_dvd_word {k : Nat} (hk : k ≤ 64) : 2 ^ k ∣ 2 ^ 64 := Nat.pow_dvd_pow 2 hk

/-! ## Residues in place of numbers -/

/-- Residues compare as the numbers do exactly when the numbers have one quotient, or their
quotients compare as the residues do. -/
theorem mod_lt_mod_iff (a b w : Nat) :
    (b % w < a % w ↔ b < a) ↔ (a / w = b / w ∨ (b / w < a / w ↔ b % w < a % w)) := by
  have ha := Nat.div_add_mod a w
  have hb := Nat.div_add_mod b w
  rcases Nat.eq_zero_or_pos w with rfl | hw
  · simp
  have ha' := Nat.mod_lt a hw
  have hb' := Nat.mod_lt b hw
  rcases Nat.lt_trichotomy (a / w) (b / w) with hq | hq | hq
  · have hlt : a < b := by
      have := Nat.mul_le_mul_left w hq
      rw [Nat.mul_succ] at this
      omega
    omega
  · rw [hq] at ha
    omega
  · have hlt : b < a := by
      have := Nat.mul_le_mul_left w hq
      rw [Nat.mul_succ] at this
      omega
    omega

/-- Against a number of the word: either nothing wrapped, or the residue is still above it. -/
theorem lt_mod_iff {a b w : Nat} (hb : b < w) : (b < a % w ↔ b < a) ↔ (a < w ∨ b < a % w) := by
  have h := mod_lt_mod_iff a b w
  rw [Nat.mod_eq_of_lt hb, Nat.div_eq_of_lt hb, Nat.div_eq_zero_iff] at h
  have hpos : 0 < a / w ↔ ¬ a < w := by
    rw [Nat.pos_iff_ne_zero, ne_eq, Nat.div_eq_zero_iff]
    omega
  rw [h, hpos]
  omega

/-- The sum is not below one of its terms exactly when that term is added without a carry. -/
theorem le_sum_mod_iff {others r w : Nat} (hr : r < w) : r ≤ (r + others) % w ↔ others % w + r < w := by
  have hlt : others % w < w := Nat.mod_lt _ (by omega)
  rw [Nat.add_mod, Nat.mod_eq_of_lt hr]
  by_cases hc : r + others % w < w
  · rw [Nat.mod_eq_of_lt hc]
    omega
  · rw [Nat.mod_eq_sub_mod (by omega), Nat.mod_eq_of_lt (by omega)]
    omega

/-! ## Free-running counters -/

/-- The difference of two counters, through the wrap. -/
theorem ofNat_sub_toNat {a b : Nat} (h : a ≤ b) (hlt : b - a < 2 ^ 64) :
    (UInt64.ofNat b - UInt64.ofNat a).toNat = b - a := by
  rw [← UInt64.ofNat_sub h, UInt64.toNat_ofNat_of_lt' hlt]

/-- A counter less one that is ahead of it comes out from the top of the word. -/
theorem ofNat_sub_toNat_wrap {a b : Nat} (h : a < b) (hlt : b - a < 2 ^ 64) :
    (UInt64.ofNat a - UInt64.ofNat b).toNat = 2 ^ 64 - (b - a) := by
  rw [UInt64.toNat_sub, UInt64.toNat_ofNat', UInt64.toNat_ofNat']
  omega

/-- Counters less than a word apart are equal only when the counts are. -/
theorem ofNat_inj_of_near {a b : Nat} (h : a ≤ b) (hlt : b - a < 2 ^ 64) :
    UInt64.ofNat a = UInt64.ofNat b ↔ a = b := by
  constructor
  · intro he
    have := ofNat_sub_toNat h hlt
    rw [he, UInt64.sub_self] at this
    have h0 : (0 : UInt64).toNat = 0 := rfl
    omega
  · rintro rfl; rfl

theorem ofNat_succ (n : Nat) : UInt64.ofNat n + 1 = UInt64.ofNat (n + 1) := (UInt64.ofNat_add n 1).symm

/-- The mask of a power of two takes a counter modulo it. -/
theorem mask_toNat {c : UInt64} {k : Nat} (hk : k ≤ 63) (hc : c.toNat = 2 ^ k) (n : Nat) :
    (UInt64.ofNat n &&& (c - 1)).toNat = n % 2 ^ k := by
  have hpos : 0 < 2 ^ k := Nat.two_pow_pos k
  have hmask : (c - 1).toNat = 2 ^ k - 1 := by
    rw [UInt64.toNat_sub_of_le _ _ (by rw [UInt64.le_iff_toNat_le, hc]; exact hpos), hc]; rfl
  rw [UInt64.toNat_and, hmask, and_mask, UInt64.toNat_ofNat', Nat.mod_mod_of_dvd _ (two_pow_dvd_word (by omega))]

/-- In a word, the mask of a power of two is the remainder. -/
theorem and_pred_toNat {c : UInt64} {k : Nat} (hk : k ≤ 63) (hc : c.toNat = 2 ^ k) (x : UInt64) :
    (x &&& (c - 1)).toNat = x.toNat % c.toNat := by
  have := mask_toNat hk hc x.toNat
  rwa [UInt64.ofNat_toNat, ← hc] at this

/-- The next place on the ring is the place of the next index, also where the index wraps. -/
theorem and_pred_succ {c : UInt64} {k : Nat} (hk : k ≤ 63) (hc : c.toNat = 2 ^ k) (x : UInt64) :
    ((x + 1) &&& (c - 1)).toNat = ((x &&& (c - 1)).toNat + 1) % c.toNat := by
  have hx : x + 1 = UInt64.ofNat (x.toNat + 1) := by rw [← ofNat_succ, UInt64.ofNat_toNat]
  rw [and_pred_toNat hk hc x, hx, mask_toNat hk hc, hc, Nat.mod_add_mod]

/-- Within one turn of the ring, counters have places of their own. -/
theorem mask_ne {c : UInt64} {k m n : Nat} (hk : k ≤ 63) (hc : c.toNat = 2 ^ k) (h : m < n) (hn : n < m + 2 ^ k) :
    UInt64.ofNat m &&& (c - 1) ≠ UInt64.ofNat n &&& (c - 1) := by
  intro he
  have hmod : m % 2 ^ k = n % 2 ^ k := by rw [← mask_toNat hk hc m, ← mask_toNat hk hc n, he]
  have hdvd : 2 ^ k ∣ n - m := (Nat.modEq_iff_dvd' (Nat.le_of_lt h)).1 hmod
  have := Nat.le_of_dvd (by omega) hdvd
  omega

end Pow2
