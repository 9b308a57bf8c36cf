/-
The homes of all keys. The finalizer is a bijection of the words, so the mask shares the keys out
evenly: in a table of any capacity each slot is the home of as many keys as every other.
-/
import OrderBookEngine.Index.History
import Mathlib.Data.Int.CardIntervalMod

namespace Obe

/-! ## The finalizer is a bijection -/

/-- A word that is its own shift has no bits. -/
theorem eq_zero_of_shift {z k : UInt64} (hk : 0 < k.toNat % 64) (h : z = z >>> k) : z = 0 := by
  have hnat : z.toNat = z.toNat / 2 ^ (k.toNat % 64) := by
    have := congrArg UInt64.toNat h
    rwa [UInt64.toNat_shiftRight, Nat.shiftRight_eq_div_pow] at this
  have hpow : 1 < 2 ^ (k.toNat % 64) := Nat.one_lt_two_pow (by omega)
  rw [← UInt64.toNat_inj]
  by_contra hne
  have := Nat.div_lt_self (Nat.pos_of_ne_zero hne) hpow
  omega

/-- Each round of the finalizer can be undone: two words that it maps alike differ by their own shift. -/
theorem xor_shift_injective {k : UInt64} (hk : 0 < k.toNat % 64) : Function.Injective fun x : UInt64 => x ^^^ (x >>> k) := by
  intro x y h
  have hshift : x ^^^ y = (x ^^^ y) >>> k := by
    rw [UInt64.shiftRight_xor]
    calc x ^^^ y = (x ^^^ (x >>> k)) ^^^ (x >>> k) ^^^ y := by
          rw [UInt64.xor_assoc x, UInt64.xor_self, UInt64.xor_zero]
      _ = (y ^^^ (y >>> k)) ^^^ (x >>> k) ^^^ y := by rw [show x ^^^ (x >>> k) = y ^^^ (y >>> k) from h]
      _ = (x >>> k) ^^^ (y >>> k) := by
        rw [UInt64.xor_comm y, UInt64.xor_assoc, UInt64.xor_assoc, UInt64.xor_comm y, UInt64.xor_assoc,
          UInt64.xor_self, UInt64.xor_zero, UInt64.xor_comm]
  exact UInt64.xor_eq_zero_iff.1 (eq_zero_of_shift hk hshift)

theorem mul_injective {c d : UInt64} (h : c * d = 1) : Function.Injective fun x : UInt64 => x * c := by
  intro x y hxy
  have := congrArg (· * d) hxy
  simpa only [UInt64.mul_assoc, h, UInt64.mul_one] using this

theorem scramble_injective : Function.Injective scramble := by
  have h30 := xor_shift_injective (k := 30) (by decide)
  have h27 := xor_shift_injective (k := 27) (by decide)
  have h31 := xor_shift_injective (k := 31) (by decide)
  -- both factors are odd
  have hmul := mul_injective (c := 0xbf58476d1ce4e5b9) (d := 0x96de1b173f119089) (by decide)
  have hmul' := mul_injective (c := 0x94d049bb133111eb) (d := 0x319642b2d24d8ec3) (by decide)
  exact h31.comp (hmul'.comp (h27.comp (hmul.comp h30)))

/-- The finalizer permutes the words. -/
theorem scramble_bijective : Function.Bijective scramble := by
  have : Finite UInt64 := Finite.of_injective UInt64.toFin fun x y h => UInt64.toFin_inj.1 h
  exact Finite.injective_iff_bijective.1 scramble_injective

/-! ## Counting -/

/-- A permutation of the numbers below `n` leaves as many of them with a property. -/
theorem card_filter_permuted {n : Nat} {g : Nat → Nat} (hg : ∀ x < n, g x < n)
    (hinj : ∀ x < n, ∀ y < n, g x = g y → x = y) (p : Nat → Prop) [DecidablePred p] :
    ((Finset.range n).filter fun x => p (g x)).card = ((Finset.range n).filter p).card := by
  have hsurj := Finset.surj_on_of_inj_on_of_card_le (s := Finset.range n) (t := Finset.range n) (fun x _ => g x)
    (fun x hx => Finset.mem_range.2 (hg x (Finset.mem_range.1 hx)))
    (fun x y hx hy => hinj x (Finset.mem_range.1 hx) y (Finset.mem_range.1 hy)) (Nat.le_refl _)
  refine Finset.card_bij (fun x _ => g x) (fun x hx => ?_) (fun x hx y hy h => ?_) fun y hy => ?_
  · obtain ⟨hxn, hp⟩ := Finset.mem_filter.1 hx
    exact Finset.mem_filter.2 ⟨Finset.mem_range.2 (hg x (Finset.mem_range.1 hxn)), hp⟩
  · exact hinj x (Finset.mem_range.1 (Finset.mem_filter.1 hx).1) y (Finset.mem_range.1 (Finset.mem_filter.1 hy).1) h
  · obtain ⟨hyn, hp⟩ := Finset.mem_filter.1 hy
    obtain ⟨x, hx, rfl⟩ := hsurj y hyn
    exact ⟨x, Finset.mem_filter.2 ⟨hx, hp⟩, rfl⟩

/-- A residue is taken by one of every `c` numbers. -/
theorem card_residue {c n i : Nat} (hi : i < c) (hdvd : c ∣ n) :
    ((Finset.range n).filter fun x => x % c = i).card = n / c := by
  have hcount := Nat.count_modEq_card n (Nat.zero_lt_of_lt hi) i
  rw [Nat.count_eq_card_filter_range, Nat.mod_eq_zero_of_dvd hdvd, if_neg (Nat.not_lt_zero _), Nat.add_zero] at hcount
  rw [← hcount]
  refine congrArg Finset.card (Finset.filter_congr fun x _ => ?_)
  rw [Nat.ModEq, Nat.mod_eq_of_lt hi]

namespace FlatHashMap

variable {Value : Type}

/-- The keys whose home is the slot `i`. -/
def keysAt (m : FlatHashMap UInt64 Value) (i : Nat) : Finset Nat :=
  (Finset.range (2 ^ 64)).filter fun x => m.home (UInt64.ofNat x) = i

theorem Layout.capacity_dvd {m : FlatHashMap UInt64 Value} (h : m.Layout) (hcap : m.capacity ≤ 2 ^ 64) :
    m.capacity ∣ 2 ^ 64 := by
  obtain ⟨k, hk⟩ := h.cap
  rw [hk] at hcap ⊢
  exact Nat.pow_dvd_pow 2 ((Nat.pow_le_pow_iff_right (by decide)).1 hcap)

theorem Layout.card_keysAt {m : FlatHashMap UInt64 Value} (h : m.Layout) (hcap : m.capacity ≤ 2 ^ 64) {i : Nat}
    (hi : i < m.capacity) : (m.keysAt i).card * m.capacity = 2 ^ 64 := by
  have hdvd := h.capacity_dvd hcap
  have hperm := @card_filter_permuted (2 ^ 64) (fun x => (scramble (UInt64.ofNat x)).toNat)
    (fun x _ => (scramble _).toNat_lt) (fun x hx y hy hxy => by
      have := congrArg UInt64.toNat (scramble_injective (UInt64.toNat_inj.1 hxy))
      rwa [UInt64.toNat_ofNat_of_lt' hx, UInt64.toNat_ofNat_of_lt' hy] at this)
    (fun y => y % m.capacity = i) _
  have hhome : m.keysAt i = (Finset.range (2 ^ 64)).filter fun x =>
      (scramble (UInt64.ofNat x)).toNat % m.capacity = i := by
    refine Finset.filter_congr fun x _ => ?_
    unfold home
    rw [h.and_mask]
  rw [hhome, hperm, card_residue hi hdvd, Nat.div_mul_cancel hdvd]

/-- **No slot is favoured.** The finalizer permutes the keys, and however a table came to its capacity, each of
its slots is the home of the same number of keys, out of all there are. -/
theorem homes_balanced {c : UInt64} (h : c.toNat ≤ 2 ^ 63) [Inhabited Value] (calls : List (Call Value)) :
    Function.Bijective scramble ∧
      ∃ m rets, ((ofCapacity c).bind fun m₀ => Machine.run call m₀ calls) = some (m, rets) ∧
        (m.capacity ≤ 2 ^ 64 → ∀ i < m.capacity, (m.keysAt i).card * m.capacity = 2 ^ 64) := by
  obtain ⟨m, rets, hrun, hR⟩ := run_represents h calls
  exact ⟨scramble_bijective, m, rets, hrun, fun hcap i hi => hR.wf.layout.card_keysAt hcap hi⟩

theorem homes_balanced_sixteen : Function.Bijective scramble ∧
    ∃ m rets, ((ofCapacity 16).bind fun m₀ => Machine.run call m₀ [.insert 1 (10 : Nat), .erase 1]) = some (m, rets) ∧
      (m.capacity ≤ 2 ^ 64 → ∀ i < m.capacity, (m.keysAt i).card * m.capacity = 2 ^ 64) :=
  homes_balanced (c := 16) (by decide) _

end FlatHashMap

end Obe
