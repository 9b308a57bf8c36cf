/-
The limits of the gate against their meaning: price times quantity and distance from the reference
as numbers, not as words. The words decide as the numbers do unless a product wraps; when it does,
an order beyond the limit can pass.
-/
import OrderBookEngine.Engine.RiskControls
import OrderBookEngine.Lib.Pow2

namespace Obe

variable {m : RiskManager} {id : OrderId} {side : Side} {price ref : Price} {qty : Quantity}
  {reference : Option Price}

theorem toNat_toUInt64 {p : Price} (hp : 0 ≤ p) : (p.toUInt64.toNat : Int) = p.toInt := by
  have h0 : 0 ≤ p.toInt := Int64.le_iff_toInt_le.1 hp
  rw [Int64.toNat_toUInt64_of_le hp]
  exact Int.toNat_of_nonneg h0

/-! ## Notional -/

namespace RiskConfig

/-- The word `check` compares is the product modulo `2 ^ 64`. -/
theorem overNotional_iff {cfg : RiskConfig} (hn : 0 < cfg.maxNotional) :
    cfg.overNotional price qty = true ↔ cfg.maxNotional.toNat < price.toUInt64.toNat * qty.toNat % 2 ^ 64 := by
  have hne : cfg.maxNotional ≠ 0 := UInt64.pos_iff_ne_zero.1 hn
  unfold overNotional notional
  simp only [ne_eq, hne, not_false_eq_true, decide_true, Bool.true_and, decide_eq_true_eq]
  rw [gt_iff_lt, UInt64.lt_iff_toNat_lt, UInt64.toNat_mul]

end RiskConfig

namespace RiskManager

/-- With the kill switch off and the size in order, the notional limit is the first to decide. -/
theorem check_notional (hk : m.killSwitch = false) (hs : m.cfg.maxOrderSize = 0 ∨ qty ≤ m.cfg.maxOrderSize) :
    ((m.check id side price qty reference).2 = .maxNotional ↔ m.cfg.overNotional price qty = true) ∧
      ((m.check id side price qty reference).2 = .accepted → m.cfg.overNotional price qty = false) := by
  have hsize : m.cfg.overSize qty = false := by
    unfold RiskConfig.overSize
    rcases hs with hs | hs
    · simp [hs]
    · simp [UInt64.not_lt.2 hs]
  unfold check
  rw [hk, hsize]
  cases hn : m.cfg.overNotional price qty with
  | true => simp
  | false =>
    simp only [Bool.false_eq_true, if_false, iff_false, implies_true, and_true]
    split
    · simp
    · split
      · split <;> simp
      · simp

/-- **The notional limit caps price times quantity** exactly when the product fits in the word, or
wraps to a residue that is still above the cap. -/
theorem notional_exact_iff (hk : m.killSwitch = false) (hs : m.cfg.maxOrderSize = 0 ∨ qty ≤ m.cfg.maxOrderSize)
    (hn : 0 < m.cfg.maxNotional) (hp : 0 ≤ price) :
    (((m.check id side price qty reference).2 = .maxNotional ↔
        (m.cfg.maxNotional.toNat : Int) < price.toInt * qty.toNat) ∧
      ((m.check id side price qty reference).2 = .accepted →
        price.toInt * qty.toNat ≤ (m.cfg.maxNotional.toNat : Int))) ↔
      (price.toInt * qty.toNat < 2 ^ 64 ∨ (m.cfg.maxNotional.toNat : Int) < price.toInt * qty.toNat % 2 ^ 64) := by
  obtain ⟨hmax, hacc⟩ := @check_notional m id side price qty reference hk hs
  have hover := @RiskConfig.overNotional_iff price qty m.cfg hn
  have hword := @Pow2.lt_mod_iff (price.toUInt64.toNat * qty.toNat) m.cfg.maxNotional.toNat (2 ^ 64)
    m.cfg.maxNotional.toNat_lt
  rw [hmax, hover, ← toNat_toUInt64 hp, ← Int.natCast_mul]
  rw [← Bool.not_eq_true, hover] at hacc
  generalize price.toUInt64.toNat * qty.toNat = product at hword hacc
  constructor
  · rintro ⟨h, -⟩
    have := hword.1 (by omega)
    omega
  · intro h
    have hexact := hword.2 (by omega)
    refine ⟨by omega, fun ha => ?_⟩
    have := hacc ha
    omega

theorem notional_exact_iff_small :
    (((RiskManager.create { RiskConfig.new with maxNotional := 1000000 }).check 1 .buy 100 10001 none).2 = .maxNotional ↔
        (1000000 : Int) < 100 * 10001) ∧
      (((RiskManager.create { RiskConfig.new with maxNotional := 1000000 }).check 1 .buy 100 10001 none).2 = .accepted →
        (100 * 10001 : Int) ≤ 1000000) :=
  (@notional_exact_iff (.create { RiskConfig.new with maxNotional := 1000000 }) 1 .buy 100 10001 none rfl (.inl rfl)
    (by decide) (by decide)).2 (.inl (by decide))

/-- A product of `2 ^ 64` wraps to zero and passes every cap. -/
theorem notional_wraps :
    ((RiskManager.create { RiskConfig.new with maxNotional := 1000000 }).check 1 .buy 4294967296 4294967296 none).2 =
        .accepted ∧ (1000000 : Int) < (4294967296 : Price).toInt * (4294967296 : Quantity).toNat := by
  constructor
  · decide
  · decide

end RiskManager

/-! ## Collar -/

namespace RiskConfig

/-- The distance of two prices, as a number. -/
def distance (price ref : Price) : Nat := (price.toInt - ref.toInt).natAbs

/-- The signed difference is the distance unless it overflows. -/
theorem diff_toInt (hr : 0 < ref) : (diff price ref).toInt = distance price ref ↔ distance price ref < 2 ^ 63 := by
  have hr' : 0 < ref.toInt := Int64.lt_iff_toInt_lt.1 hr
  have hlow := price.le_toInt
  have hhigh := price.toInt_lt
  have hhigh' := ref.toInt_lt
  unfold diff distance
  by_cases hgt : price > ref
  · -- a price above a positive reference leaves no room to overflow
    have hlt : ref.toInt < price.toInt := Int64.lt_iff_toInt_lt.1 hgt
    rw [if_pos hgt, Int64.toInt_sub_of_le _ _ (Int64.le_of_lt hr) (Int64.le_of_lt hgt)]
    omega
  · -- a price below zero may be more than a word away
    have hle : price.toInt ≤ ref.toInt := Int64.le_iff_toInt_le.1 (Int64.not_lt.1 hgt)
    rw [if_neg hgt, Int64.toInt_sub, Int.bmod_def]
    split <;> omega

/-- The words `check` compares are the two products modulo `2 ^ 64`. -/
theorem outsideCollar_iff {cfg : RiskConfig} (hc : 0 < cfg.collarBps) (hr : 0 < ref)
    (hd : distance price ref < 2 ^ 63) :
    cfg.outsideCollar price (some ref) = true ↔
      cfg.collarBps.toNat * ref.toInt.toNat % 2 ^ 64 < distance price ref * 10000 % 2 ^ 64 := by
  have hne : cfg.collarBps ≠ 0 := UInt32.pos_iff_ne_zero.1 hc
  have href : (ref.toUInt64.toNat : Int) = ref.toInt := toNat_toUInt64 (Int64.le_of_lt hr)
  have hdiff := (@diff_toInt price ref hr).2 hd
  have hpos : 0 ≤ diff price ref := by
    rw [Int64.le_iff_toInt_le, hdiff]
    exact Int.natCast_nonneg _
  have hword : (diff price ref).toUInt64.toNat = distance price ref := by
    have := toNat_toUInt64 hpos
    omega
  have hreft : ref.toUInt64.toNat = ref.toInt.toNat := by omega
  unfold outsideCollar
  simp only [ne_eq, hne, not_false_eq_true, decide_true, Bool.true_and, decide_eq_true_eq, gt_iff_lt, hr]
  rw [UInt64.lt_iff_toNat_lt, UInt64.toNat_mul, UInt64.toNat_mul, hword, hreft, UInt32.toNat_toUInt64]
  rfl

end RiskConfig

namespace RiskManager

/-- With the other limits off, the collar is the first to decide. -/
theorem check_collar (hk : m.killSwitch = false) (hs : m.cfg.maxOrderSize = 0) (hn : m.cfg.maxNotional = 0) :
    (m.check id side price qty reference).2 = .priceCollar ↔ m.cfg.outsideCollar price reference = true := by
  have hsize : m.cfg.overSize qty = false := by simp [RiskConfig.overSize, hs]
  have hnot : m.cfg.overNotional price qty = false := by simp [RiskConfig.overNotional, hn]
  unfold check
  rw [hk, hsize, hnot]
  cases hc : m.cfg.outsideCollar price reference with
  | true => simp
  | false =>
    simp only [Bool.false_eq_true, if_false, iff_false]
    split
    · split <;> simp
    · simp

/-- **The collar is a distance in basis points of the reference** exactly when the difference does
not overflow and the two products wrap alike: the same number of times, or to residues that compare
as these numbers do. -/
theorem collar_exact_iff (hk : m.killSwitch = false) (hs : m.cfg.maxOrderSize = 0) (hn : m.cfg.maxNotional = 0)
    (hc : 0 < m.cfg.collarBps) (hr : 0 < ref) :
    (((m.check id side price qty (some ref)).2 = .priceCollar ↔
        m.cfg.collarBps.toNat * ref.toInt.toNat < RiskConfig.distance price ref * 10000) ∧
      (RiskConfig.diff price ref).toInt = RiskConfig.distance price ref) ↔
      (RiskConfig.distance price ref < 2 ^ 63 ∧
        (RiskConfig.distance price ref * 10000 / 2 ^ 64 = m.cfg.collarBps.toNat * ref.toInt.toNat / 2 ^ 64 ∨
          (m.cfg.collarBps.toNat * ref.toInt.toNat / 2 ^ 64 < RiskConfig.distance price ref * 10000 / 2 ^ 64 ↔
            m.cfg.collarBps.toNat * ref.toInt.toNat % 2 ^ 64 < RiskConfig.distance price ref * 10000 % 2 ^ 64))) := by
  rw [check_collar hk hs hn, RiskConfig.diff_toInt hr, and_comm]
  refine and_congr_right fun hd => ?_
  rw [RiskConfig.outsideCollar_iff hc hr hd]
  exact Pow2.mod_lt_mod_iff _ _ _

theorem collar_exact_iff_percent :
    (((RiskManager.create { RiskConfig.new with collarBps := 100 }).check 1 .sell 9899 1 (some 10000)).2 = .priceCollar ↔
        (100 : UInt32).toNat * (10000 : Price).toInt.toNat < RiskConfig.distance 9899 10000 * 10000) ∧
      (RiskConfig.diff 9899 10000).toInt = RiskConfig.distance 9899 10000 :=
  (@collar_exact_iff (.create { RiskConfig.new with collarBps := 100 }) 1 .sell 9899 10000 1 rfl rfl rfl (by decide)
    (by decide)).2 ⟨by decide, .inl (by decide)⟩

/-- A price `2 ^ 60` above a reference of 100: the scaled distance wraps to zero. -/
theorem collar_wraps :
    ((RiskManager.create { RiskConfig.new with collarBps := 500 }).check 1 .buy 1152921504606847076 1 (some 100)).2 =
        .accepted ∧
      (500 : UInt32).toNat * (100 : Price).toInt.toNat < RiskConfig.distance 1152921504606847076 100 * 10000 := by
  constructor
  · decide
  · decide

end RiskManager

end Obe
