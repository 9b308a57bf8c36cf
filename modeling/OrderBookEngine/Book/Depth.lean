/-
Depth queries against the orders they add up. `quantity_at` is a word: the sum of the remainders at a
price modulo `2 ^ 64`. It is below one of them exactly when adding that one to the others wraps.
-/
import OrderBookEngine.Book.Events
import Mathlib.Algebra.Order.BigOperators.Group.List
import Mathlib.Algebra.Order.Group.Nat

namespace Obe

/-- The orders that rest at a price. -/
def Sides.level (s : Sides) (side : Side) (price : Price) : List OrderData := (s.own side).filter (·.price = price)

/-- The answer of a depth query does not hide an order. -/
def Shows (orders : List OrderData) (quantity : Quantity) : Prop :=
  (∀ o ∈ orders, o.remaining ≤ quantity) ∧ (quantity = 0 ↔ orders = [])

/-- The remainder of each order fits beside the others' total in a word. -/
def NoCarry (orders : List OrderData) : Prop :=
  ∀ o ∈ orders, openQuantity (orders.erase o) % 2 ^ 64 + o.remaining.toNat < 2 ^ 64

/-- The sum of words is the sum of their values, modulo the word. -/
theorem sum_remaining_toNat (orders : List OrderData) :
    ((orders.map OrderData.remaining).sum).toNat = openQuantity orders % 2 ^ 64 := by
  induction orders with
  | nil => rfl
  | cons o orders ih =>
    rw [List.map_cons, List.sum_cons, UInt64.toNat_add, ih]
    show _ = (o.remaining.toNat + openQuantity orders) % 2 ^ 64
    rw [Nat.add_mod_mod]

theorem openQuantity_erase {orders : List OrderData} {o : OrderData} (ho : o ∈ orders) :
    openQuantity orders = o.remaining.toNat + openQuantity (orders.erase o) := by
  have hperm := (List.perm_cons_erase ho).map fun o : OrderData => o.remaining.toNat
  exact hperm.sum_eq

/-- The answer shows every order exactly when nothing carries. -/
theorem shows_iff {orders : List OrderData} (hpos : ∀ o ∈ orders, 0 < o.remaining) :
    Shows orders (orders.map OrderData.remaining).sum ↔ NoCarry orders := by
  have hle : ∀ o ∈ orders, o.remaining ≤ (orders.map OrderData.remaining).sum ↔
      openQuantity (orders.erase o) % 2 ^ 64 + o.remaining.toNat < 2 ^ 64 := by
    intro o ho
    rw [UInt64.le_iff_toNat_le, sum_remaining_toNat, openQuantity_erase ho]
    exact Pow2.le_sum_mod_iff o.remaining.toNat_lt
  constructor
  · rintro ⟨h, -⟩ o ho
    exact (hle o ho).1 (h o ho)
  · intro h
    have hall : ∀ o ∈ orders, o.remaining ≤ (orders.map OrderData.remaining).sum := fun o ho => (hle o ho).2 (h o ho)
    refine ⟨hall, fun h0 => ?_, fun hnil => by rw [hnil]; rfl⟩
    -- an order there would have a remainder of at most nothing
    cases orders with
    | nil => rfl
    | cons o orders =>
      have h1 := hall o (List.mem_cons_self ..)
      have h2 := hpos o (List.mem_cons_self ..)
      rw [h0] at h1
      exact absurd h2 (UInt64.not_lt.2 h1)

/-- A total that fits in a word carries nowhere. -/
theorem noCarry_of_lt {orders : List OrderData} (h : openQuantity orders < 2 ^ 64) : NoCarry orders := by
  intro o ho
  rw [openQuantity_erase ho] at h
  rw [Nat.mod_eq_of_lt (by omega)]
  omega

/-- **Depth queries.** After every run, at every price of either side, `quantity_at` is at least the
remainder of each order there and 0 only where there is none, exactly when no order's remainder
carries over beside the others; a total below `2 ^ 64` is enough. -/
theorem OrderBook.quantityAt_shows_iff (stp : SelfTradePolicy) (poolCapacity : UInt64) (calls : List BookCall) :
    ∃ b₀ b evs, create stp poolCapacity = some b₀ ∧ Machine.run eventStep b₀ calls = some (b, evs) ∧
      ∀ side price, ∃ quantity, b.quantityAt side price = some quantity ∧
        (Shows (b.sides.level side price) quantity ↔ NoCarry (b.sides.level side price)) ∧
        (openQuantity (b.sides.level side price) < 2 ^ 64 → NoCarry (b.sides.level side price)) := by
  obtain ⟨b₀, hr, h₀⟩ := create_spec stp poolCapacity
  obtain ⟨b, hrun, h⟩ := event_refines.run h₀ calls
  have hv := ListBook.eventRun_valid (ListBook.create_valid stp) calls
  refine ⟨b₀, b, _, hr, hrun, fun side price => ?_⟩
  have hquery := congrFun (congrFun (congrArg Observation.quantityAt (observe_spec h)) side) price
  rw [sides_eq h]
  refine ⟨_, hquery, shows_iff fun o ho => ?_, noCarry_of_lt⟩
  exact hv.positive o ((ListBook.mem_resting side).2 (.inl (List.mem_filter.1 ho).1))

/-- Two orders of `2 ^ 63` at one price show as an empty level. -/
theorem OrderBook.depth_wraps :
    ¬ ∀ (calls : List BookCall) (b₀ b : OrderBook) (evs : List Event), create .none 4 = some b₀ →
      Machine.run eventStep b₀ calls = some (b, evs) → ∀ side price quantity, b.quantityAt side price = some quantity →
        Shows (b.sides.level side price) quantity := by
  intro h
  obtain ⟨b₀, hr, h₀⟩ := create_spec .none 4
  obtain ⟨b, hrun, hrep⟩ := event_refines.run h₀
    [.submit 1 1 .buy 100 9223372036854775808, .submit 2 1 .buy 100 9223372036854775808]
  have hquery : b.quantityAt .buy 100 = some 0 :=
    (congrFun (congrFun (congrArg Observation.quantityAt (observe_spec hrep)) .buy) 100).trans (by decide)
  have hlevel := (h _ b₀ b _ hr hrun .buy 100 0 hquery).2.1 rfl
  rw [sides_eq hrep] at hlevel
  revert hlevel
  decide

end Obe
