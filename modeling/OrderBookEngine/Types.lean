/-
`Types.hpp`, `Order.hpp`, `Trade.hpp` and `Command.hpp`: the domain types. The scoped enumerations
that the journal reader casts from a byte (`Side`, `OrderType`, `CommandType`) can hold any byte,
so they are a byte with named constants; the others are inductive types.
-/
import OrderBookEngine.Pool.MemoryPool
import Mathlib.Order.RelClasses

namespace Obe

abbrev Price := Int64
abbrev Quantity := UInt64
abbrev OrderId := UInt64
abbrev Sequence := UInt64
abbrev TraderId := UInt32

/-! ## Enumerations -/

structure Side where
  raw : UInt8
  deriving DecidableEq, Repr

def Side.buy : Side := ⟨0⟩
def Side.sell : Side := ⟨1⟩

structure OrderType where
  raw : UInt8
  deriving DecidableEq, Repr

def OrderType.limit : OrderType := ⟨0⟩

structure CommandType where
  raw : UInt8
  deriving DecidableEq, Repr

def CommandType.submit : CommandType := ⟨0⟩
def CommandType.cancel : CommandType := ⟨1⟩
def CommandType.shutdown : CommandType := ⟨2⟩

inductive SelfTradePolicy
  | none
  | cancelResting
  | cancelAggressing
  deriving DecidableEq, Repr

inductive SubmitStatus
  | rested
  | fullyFilled
  | partiallyFilled
  | cancelledBySelfTrade
  | rejected
  | cancelled
  | killed
  | stopAccepted
  deriving DecidableEq, Repr

/-! ## Orders -/

/-- An order without its list links. -/
structure OrderData where
  id : OrderId
  trader : TraderId
  side : Side
  price : Price
  quantity : Quantity
  remaining : Quantity
  sequence : Sequence
  deriving DecidableEq, Repr

/-- The address of a `PriceLevel`: the map node it was built in. -/
abbrev LevelPtr := Nat

structure Order extends OrderData where
  prev : Option Slot
  next : Option Slot
  level : Option LevelPtr
  deriving DecidableEq, Repr

/-- The constructor: nothing is filled and the order is in no level. -/
def Order.new (id : OrderId) (trader : TraderId) (side : Side) (price : Price) (qty : Quantity) : Order :=
  { id, trader, side, price, quantity := qty, remaining := qty, sequence := 0, prev := none, next := none,
    level := none }

def OrderData.isFilled (o : OrderData) : Bool := o.remaining = 0

/-- `fill`: the order, and the amount filled, at most what remained. -/
def Order.fill (o : Order) (qty : Quantity) : Order × Quantity :=
  let traded := if qty < o.remaining then qty else o.remaining
  ({ o with remaining := o.remaining - traded }, traded)

structure OrderSnapshot where
  side : Side
  price : Price
  id : OrderId
  remaining : Quantity
  sequence : Sequence
  deriving DecidableEq, Repr

/-! ## Reports -/

structure Trade where
  price : Price
  quantity : Quantity
  takerId : OrderId
  makerId : OrderId
  takerTrader : TraderId
  makerTrader : TraderId
  takerSide : Side
  deriving DecidableEq, Repr

structure SubmitResult where
  status : SubmitStatus
  filled : Quantity
  resting : Quantity
  tradeCount : Nat
  deriving DecidableEq, Repr

/-- The members' initializers. -/
def SubmitResult.new : SubmitResult := { status := .rejected, filled := 0, resting := 0, tradeCount := 0 }

/-! ## Commands -/

structure Command where
  type : CommandType
  orderType : OrderType
  id : OrderId
  trader : TraderId
  side : Side
  price : Price
  quantity : Quantity
  triggerPrice : Price
  deriving DecidableEq, Repr

/-- The members' initializers. -/
def Command.new : Command :=
  { type := .submit, orderType := .limit, id := 0, trader := 0, side := .buy, price := 0, quantity := 0,
    triggerPrice := 0 }

def Command.makeSubmit (id : OrderId) (trader : TraderId) (side : Side) (price : Price) (quantity : Quantity) :
    Command :=
  { Command.new with type := .submit, orderType := .limit, id, trader, side, price, quantity }

def Command.makeCancel (id : OrderId) : Command := { Command.new with type := .cancel, id }

def Command.makeShutdown : Command := { Command.new with type := .shutdown }

/-! ## Price orders -/

/-- The comparator of the bids, `std::greater`: the best bid is the highest price. -/
abbrev bidOrder : Price → Price → Prop := fun a b => b < a

/-- The comparator of the asks, `std::less`. -/
abbrev askOrder : Price → Price → Prop := fun a b => a < b

instance : IsStrictTotalOrder Price askOrder where
  irrefl _ := Int64.lt_irrefl
  trans _ _ _ h h' := Int64.lt_trans h h'
  trichotomous _ _ h h' := Int64.le_antisymm (Int64.not_lt.1 h') (Int64.not_lt.1 h)

instance : IsStrictTotalOrder Price bidOrder where
  irrefl _ := Int64.lt_irrefl
  trans _ _ _ h h' := Int64.lt_trans h' h
  trichotomous _ _ h h' := Int64.le_antisymm (Int64.not_lt.1 h) (Int64.not_lt.1 h')

/-- `fill` never takes more than remains. -/
theorem Order.fill_le (o : Order) (qty : Quantity) :
    (o.fill qty).2 ≤ o.remaining ∧ (o.fill qty).2 ≤ qty := by
  unfold Order.fill
  split <;> grind

end Obe
