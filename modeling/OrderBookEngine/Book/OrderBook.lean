/-
`OrderBook.hpp` and `OrderBook.cpp`: two price-sorted maps of levels, the order index and the order
pool. `none` is a call that does not return: an access to memory that holds no object, or a loop
that outruns its fuel.
-/
import OrderBookEngine.Book.PriceLevel
import OrderBookEngine.Lib.SortedMap
import OrderBookEngine.Index.Table

namespace Obe

/-- What both sides of the book share. -/
structure Store where
  pool : MemoryPool Order
  /-- The map nodes of both sides, by address. -/
  levels : LevelPtr → Option PriceLevel
  /-- The address of the next map node. -/
  nextLevel : LevelPtr
  index : FlatHashMap OrderId (Option Slot)
  trades : List Trade

namespace Store

variable {lt : Price → Price → Prop}

def removeFromIndex (s : Store) (order : Slot) : Option Store := do
  let o ← s.pool.get order
  let (_, index) ← s.index.erase o.id
  return { s with index }

/-- `level.unlink(order)`. -/
def unlink (s : Store) (addr : LevelPtr) (order : Slot) : Option Store := do
  let level ← s.levels addr
  let (pool, level) ← level.unlink s.pool order
  return { s with pool, levels := Function.update s.levels addr (some level) }

/-- `pool_.release(order)`. -/
def release (s : Store) (order : Slot) : Option Store := do
  let pool ← s.pool.release (some order)
  return { s with pool }

/-- `maker->fill(traded)` and `level.on_fill(traded)`. -/
def fill (s : Store) (addr : LevelPtr) (order : Slot) (traded : Quantity) : Option Store := do
  let pool ← s.pool.modify order fun o => (o.fill traded).1
  let level ← s.levels addr
  return { s with pool, levels := Function.update s.levels addr (some (level.onFill traded)) }

/-- `try_emplace(price, price)` on one side: the level at `price`, built when there is none. -/
def emplaceLevel [DecidableRel lt] [IsStrictTotalOrder Price lt] (s : Store) (book : SortedMap Price LevelPtr lt)
    (price : Price) : LevelPtr × Store × SortedMap Price LevelPtr lt :=
  match book.find? price with
  | some addr => (addr, s, book)
  | none =>
    (s.nextLevel,
      { s with levels := Function.update s.levels s.nextLevel (some (.new price)), nextLevel := s.nextLevel + 1 },
      (book.tryEmplace price s.nextLevel).2)

/-- `erase(price)` on one side, with the level in the erased node. -/
def eraseLevel (s : Store) (book : SortedMap Price LevelPtr lt) (price : Price) :
    Store × SortedMap Price LevelPtr lt :=
  match book.find? price with
  | some addr => ({ s with levels := Function.update s.levels addr none }, book.erase price)
  | none => (s, book)

/-- `it->second.enqueue(order)`. -/
def enqueue (s : Store) (addr : LevelPtr) (order : Slot) : Option Store := do
  let level ← s.levels addr
  let (pool, level) ← level.enqueue s.pool addr order
  return { s with pool, levels := Function.update s.levels addr (some level) }

/-- `try_emplace(price, price)` and `it->second.enqueue(order)` on one side. -/
def queueAt [DecidableRel lt] [IsStrictTotalOrder Price lt] (s : Store) (book : SortedMap Price LevelPtr lt)
    (price : Price) (order : Slot) : Option (Store × SortedMap Price LevelPtr lt) :=
  let (addr, s, book) := s.emplaceLevel book price
  (s.enqueue addr order).map (·, book)

end Store

/-! ## match -/

def crosses (takerSide : Side) (limit resting : Price) : Bool :=
  if takerSide = .buy then resting ≤ limit else resting ≥ limit

/-- The aggressing order, as `match` takes it. -/
structure Taker where
  id : OrderId
  trader : TraderId
  side : Side
  limit : Price
  deriving DecidableEq, Repr

/-- The variables of `match`: the store, the side it walks and its two reference arguments. -/
structure Matching (lt : Price → Price → Prop) extends Store where
  book : SortedMap Price LevelPtr lt
  remaining : Quantity
  cancelledByStp : Bool

section Match

variable {lt : Price → Price → Prop}

/-- The trade with a maker. -/
def Taker.trade (taker : Taker) (maker : OrderData) (traded : Quantity) : Trade :=
  { price := maker.price, quantity := traded, takerId := taker.id, makerId := maker.id,
    takerTrader := taker.trader, makerTrader := maker.trader, takerSide := taker.side }

/-- `traded`: what the taker and the maker both have. -/
def tradedWith (remaining : Quantity) (maker : OrderData) : Quantity :=
  if remaining < maker.remaining then remaining else maker.remaining

theorem tradedWith_le (remaining : Quantity) (maker : OrderData) :
    tradedWith remaining maker ≤ remaining ∧ tradedWith remaining maker ≤ maker.remaining := by
  unfold tradedWith
  split <;> grind

/-- Unlink, unindex and release, as `match` removes a maker. -/
def Store.removeMaker (s : Store) (addr : LevelPtr) (maker : Slot) : Option Store := do
  let s ← s.unlink addr maker
  let s ← s.removeFromIndex maker
  s.release maker

/-- The second half of the body of the inner loop: the fill of the front order. -/
def Matching.execute (m : Matching lt) (taker : Taker) (addr : LevelPtr) (maker : Slot) : Option (Matching lt) := do
  let o ← m.pool.get maker
  let traded := tradedWith m.remaining o.toOrderData
  let s := { m.toStore with trades := m.trades ++ [taker.trade o.toOrderData traded] }
  let s ← s.fill addr maker traded
  let o ← s.pool.get maker
  let s ← if o.isFilled then s.removeMaker addr maker else some s
  return { m with toStore := s, remaining := m.remaining - traded }

/-- The inner loop, over the orders of one level; each iteration but the last removes one. -/
def matchLevel (stp : SelfTradePolicy) (taker : Taker) (addr : LevelPtr) : Nat → Matching lt → Option (Matching lt)
  | fuel, m => do
    let level ← m.levels addr
    if m.remaining > 0 ∧ ¬ level.empty then
      match fuel with
      | 0 => none
      | fuel + 1 =>
        let maker ← level.front
        let o ← m.pool.get maker
        if stp ≠ .none ∧ o.trader = taker.trader then
          if stp = .cancelResting then
            let s ← m.toStore.removeMaker addr maker
            matchLevel stp taker addr fuel { m with toStore := s }
          else return { m with cancelledByStp := true }
        else
          let m ← m.execute taker addr maker
          matchLevel stp taker addr fuel m
    else return m

/-- The outer loop, over the levels of `book`; each iteration but the last erases one. -/
def matchLevels (stp : SelfTradePolicy) (taker : Taker) : Nat → Matching lt → Option (Matching lt)
  | fuel, m =>
    if m.remaining > 0 ∧ ¬ m.book.isEmpty then
      match fuel with
      | 0 => none
      | fuel + 1 => do
        let (price, addr) ← m.book.begin?
        let level ← m.levels addr
        if crosses taker.side taker.limit level.price then
          let m ← matchLevel stp taker addr level.count m
          -- the `return` of the inner loop leaves both loops
          if m.cancelledByStp then return m
          else
            let level ← m.levels addr
            let (s, book) := if level.empty then m.toStore.eraseLevel m.book price else (m.toStore, m.book)
            matchLevels stp taker fuel { m with toStore := s, book }
        else return m
    else some m

/-- `match`. -/
def matchBook (stp : SelfTradePolicy) (s : Store) (book : SortedMap Price LevelPtr lt) (taker : Taker)
    (quantity : Quantity) : Option (Matching lt) :=
  matchLevels stp taker book.size { toStore := s, book, remaining := quantity, cancelledByStp := false }

end Match

/-! ## The book -/

structure OrderBook extends Store where
  stp : SelfTradePolicy
  bids : SortedMap Price LevelPtr bidOrder
  asks : SortedMap Price LevelPtr askOrder
  nextSeq : Sequence

namespace OrderBook

/-- The constructor; 16 is the default capacity of the index. The bytes of the blocks that the pool comes to ask
for wrap only with those of the orders that rest at a time (`run_no_wrap`). -/
def create (stp : SelfTradePolicy) (poolCapacity : UInt64) : Option OrderBook := do
  let index ← FlatHashMap.ofCapacity 16
  let index ← index.reserve poolCapacity
  return { stp, pool := .ofCapacity poolCapacity.toNat, levels := fun _ => none, nextLevel := 0, index, trades := [],
           bids := .empty, asks := .empty, nextSeq := 1 }

/-- The call of `match` on the opposite side: the book, `remaining` and `cancelled_by_stp`. -/
def matchOpposite (book : OrderBook) (taker : Taker) (quantity : Quantity) :
    Option (OrderBook × Quantity × Bool) :=
  if taker.side = .buy then
    (matchBook book.stp book.toStore book.asks taker quantity).map fun m =>
      ({ book with toStore := m.toStore, asks := m.book }, m.remaining, m.cancelledByStp)
  else
    (matchBook book.stp book.toStore book.bids taker quantity).map fun m =>
      ({ book with toStore := m.toStore, bids := m.book }, m.remaining, m.cancelledByStp)

/-- The branch of `submit` that rests the remainder. -/
def rest (book : OrderBook) (taker : Taker) (remaining : Quantity) : Option OrderBook := do
  let (order, pool) ← book.pool.acquire (Order.new taker.id taker.trader taker.side taker.limit remaining)
  let pool ← pool.modify order fun o => { o with sequence := book.nextSeq }
  let book := { book with pool, nextSeq := book.nextSeq + 1 }
  let book ←
    if taker.side = .buy then
      (book.toStore.queueAt book.bids taker.limit order).map fun r => { book with toStore := r.1, bids := r.2 }
    else
      (book.toStore.queueAt book.asks taker.limit order).map fun r => { book with toStore := r.1, asks := r.2 }
  let index ← book.index.insert taker.id (some order)
  return { book with index }

/-- The first test of `submit`. -/
def refuses (book : OrderBook) (id : OrderId) (quantity : Quantity) : Option Bool :=
  if quantity = 0 then some true else book.index.contains id

def submit (book : OrderBook) (id : OrderId) (trader : TraderId) (side : Side) (price : Price)
    (quantity : Quantity) : Option (OrderBook × SubmitResult) := do
  let book := { book with trades := [] }
  let res := SubmitResult.new
  if ← book.refuses id quantity then return (book, { res with status := .rejected })
  else
    let taker : Taker := { id, trader, side, limit := price }
    let (book, remaining, cancelledByStp) ← book.matchOpposite taker quantity
    let res := { res with filled := quantity - remaining, tradeCount := book.trades.length }
    if cancelledByStp then return (book, { res with status := .cancelledBySelfTrade, resting := 0 })
    else if remaining > 0 then
      let book ← book.rest taker remaining
      return (book, { res with
        resting := remaining
        status := if res.filled > 0 then .partiallyFilled else .rested })
    else return (book, { res with status := .fullyFilled, resting := 0 })

def cancel (book : OrderBook) (id : OrderId) : Option (OrderBook × Bool) := do
  match ← book.index.find id with
  | none => return (book, false)
  | some i =>
    let order ← book.index.values i
    let (_, index) ← book.index.erase id
    let o ← book.pool.get order
    let addr ← o.level
    let level ← book.levels addr
    let levelPrice := level.price
    let side := o.side
    let s := { book.toStore with index }
    let s ← s.unlink addr order
    let level ← s.levels addr
    let levelNowEmpty := level.empty
    let s ← s.release order
    if levelNowEmpty then
      if side = .buy then
        let (s, bids) := s.eraseLevel book.bids levelPrice
        return ({ book with toStore := s, bids }, true)
      else
        let (s, asks) := s.eraseLevel book.asks levelPrice
        return ({ book with toStore := s, asks }, true)
    else return ({ book with toStore := s }, true)

/-! ## Queries -/

def bestBid (book : OrderBook) : Option Price := book.bids.begin?.map (·.1)

def bestAsk (book : OrderBook) : Option Price := book.asks.begin?.map (·.1)

def bidLevels (book : OrderBook) : Nat := book.bids.size

def askLevels (book : OrderBook) : Nat := book.asks.size

def orderCount (book : OrderBook) : Nat := book.index.size

section Side

variable {lt : Price → Price → Prop}

def levelQuantity (s : Store) (book : SortedMap Price LevelPtr lt) (price : Price) : Option Quantity :=
  match book.find? price with
  | none => some 0
  | some addr => (s.levels addr).map (·.totalQty)

/-- One `for` loop of `snapshot`, over the entries of one side. -/
def snapshotSide (s : Store) (side : Side) : List (Price × LevelPtr) → Option (List OrderSnapshot)
  | [] => some []
  | (price, addr) :: entries => do
    let level ← s.levels addr
    let orders ← level.forEach s.pool
    let out ← snapshotSide s side entries
    return orders.map (fun o =>
      { side, price, id := o.id, remaining := o.remaining, sequence := o.sequence }) ++ out

end Side

def quantityAt (book : OrderBook) (side : Side) (price : Price) : Option Quantity :=
  if side = .buy then levelQuantity book.toStore book.bids price
  else levelQuantity book.toStore book.asks price

def snapshot (book : OrderBook) : Option (List OrderSnapshot) := do
  let bids ← snapshotSide book.toStore .buy book.bids.entries
  let asks ← snapshotSide book.toStore .sell book.asks.entries
  return bids ++ asks

end OrderBook

end Obe
