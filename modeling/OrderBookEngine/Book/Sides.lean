/-
A side is a byte. The book asks of it only whether it is a buy, so an order whose side has no name
is a sell in every call: it walks the bids, rests among the asks and is cancelled from there. Naming
the sides is the mirror taken twice.
-/
import OrderBookEngine.Book.Mirror

namespace Obe

/-! ## Naming -/

/-- What the tests of the book make of a side. -/
def Side.named (side : Side) : Side := if side = .buy then .buy else .sell

def OrderData.named (o : OrderData) : OrderData := { o with side := o.side.named }

def Taker.named (taker : Taker) : Taker := { taker with side := taker.side.named }

def Trade.named (t : Trade) : Trade := { t with takerSide := t.takerSide.named }

def BookCall.named : BookCall → BookCall
  | .submit id trader side price quantity => .submit id trader side.named price quantity
  | .cancel id => .cancel id

/-- Of what the queries show, only the trades carry the byte that was submitted. -/
def Observation.named (o : Observation) : Observation := { o with lastTrades := o.lastTrades.map Trade.named }

theorem Side.mirror_mirror (side : Side) : side.mirror.mirror = side.named := by
  unfold Side.named
  split
  case isTrue h =>
    subst h
    rfl
  case isFalse h =>
    rw [Side.mirror_eq_buy.2 h]
    rfl

theorem OrderData.mirror_mirror (o : OrderData) : o.mirror.mirror = o.named := by
  unfold OrderData.mirror OrderData.named
  rw [Side.mirror_mirror, Price.mirror_mirror]

theorem Taker.mirror_mirror (taker : Taker) : taker.mirror.mirror = taker.named := by
  unfold Taker.mirror Taker.named
  rw [Side.mirror_mirror, Price.mirror_mirror]

theorem Trade.mirror_mirror (t : Trade) : t.mirror.mirror = t.named := by
  unfold Trade.mirror Trade.named
  rw [Side.mirror_mirror, Price.mirror_mirror]

/-! ## The book -/

namespace ListBook

variable {b : ListBook}

def named (b : ListBook) : ListBook :=
  { b with bids := b.bids.map OrderData.named, asks := b.asks.map OrderData.named,
           trades := b.trades.map Trade.named }

theorem mirror_mirror (b : ListBook) : b.mirror.mirror = b.named := by
  have horder : OrderData.mirror ∘ OrderData.mirror = OrderData.named := funext OrderData.mirror_mirror
  have htrade : Trade.mirror ∘ Trade.mirror = Trade.named := funext Trade.mirror_mirror
  unfold mirror named
  dsimp only
  rw [List.map_map, List.map_map, List.map_map, horder, htrade]

end ListBook

/-! ## The book with its sides named -/

namespace OrderBook

variable {b b' : OrderBook} {r : ListBook}

end OrderBook

end Obe
