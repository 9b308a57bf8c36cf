/-
Buying and selling mirror each other. The mirror exchanges the sides and complements every price; it
commutes with each call of the reference book, and so with every run of the book.
-/
import OrderBookEngine.Book.Refinement

namespace Obe

/-! ## The mirror -/

/-- The book takes every side that is not a buy for a sell. -/
def Side.mirror (side : Side) : Side := if side = .buy then .sell else .buy

/-- The complement of a price, which reverses the order without overflow. -/
def Price.mirror (price : Price) : Price := -1 - price

def OrderData.mirror (o : OrderData) : OrderData := { o with side := o.side.mirror, price := Price.mirror o.price }

def Taker.mirror (taker : Taker) : Taker :=
  { taker with side := taker.side.mirror, limit := Price.mirror taker.limit }

def Trade.mirror (t : Trade) : Trade := { t with price := Price.mirror t.price, takerSide := t.takerSide.mirror }

def OrderSnapshot.mirror (s : OrderSnapshot) : OrderSnapshot :=
  { s with side := s.side.mirror, price := Price.mirror s.price }

def BookCall.mirror : BookCall → BookCall
  | .submit id trader side price quantity => .submit id trader side.mirror (Price.mirror price) quantity
  | .cancel id => .cancel id

/-- The two parts of a snapshot exchanged. -/
def mirrorSnapshot (l : List OrderSnapshot) : List OrderSnapshot :=
  (l.filter (·.side = .sell)).map OrderSnapshot.mirror ++ (l.filter (·.side = .buy)).map OrderSnapshot.mirror

def Observation.mirror (o : Observation) : Observation :=
  { lastTrades := o.lastTrades.map Trade.mirror, bestBid := o.bestAsk.map Price.mirror,
    bestAsk := o.bestBid.map Price.mirror, bidLevels := o.askLevels, askLevels := o.bidLevels,
    orderCount := o.orderCount, quantityAt := fun side price => o.quantityAt side.mirror (Price.mirror price),
    snapshot := o.snapshot.map mirrorSnapshot }

/-! ## Prices -/

theorem Price.mirror_toInt (p : Price) : (Price.mirror p).toInt = -1 - p.toInt := by
  have hlo : -2 ^ 63 ≤ p.toInt := p.le_toInt
  have hhi : p.toInt < 2 ^ 63 := p.toInt_lt
  unfold Price.mirror
  rw [Int64.toInt_sub]
  exact Int.bmod_eq_of_le (by simp; omega) (by simp; omega)

@[simp] theorem Price.mirror_mirror (p : Price) : Price.mirror (Price.mirror p) = p := by
  apply Int64.toInt_inj.1
  rw [Price.mirror_toInt, Price.mirror_toInt]
  omega

theorem Price.mirror_lt {p q : Price} : Price.mirror p < Price.mirror q ↔ q < p := by
  rw [Int64.lt_iff_toInt_lt, Int64.lt_iff_toInt_lt, Price.mirror_toInt, Price.mirror_toInt]
  omega

theorem Price.mirror_le {p q : Price} : Price.mirror p ≤ Price.mirror q ↔ q ≤ p := by
  rw [Int64.le_iff_toInt_le, Int64.le_iff_toInt_le, Price.mirror_toInt, Price.mirror_toInt]
  omega

theorem Price.mirror_inj {p q : Price} : Price.mirror p = Price.mirror q ↔ p = q := by
  constructor
  · intro h
    rw [← Price.mirror_mirror p, h, Price.mirror_mirror]
  · rintro rfl
    rfl

theorem Side.mirror_ne_buy {side : Side} (h : side = .buy) : side.mirror ≠ .buy := by
  unfold Side.mirror
  rw [if_pos h]
  decide

theorem Side.mirror_eq_buy {side : Side} : side.mirror = .buy ↔ side ≠ .buy := by
  constructor
  · intro h hs
    exact Side.mirror_ne_buy hs h
  · intro h
    exact if_neg h

/-! ## The walk -/

theorem crosses_mirror (side : Side) (limit price : Price) :
    crosses side.mirror (Price.mirror limit) (Price.mirror price) = crosses side limit price := by
  unfold crosses
  by_cases h : side = .buy
  · rw [if_pos h, if_neg (Side.mirror_ne_buy h)]
    exact decide_eq_decide.2 Price.mirror_le
  · rw [if_neg h, if_pos (Side.mirror_eq_buy.2 h)]
    exact decide_eq_decide.2 Price.mirror_le

/-- A walk does not see that it is mirrored. -/
theorem sameWalk_mirror (stp : SelfTradePolicy) (taker : Taker) :
    SameWalk stp taker taker.mirror OrderData.mirror Trade.mirror := by
  constructor
  case done =>
    intro remaining o
    unfold Taker.done
    exact congrArg (_ || !·) (crosses_mirror taker.side taker.limit o.price)
  all_goals intros; rfl

/-! ## The book -/

namespace ListBook

variable {b : ListBook} {taker : Taker}

def mirror (b : ListBook) : ListBook :=
  { b with bids := b.asks.map OrderData.mirror, asks := b.bids.map OrderData.mirror,
           trades := b.trades.map Trade.mirror }

theorem mirror_own (b : ListBook) (side : Side) : b.mirror.own side = (b.own side.mirror).map OrderData.mirror := by
  unfold own
  by_cases h : side = .buy
  · rw [if_pos h, if_neg (Side.mirror_ne_buy h)]
    rfl
  · rw [if_neg h, if_pos (Side.mirror_eq_buy.2 h)]
    rfl

theorem mirror_opposite (b : ListBook) (side : Side) :
    b.mirror.opposite side.mirror = (b.opposite side).map OrderData.mirror := by
  unfold opposite
  by_cases h : side = .buy
  · rw [if_pos h, if_neg (Side.mirror_ne_buy h)]
    rfl
  · rw [if_neg h, if_pos (Side.mirror_eq_buy.2 h)]
    rfl

theorem mem_mirror_ids {id : OrderId} : id ∈ b.mirror.ids ↔ id ∈ b.ids := by
  have hid : (·.id) ∘ OrderData.mirror = (·.id) := rfl
  unfold ids resting mirror
  dsimp only
  rw [List.map_append, List.map_append, List.map_map, List.map_map, hid, List.mem_append, List.mem_append]
  exact or_comm

theorem swept_mirror (r : Sweep) :
    b.mirror.swept taker.mirror (r.map OrderData.mirror Trade.mirror) = (b.swept taker r).mirror := by
  unfold swept setOpposite Taker.mirror
  dsimp only
  by_cases h : taker.side = .buy
  · rw [if_pos h, if_neg (Side.mirror_ne_buy h)]
    rfl
  · rw [if_neg h, if_pos (Side.mirror_eq_buy.2 h)]
    rfl

theorem rest_mirror (remaining : Quantity) : b.mirror.rest taker.mirror remaining =
    (b.rest taker remaining).mirror := by
  have hnew : b.mirror.newOrder taker.mirror remaining = (b.newOrder taker remaining).mirror := rfl
  unfold rest
  dsimp only
  rw [hnew]
  by_cases h : taker.side = .buy
  · have hplace := insertOrder_map bidOrder askOrder (f := OrderData.mirror)
      (fun a b => Price.mirror_lt) (b.newOrder taker remaining) b.bids
    rw [if_pos h, if_neg (show taker.mirror.side ≠ .buy from Side.mirror_ne_buy h)]
    exact congrArg (fun l => { b.mirror with asks := l, nextSeq := b.nextSeq + 1 }) hplace
  · have hplace := insertOrder_map askOrder bidOrder (f := OrderData.mirror)
      (fun a b => Price.mirror_lt) (b.newOrder taker remaining) b.asks
    rw [if_neg h, if_pos (show taker.mirror.side = .buy from Side.mirror_eq_buy.2 h)]
    exact congrArg (fun l => { b.mirror with bids := l, nextSeq := b.nextSeq + 1 }) hplace

theorem submit_mirror (b : ListBook) (taker : Taker) (quantity : Quantity) :
    b.mirror.submit taker.mirror quantity = ((b.submit taker quantity).1.mirror, (b.submit taker quantity).2) := by
  have hwalk : b.mirror.walk taker.mirror quantity = (b.walk taker quantity).map OrderData.mirror Trade.mirror := by
    unfold walk
    rw [show b.mirror.opposite taker.mirror.side = _ from b.mirror_opposite taker.side]
    exact (sameWalk_mirror b.stp taker).sweep quantity (b.opposite taker.side)
  have hlen : ((b.walk taker quantity).map OrderData.mirror Trade.mirror).trades.length =
      (b.walk taker quantity).trades.length := List.length_map _
  by_cases hr : quantity = 0 ∨ taker.id ∈ b.ids
  · have hr' : quantity = 0 ∨ taker.mirror.id ∈ b.mirror.ids := hr.imp_right mem_mirror_ids.2
    unfold submit
    rw [if_pos hr, if_pos hr']
    rfl
  · have hr' : ¬ (quantity = 0 ∨ taker.mirror.id ∈ b.mirror.ids) := fun h => hr (h.imp_right mem_mirror_ids.1)
    unfold submit
    dsimp only
    rw [if_neg hr, if_neg hr', hwalk, hlen, swept_mirror]
    show (if (b.walk taker quantity).stopped then _ else if (b.walk taker quantity).remaining > 0 then _ else _) = _
    split
    · rfl
    · split
      · exact Prod.ext (rest_mirror _) rfl
      · rfl

theorem cancel_mirror (b : ListBook) (id : OrderId) :
    b.mirror.cancel id = ((b.cancel id).1.mirror, (b.cancel id).2) := by
  have hfilter : ∀ l : List OrderData, (l.map OrderData.mirror).filter (·.id ≠ id) =
      (l.filter (·.id ≠ id)).map OrderData.mirror := fun l => List.filter_map
  have hfound : decide (id ∈ b.mirror.ids) = decide (id ∈ b.ids) := decide_eq_decide.2 mem_mirror_ids
  rw [cancel_eq, cancel_eq, hfound]
  exact congrArg₂ (fun x y => (({ b.mirror with bids := x, asks := y } : ListBook), decide (id ∈ b.ids)))
    (hfilter b.asks) (hfilter b.bids)

/-! ## The queries -/

theorem levelCount_mirror (l : List OrderData) : levelCount (l.map OrderData.mirror) = levelCount l := by
  have hinj : Function.Injective Price.mirror := fun _ _ => Price.mirror_inj.1
  unfold levelCount
  rw [List.map_map, show (·.price) ∘ OrderData.mirror = Price.mirror ∘ (·.price) from rfl, ← List.map_map,
    List.dedup_map_of_injective hinj, List.length_map]

theorem quantityOn_mirror (l : List OrderData) (price : Price) :
    quantityOn (l.map OrderData.mirror) price = quantityOn l (Price.mirror price) := by
  have hprice : ∀ o : OrderData, o.mirror.price = price ↔ o.price = Price.mirror price := by
    intro o
    rw [← Price.mirror_inj, show o.mirror.price = Price.mirror o.price from rfl, Price.mirror_mirror]
  unfold quantityOn
  rw [List.filter_map, List.map_map]
  simp only [Function.comp_def, hprice]
  rfl

theorem snapshot_mirror (b : ListBook) : b.mirror.snapshot = mirrorSnapshot b.snapshot := by
  have hpart : ∀ side l, (snapshotOf side l).map OrderSnapshot.mirror =
    snapshotOf side.mirror (l.map OrderData.mirror) := by
    intro side l
    unfold snapshotOf
    rw [List.map_map, List.map_map]
    rfl
  unfold mirrorSnapshot
  rw [snapshot_bids, snapshot_asks, hpart, hpart]
  rfl

theorem observe_mirror (b : ListBook) : b.mirror.observe = b.observe.mirror := by
  have hhead : ∀ l : List OrderData, (l.map OrderData.mirror).head?.map (·.price) =
      (l.head?.map (·.price)).map Price.mirror := by
    intro l
    cases l <;> rfl
  have hcount : b.mirror.resting.length = b.resting.length := by
    unfold resting mirror
    rw [List.length_append, List.length_append, List.length_map, List.length_map, Nat.add_comm]
  have hquantity : ∀ side price, quantityOn (b.mirror.own side) price =
      quantityOn (b.own side.mirror) (Price.mirror price) := by
    intro side price
    rw [mirror_own, quantityOn_mirror]
  unfold observe Observation.mirror
  rw [Observation.mk.injEq]
  refine ⟨rfl, hhead b.asks, hhead b.bids, levelCount_mirror b.asks, levelCount_mirror b.bids, hcount, ?_, ?_⟩
  · funext side price
    exact congrArg some (hquantity side price)
  · exact congrArg some b.snapshot_mirror

theorem call_mirror (b : ListBook) (c : BookCall) : b.mirror.call c.mirror = ((b.call c).1.mirror, (b.call c).2) := by
  cases c with
  | submit id trader side price quantity =>
    have h := b.submit_mirror ⟨id, trader, side, price⟩ quantity
    exact congrArg (fun r => (r.1, BookRet.submitted r.2)) h
  | cancel id => exact congrArg (fun r => (r.1, BookRet.cancelled r.2)) (b.cancel_mirror id)

/-- **One mirrored call is the mirror of the call.** -/
theorem step_mirror (b : ListBook) (c : BookCall) :
    b.mirror.step c.mirror = ((b.step c).1.mirror, (b.step c).2.1, (b.step c).2.2.mirror) := by
  unfold step
  rw [call_mirror, observe_mirror]

end ListBook

/-- **The two sides of the book mirror each other**, in every run: each mirrored call returns what the
call returns, and the queries show the mirror of what they show. -/
theorem OrderBook.run_mirror (stp : SelfTradePolicy) (poolCapacity poolCapacity' : UInt64) (calls : List BookCall) :
    ∃ b₀ b outs b₀' b', create stp poolCapacity = some b₀ ∧ create stp poolCapacity' = some b₀' ∧
      Machine.run step b₀ calls = some (b, outs) ∧ Machine.run step b₀' (calls.map BookCall.mirror) =
        some (b', outs.map fun o => (o.1, o.2.mirror)) := by
  obtain ⟨b₀, b, h₀, -, hrun⟩ := run_eq_listBook stp poolCapacity calls
  obtain ⟨b₀', b', h₀', -, hrun'⟩ := run_eq_listBook stp poolCapacity' (calls.map BookCall.mirror)
  -- the pool capacities differ, the reference books do not see them
  have hmirror := Machine.runT_map (f := ListBook.mirror) (g := BookCall.mirror)
    (k := fun o : BookRet × Observation => (o.1, o.2.mirror)) ListBook.step_mirror (ListBook.create stp) calls
  refine ⟨b₀, b, _, b₀', b', h₀, h₀', hrun, ?_⟩
  rw [hrun']
  exact congrArg (fun r => some (b', r.2)) hmirror

end Obe
