/-
The reference book: each side is one plain list of orders, sorted by best price and then arrival,
and an aggressing order is matched by walking the opposite list from its front (`sweep`). It says
what an order book is for; `Book/Refinement.lean` shows that `OrderBook` behaves like it.
-/
import OrderBookEngine.Book.OrderBook
import OrderBookEngine.Lib.Machine

namespace Obe

/-! ## Sweeps -/

/-- What a walk leaves: the orders still resting, the trades, the taker's remainder, and whether
self-trade prevention stopped it. -/
structure Sweep where
  queue : List OrderData
  trades : List Trade
  remaining : Quantity
  stopped : Bool
  deriving DecidableEq, Repr

/-- The same walk after earlier trades. -/
def Sweep.after (trades : List Trade) (r : Sweep) : Sweep := { r with trades := trades ++ r.trades }

def OrderData.reduce (o : OrderData) (qty : Quantity) : OrderData := { o with remaining := o.remaining - qty }

/-- The taker does not trade with the order in front. -/
def Taker.done (taker : Taker) (remaining : Quantity) (o : OrderData) : Bool :=
  remaining = 0 || !crosses taker.side taker.limit o.price

/-- The order in front is the taker's own and the policy prevents the trade. -/
def selfTrade (stp : SelfTradePolicy) (taker : Taker) (o : OrderData) : Bool :=
  stp ≠ .none && o.trader = taker.trader

/-- The walk of an aggressing order over the opposite side. -/
def sweep (stp : SelfTradePolicy) (taker : Taker) : Quantity → List OrderData → Sweep
  | remaining, [] => { queue := [], trades := [], remaining, stopped := false }
  | remaining, o :: queue =>
    if taker.done remaining o then { queue := o :: queue, trades := [], remaining, stopped := false }
    else if selfTrade stp taker o then
      if stp = .cancelResting then sweep stp taker remaining queue
      else { queue := o :: queue, trades := [], remaining, stopped := true }
    else
      let traded := tradedWith remaining o
      let trade := taker.trade o traded
      if (o.reduce traded).isFilled then (sweep stp taker (remaining - traded) queue).after [trade]
      else { queue := o.reduce traded :: queue, trades := [trade], remaining := remaining - traded, stopped := false }

/-- Behind every order whose price is not worse. -/
def insertOrder (lt : Price → Price → Prop) [DecidableRel lt] (o : OrderData) : List OrderData → List OrderData
  | [] => [o]
  | p :: queue => if lt o.price p.price then o :: p :: queue else p :: insertOrder lt o queue

/-! ## The book -/

structure ListBook where
  stp : SelfTradePolicy
  bids : List OrderData
  asks : List OrderData
  nextSeq : Sequence
  trades : List Trade
  deriving DecidableEq, Repr

namespace ListBook

def create (stp : SelfTradePolicy) : ListBook := { stp, bids := [], asks := [], nextSeq := 1, trades := [] }

/-- The resting orders, as `snapshot` lists them. -/
def resting (b : ListBook) : List OrderData := b.bids ++ b.asks

def ids (b : ListBook) : List OrderId := b.resting.map (·.id)

/-- The side an order on `side` rests on. -/
def own (b : ListBook) (side : Side) : List OrderData := if side = .buy then b.bids else b.asks

/-- The side an order on `side` trades with. -/
def opposite (b : ListBook) (side : Side) : List OrderData := if side = .buy then b.asks else b.bids

def setOpposite (b : ListBook) (side : Side) (queue : List OrderData) : ListBook :=
  if side = .buy then { b with asks := queue } else { b with bids := queue }

/-- The order that rests a remainder. -/
def newOrder (b : ListBook) (taker : Taker) (remaining : Quantity) : OrderData :=
  { id := taker.id, trader := taker.trader, side := taker.side, price := taker.limit, quantity := remaining,
    remaining, sequence := b.nextSeq }

def rest (b : ListBook) (taker : Taker) (remaining : Quantity) : ListBook :=
  let o := b.newOrder taker remaining
  if taker.side = .buy then { b with bids := insertOrder bidOrder o b.bids, nextSeq := b.nextSeq + 1 }
  else { b with asks := insertOrder askOrder o b.asks, nextSeq := b.nextSeq + 1 }

/-- The book after the walk of a taker. -/
def swept (b : ListBook) (taker : Taker) (r : Sweep) : ListBook :=
  { b with trades := r.trades }.setOpposite taker.side r.queue

/-- The walk a submitted order makes. -/
def walk (b : ListBook) (taker : Taker) (quantity : Quantity) : Sweep :=
  sweep b.stp taker quantity (b.opposite taker.side)

def submit (b : ListBook) (taker : Taker) (quantity : Quantity) : ListBook × SubmitResult :=
  if quantity = 0 ∨ taker.id ∈ b.ids then ({ b with trades := [] }, { SubmitResult.new with status := .rejected })
  else
    let r := b.walk taker quantity
    let res := { SubmitResult.new with filled := quantity - r.remaining, tradeCount := r.trades.length }
    if r.stopped then (b.swept taker r, { res with status := .cancelledBySelfTrade })
    else if r.remaining > 0 then
      ((b.swept taker r).rest taker r.remaining, { res with
        resting := r.remaining
        status := if res.filled > 0 then .partiallyFilled else .rested })
    else (b.swept taker r, { res with status := .fullyFilled })

def cancel (b : ListBook) (id : OrderId) : ListBook × Bool :=
  if id ∈ b.ids then
    ({ b with bids := b.bids.filter (·.id ≠ id), asks := b.asks.filter (·.id ≠ id) }, true)
  else (b, false)

end ListBook

/-! ## Calls and observations -/

inductive BookCall
  | submit (id : OrderId) (trader : TraderId) (side : Side) (price : Price) (quantity : Quantity)
  | cancel (id : OrderId)
  deriving DecidableEq, Repr

inductive BookRet
  | submitted (res : SubmitResult)
  | cancelled (found : Bool)
  deriving DecidableEq, Repr

/-- What the queries show; `none` is a query that does not return. -/
structure Observation where
  lastTrades : List Trade
  bestBid : Option Price
  bestAsk : Option Price
  bidLevels : Nat
  askLevels : Nat
  orderCount : Nat
  quantityAt : Side → Price → Option Quantity
  snapshot : Option (List OrderSnapshot)

def OrderBook.observe (b : OrderBook) : Observation :=
  { lastTrades := b.trades, bestBid := b.bestBid, bestAsk := b.bestAsk, bidLevels := b.bidLevels,
    askLevels := b.askLevels, orderCount := b.orderCount, quantityAt := b.quantityAt, snapshot := b.snapshot }

def OrderBook.call (b : OrderBook) : BookCall → Option (OrderBook × BookRet)
  | .submit id trader side price quantity =>
    (b.submit id trader side price quantity).map fun r => (r.1, .submitted r.2)
  | .cancel id => (b.cancel id).map fun r => (r.1, .cancelled r.2)

/-- A call and what the queries show after it. -/
def OrderBook.step (b : OrderBook) (c : BookCall) : Option (OrderBook × BookRet × Observation) :=
  (b.call c).map fun r => (r.1, r.2, r.1.observe)

namespace ListBook

def levelCount (queue : List OrderData) : Nat := (queue.map (·.price)).dedup.length

/-- The sum of the remainders at one price, modulo `2 ^ 64`. -/
def quantityOn (queue : List OrderData) (price : Price) : Quantity :=
  ((queue.filter (·.price = price)).map (·.remaining)).sum

def snapshotOf (side : Side) (queue : List OrderData) : List OrderSnapshot :=
  queue.map fun o => { side, price := o.price, id := o.id, remaining := o.remaining, sequence := o.sequence }

def snapshot (b : ListBook) : List OrderSnapshot := snapshotOf .buy b.bids ++ snapshotOf .sell b.asks

def bestBid (b : ListBook) : Option Price := b.bids.head?.map (·.price)

def bestAsk (b : ListBook) : Option Price := b.asks.head?.map (·.price)

def observe (b : ListBook) : Observation :=
  { lastTrades := b.trades, bestBid := b.bestBid, bestAsk := b.bestAsk, bidLevels := levelCount b.bids,
    askLevels := levelCount b.asks, orderCount := b.resting.length,
    quantityAt := fun side price => some (quantityOn (b.own side) price), snapshot := some b.snapshot }

def call (b : ListBook) : BookCall → ListBook × BookRet
  | .submit id trader side price quantity =>
    let r := b.submit { id, trader, side, limit := price } quantity
    (r.1, .submitted r.2)
  | .cancel id =>
    let r := b.cancel id
    (r.1, .cancelled r.2)

/-- A call and what the queries show after it. -/
def step (b : ListBook) (c : BookCall) : ListBook × BookRet × Observation :=
  ((b.call c).1, (b.call c).2, (b.call c).1.observe)

end ListBook

/-! ## The walk, case by case -/

section Walk

variable {stp : SelfTradePolicy} {taker : Taker} {remaining : Quantity} {o : OrderData} {queue : List OrderData}

@[simp] theorem sweep_nil : sweep stp taker remaining [] = ⟨[], [], remaining, false⟩ := rfl

theorem sweep_done (h : taker.done remaining o = true) :
    sweep stp taker remaining (o :: queue) = ⟨o :: queue, [], remaining, false⟩ := by
  rw [sweep, if_pos h]

@[simp] theorem sweep_zero (queue : List OrderData) : sweep stp taker 0 queue = ⟨queue, [], 0, false⟩ := by
  cases queue with
  | nil => rfl
  | cons o queue => exact sweep_done rfl

/-- `CancelResting`: the taker's own order leaves the book. -/
theorem sweep_resting (hd : taker.done remaining o = false) (hs : selfTrade stp taker o = true)
    (hp : stp = .cancelResting) : sweep stp taker remaining (o :: queue) = sweep stp taker remaining queue := by
  rw [sweep, hd, if_neg (by simp), if_pos hs, if_pos hp]

/-- `CancelAggressing`: the walk stops in front of the taker's own order. -/
theorem sweep_aggressing (hd : taker.done remaining o = false) (hs : selfTrade stp taker o = true)
    (hp : stp ≠ .cancelResting) : sweep stp taker remaining (o :: queue) = ⟨o :: queue, [], remaining, true⟩ := by
  rw [sweep, hd, if_neg (by simp), if_pos hs, if_neg hp]

/-- A trade that consumes the maker. -/
theorem sweep_fill (hd : taker.done remaining o = false) (hs : selfTrade stp taker o = false)
    (hf : o.remaining ≤ remaining) : sweep stp taker remaining (o :: queue) =
      (sweep stp taker (remaining - o.remaining) queue).after [taker.trade o o.remaining] := by
  have ht : tradedWith remaining o = o.remaining := by unfold tradedWith; rw [if_neg (UInt64.not_lt.2 hf)]
  rw [sweep, hd, if_neg (by simp), hs, if_neg (by simp), ht]
  exact if_pos (by simp [OrderData.isFilled, OrderData.reduce])

/-- A trade that consumes the taker. -/
theorem sweep_exhaust (hd : taker.done remaining o = false) (hs : selfTrade stp taker o = false)
    (hf : remaining < o.remaining) : sweep stp taker remaining (o :: queue) =
      ⟨o.reduce remaining :: queue, [taker.trade o remaining], 0, false⟩ := by
  have ht : tradedWith remaining o = remaining := by unfold tradedWith; rw [if_pos hf]
  rw [sweep, hd, if_neg (by simp), hs, if_neg (by simp), ht]
  rw [if_neg (by simp only [OrderData.isFilled, OrderData.reduce]; grind)]
  simp

@[simp] theorem reduce_zero (o : OrderData) : o.reduce 0 = o := by simp [OrderData.reduce]

/-- The case analysis of a walk at its first order. -/
theorem sweep_cases (stp : SelfTradePolicy) (taker : Taker) (remaining : Quantity) (o : OrderData)
    (queue : List OrderData) :
    (taker.done remaining o = true ∧ sweep stp taker remaining (o :: queue) = ⟨o :: queue, [], remaining, false⟩) ∨
    (taker.done remaining o = false ∧ selfTrade stp taker o = true ∧ stp = .cancelResting ∧
      sweep stp taker remaining (o :: queue) = sweep stp taker remaining queue) ∨
    (taker.done remaining o = false ∧ selfTrade stp taker o = true ∧ stp ≠ .cancelResting ∧
      sweep stp taker remaining (o :: queue) = ⟨o :: queue, [], remaining, true⟩) ∨
    (taker.done remaining o = false ∧ selfTrade stp taker o = false ∧ o.remaining ≤ remaining ∧
      sweep stp taker remaining (o :: queue) =
        (sweep stp taker (remaining - o.remaining) queue).after [taker.trade o o.remaining]) ∨
    (taker.done remaining o = false ∧ selfTrade stp taker o = false ∧ remaining < o.remaining ∧
      sweep stp taker remaining (o :: queue) = ⟨o.reduce remaining :: queue, [taker.trade o remaining], 0,
        false⟩) := by
  cases hd : taker.done remaining o with
  | true => exact .inl ⟨rfl, sweep_done hd⟩
  | false =>
    cases hs : selfTrade stp taker o with
    | true =>
      by_cases hp : stp = .cancelResting
      · exact .inr (.inl ⟨rfl, rfl, hp, sweep_resting hd hs hp⟩)
      · exact .inr (.inr (.inl ⟨rfl, rfl, hp, sweep_aggressing hd hs hp⟩))
    | false =>
      by_cases hf : remaining < o.remaining
      · exact .inr (.inr (.inr (.inr ⟨rfl, rfl, hf, sweep_exhaust hd hs hf⟩)))
      · have hf' : o.remaining ≤ remaining := UInt64.not_lt.1 hf
        exact .inr (.inr (.inr (.inl ⟨rfl, rfl, hf', sweep_fill hd hs hf'⟩)))

/-- A walk leaves a suffix of the orders, the first of them possibly reduced. -/
theorem sweep_queue (stp : SelfTradePolicy) (taker : Taker) (remaining : Quantity) (queue : List OrderData) :
    ∃ gone kept, queue = gone ++ kept ∧ ((sweep stp taker remaining queue).queue = kept ∨
      ∃ o l t, kept = o :: l ∧ t < o.remaining ∧ (sweep stp taker remaining queue).queue = o.reduce t :: l) := by
  induction queue generalizing remaining with
  | nil => exact ⟨[], [], rfl, .inl rfl⟩
  | cons o queue ih =>
    rcases sweep_cases stp taker remaining o queue with ⟨-, h⟩ | ⟨-, -, -, h⟩ | ⟨-, -, -, h⟩ | ⟨-, -, -, h⟩ |
      ⟨-, -, hlt, h⟩
    · exact ⟨[], o :: queue, rfl, .inl (by rw [h])⟩
    · obtain ⟨gone, kept, rfl, hk⟩ := ih remaining
      exact ⟨o :: gone, kept, rfl, by rw [h]; exact hk⟩
    · exact ⟨[], o :: queue, rfl, .inl (by rw [h])⟩
    · obtain ⟨gone, kept, rfl, hk⟩ := ih (remaining - o.remaining)
      exact ⟨o :: gone, kept, rfl, by rw [h]; exact hk⟩
    · exact ⟨[], o :: queue, rfl, .inr ⟨o, queue, remaining, rfl, hlt, by rw [h]⟩⟩

/-- What is left of an order after a walk. -/
theorem sweep_mem {d : OrderData} (h : d ∈ (sweep stp taker remaining queue).queue) :
    ∃ o ∈ queue, ∃ t, d = o.reduce t := by
  obtain ⟨gone, kept, rfl, hk | ⟨o, l, t, rfl, -, hk⟩⟩ := sweep_queue stp taker remaining queue
  · rw [hk] at h
    exact ⟨d, List.mem_append_right _ h, 0, (reduce_zero d).symm⟩
  · rw [hk] at h
    rcases List.mem_cons.1 h with rfl | h
    · exact ⟨o, List.mem_append_right _ (List.mem_cons_self ..), t, rfl⟩
    · exact ⟨d, List.mem_append_right _ (List.mem_cons_of_mem _ h), 0, (reduce_zero d).symm⟩

theorem sweep_id_mem {id : OrderId} (h : id ∈ (sweep stp taker remaining queue).queue.map (·.id)) :
    id ∈ queue.map (·.id) := by
  obtain ⟨d, hd, rfl⟩ := List.mem_map.1 h
  obtain ⟨o, ho, t, rfl⟩ := sweep_mem hd
  exact List.mem_map_of_mem (f := (·.id)) ho

/-- A change of the orders, the taker and the trades that a walk does not see. -/
structure SameWalk (stp : SelfTradePolicy) (taker taker' : Taker) (f : OrderData → OrderData) (g : Trade → Trade) :
    Prop where
  done : ∀ remaining o, taker'.done remaining (f o) = taker.done remaining o
  own : ∀ o, selfTrade stp taker' (f o) = selfTrade stp taker o
  remaining : ∀ o, (f o).remaining = o.remaining
  reduce : ∀ o t, (f o).reduce t = f (o.reduce t)
  trade : ∀ o t, taker'.trade (f o) t = g (taker.trade o t)

def Sweep.map (f : OrderData → OrderData) (g : Trade → Trade) (r : Sweep) : Sweep :=
  { r with queue := r.queue.map f, trades := r.trades.map g }

/-- The changed walk of the changed side. -/
theorem SameWalk.sweep {taker' : Taker} {f : OrderData → OrderData} {g : Trade → Trade}
    (h : SameWalk stp taker taker' f g) (remaining : Quantity) (queue : List OrderData) :
    sweep stp taker' remaining (queue.map f) = (Obe.sweep stp taker remaining queue).map f g := by
  induction queue generalizing remaining with
  | nil => rfl
  | cons o queue ih =>
    have hd := h.done remaining o
    have hs := h.own o
    have hr := h.remaining o
    rw [List.map_cons]
    rcases sweep_cases stp taker remaining o queue with ⟨h1, he⟩ | ⟨h1, h2, h3, he⟩ | ⟨h1, h2, h3, he⟩ |
      ⟨h1, h2, h3, he⟩ | ⟨h1, h2, h3, he⟩
    · rw [he, sweep_done (hd.trans h1)]
      rfl
    · rw [he, sweep_resting (hd.trans h1) (hs.trans h2) h3, ih]
    · rw [he, sweep_aggressing (hd.trans h1) (hs.trans h2) h3]
      rfl
    · rw [he, sweep_fill (hd.trans h1) (hs.trans h2) (hr ▸ h3), hr, h.trade, ih]
      simp [Sweep.after, Sweep.map]
    · rw [he, sweep_exhaust (hd.trans h1) (hs.trans h2) (hr ▸ h3), h.trade, h.reduce]
      rfl

end Walk

/-! ## Insertion and removal -/

/-- An order goes to its place among changed orders as it does among the orders. -/
theorem insertOrder_map (lt lt' : Price → Price → Prop) [DecidableRel lt] [DecidableRel lt']
    {f : OrderData → OrderData} (hf : ∀ a b, lt' (f a).price (f b).price ↔ lt a.price b.price) (o : OrderData)
    (l : List OrderData) : insertOrder lt' (f o) (l.map f) = (insertOrder lt o l).map f := by
  induction l with
  | nil => rfl
  | cons p l ih =>
    rw [List.map_cons, insertOrder, insertOrder]
    by_cases h : lt o.price p.price
    · rw [if_pos h, if_pos ((hf o p).2 h)]
      rfl
    · rw [if_neg h, if_neg fun h' => h ((hf o p).1 h'), ih]
      rfl

theorem insertOrder_append {lt : Price → Price → Prop} [DecidableRel lt] {d : OrderData} {l₁ l₂ : List OrderData}
    (h1 : ∀ a ∈ l₁, ¬ lt d.price a.price) (h2 : ∀ b ∈ l₂, lt d.price b.price) :
    insertOrder lt d (l₁ ++ l₂) = l₁ ++ d :: l₂ := by
  induction l₁ with
  | nil =>
    cases l₂ with
    | nil => rfl
    | cons b l₂ => exact if_pos (h2 b (List.mem_cons_self ..))
  | cons a l₁ ih =>
    rw [List.cons_append, insertOrder, if_neg (h1 a (List.mem_cons_self ..)),
      ih fun a' ha' => h1 a' (List.mem_cons_of_mem _ ha')]
    rfl

theorem insertOrder_perm (lt : Price → Price → Prop) [DecidableRel lt] (d : OrderData) (l : List OrderData) :
    (insertOrder lt d l).Perm (d :: l) := by
  induction l with
  | nil => exact .refl _
  | cons a l ih =>
    rw [insertOrder]
    split
    · exact .refl _
    · exact (ih.cons a).trans (.swap d a l)

section Delete

variable {α κ : Type} [DecidableEq κ] {f : α → κ} {x : α} {l l₁ l₂ : List α}

theorem filter_key_of_notMem {k : κ} (h : k ∉ l.map f) : l.filter (f · ≠ k) = l := by
  refine List.filter_eq_self.2 fun a ha => ?_
  have : f a ≠ k := fun e => h (e ▸ List.mem_map_of_mem ha)
  simpa using this

/-- Where keys are unique, deleting a key deletes one entry. -/
theorem filter_key_ne (h : ((l₁ ++ x :: l₂).map f).Nodup) : (l₁ ++ x :: l₂).filter (f · ≠ f x) = l₁ ++ l₂ := by
  rw [List.map_append, List.map_cons, List.nodup_middle, List.nodup_cons] at h
  rw [List.filter_append, List.filter_cons_of_neg (by simp),
    filter_key_of_notMem fun hm => h.1 (List.mem_append_left _ hm),
    filter_key_of_notMem fun hm => h.1 (List.mem_append_right _ hm)]

theorem filter_key_eq (h : ((l₁ ++ x :: l₂).map f).Nodup) : (l₁ ++ x :: l₂).filter (f · = f x) = [x] := by
  have hout : ∀ l : List α, f x ∉ l.map f → l.filter (f · = f x) = [] := by
    intro l hm
    refine List.filter_eq_nil_iff.2 fun a ha => ?_
    have : f a ≠ f x := fun e => hm (e ▸ List.mem_map_of_mem ha)
    simpa using this
  rw [List.map_append, List.map_cons, List.nodup_middle, List.nodup_cons] at h
  rw [List.filter_append, List.filter_cons_of_pos (by simp), hout l₁ fun hm => h.1 (List.mem_append_left _ hm),
    hout l₂ fun hm => h.1 (List.mem_append_right _ hm), List.nil_append]

end Delete

/-! ## The two sides of a call -/

namespace ListBook

variable {b : ListBook} {taker : Taker} {id : OrderId}

theorem resting_perm (b : ListBook) (side : Side) : b.resting.Perm (b.own side ++ b.opposite side) := by
  unfold resting own opposite
  split
  · exact .refl _
  · exact List.perm_append_comm

theorem mem_resting (side : Side) {d : OrderData} : d ∈ b.resting ↔ d ∈ b.own side ∨ d ∈ b.opposite side := by
  rw [(b.resting_perm side).mem_iff, List.mem_append]

@[simp] theorem swept_own (b : ListBook) (taker : Taker) (r : Sweep) :
    (b.swept taker r).own taker.side = b.own taker.side := by
  unfold swept setOpposite own; split <;> rfl

@[simp] theorem swept_opposite (b : ListBook) (taker : Taker) (r : Sweep) :
    (b.swept taker r).opposite taker.side = r.queue := by
  unfold swept setOpposite opposite; split <;> rfl

@[simp] theorem swept_trades (b : ListBook) (taker : Taker) (r : Sweep) : (b.swept taker r).trades = r.trades := by
  unfold swept setOpposite; split <;> rfl

@[simp] theorem swept_nextSeq (b : ListBook) (taker : Taker) (r : Sweep) : (b.swept taker r).nextSeq = b.nextSeq := by
  unfold swept setOpposite; split <;> rfl

@[simp] theorem swept_stp (b : ListBook) (taker : Taker) (r : Sweep) : (b.swept taker r).stp = b.stp := by
  unfold swept setOpposite; split <;> rfl

theorem rest_opposite (b : ListBook) (taker : Taker) (remaining : Quantity) :
    (b.rest taker remaining).opposite taker.side = b.opposite taker.side := by
  unfold rest opposite
  by_cases h : taker.side = .buy <;> simp [h]

@[simp] theorem rest_trades (b : ListBook) (taker : Taker) (remaining : Quantity) :
    (b.rest taker remaining).trades = b.trades := by unfold rest; dsimp only; split <;> rfl

@[simp] theorem rest_nextSeq (b : ListBook) (taker : Taker) (remaining : Quantity) :
    (b.rest taker remaining).nextSeq = b.nextSeq + 1 := by unfold rest; dsimp only; split <;> rfl

@[simp] theorem rest_stp (b : ListBook) (taker : Taker) (remaining : Quantity) :
    (b.rest taker remaining).stp = b.stp := by unfold rest; dsimp only; split <;> rfl

/-- A walk brings no new id into the book. -/
theorem swept_ids {quantity : Quantity} (h : id ∈ (b.swept taker (b.walk taker quantity)).ids) : id ∈ b.ids := by
  obtain ⟨d, hd, rfl⟩ := List.mem_map.1 h
  rw [mem_resting taker.side, swept_own, swept_opposite] at hd
  rcases hd with hd | hd
  · exact List.mem_map_of_mem ((mem_resting taker.side).2 (.inl hd))
  · obtain ⟨o, ho, t, rfl⟩ := sweep_mem hd
    exact List.mem_map.2 ⟨o, (mem_resting taker.side).2 (.inr ho), rfl⟩

/-- A cancel takes the id out of both sides, where it may be missing. -/
theorem cancel_eq (b : ListBook) (id : OrderId) : b.cancel id =
    ({ b with bids := b.bids.filter (·.id ≠ id), asks := b.asks.filter (·.id ≠ id) }, decide (id ∈ b.ids)) := by
  unfold cancel
  by_cases h : id ∈ b.ids
  · rw [if_pos h, decide_eq_true h]
  · have hsides := h
    rw [ids, resting, List.map_append, List.mem_append, not_or] at hsides
    rw [if_neg h, decide_eq_false h, filter_key_of_notMem hsides.1, filter_key_of_notMem hsides.2]

theorem mem_cancel {x : OrderData} : x ∈ (b.cancel id).1.resting ↔ x ∈ b.resting ∧ x.id ≠ id := by
  rw [cancel_eq]
  show x ∈ b.bids.filter (·.id ≠ id) ++ b.asks.filter (·.id ≠ id) ↔ _
  rw [← List.filter_append, List.mem_filter, decide_eq_true_eq]
  rfl

/-! ## The parts of a snapshot -/

theorem snapshotOf_filter (side tag : Side) (l : List OrderData) :
    (snapshotOf side l).filter (·.side = tag) = if side = tag then snapshotOf side l else [] := by
  have hside : ∀ s ∈ snapshotOf side l, s.side = side := by
    intro s hs
    obtain ⟨o, -, rfl⟩ := List.mem_map.1 hs
    rfl
  split
  · refine List.filter_eq_self.2 fun s hs => ?_
    simpa [hside s hs]
  · refine List.filter_eq_nil_iff.2 fun s hs => ?_
    simpa [hside s hs]

theorem snapshot_bids (b : ListBook) : b.snapshot.filter (·.side = .buy) = snapshotOf .buy b.bids := by
  unfold snapshot
  rw [List.filter_append, snapshotOf_filter, snapshotOf_filter, if_pos rfl, if_neg (by decide), List.append_nil]

theorem snapshot_asks (b : ListBook) : b.snapshot.filter (·.side = .sell) = snapshotOf .sell b.asks := by
  unfold snapshot
  rw [List.filter_append, snapshotOf_filter, snapshotOf_filter, if_pos rfl, if_neg (by decide), List.nil_append]

end ListBook

end Obe
