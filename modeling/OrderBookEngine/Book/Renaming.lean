/-
What a book does not see. Ids and traders are only ever compared for equality and prices for order,
so new ids, new traders and prices in the same order, given to every call of a run, are found in
everything the run returns and shows, and nothing else changes.
-/
import OrderBookEngine.Book.Invariant

namespace Obe

/-- New ids, traders and prices for old. -/
structure Renaming where
  id : OrderId → OrderId
  trader : TraderId → TraderId
  price : Price → Price

/-- The ids, traders and prices that a run may use. -/
structure Names where
  ids : Set OrderId
  traders : Set TraderId
  prices : Set Price

/-- Ids and traders stay apart, prices stay in order. -/
structure Renaming.Faithful (ρ : Renaming) (S : Names) : Prop where
  id : Set.InjOn ρ.id S.ids
  trader : Set.InjOn ρ.trader S.traders
  price : ∀ p ∈ S.prices, ∀ q ∈ S.prices, ρ.price p < ρ.price q ↔ p < q

def OrderData.rename (ρ : Renaming) (o : OrderData) : OrderData :=
  { o with id := ρ.id o.id, trader := ρ.trader o.trader, price := ρ.price o.price }

def Taker.rename (ρ : Renaming) (taker : Taker) : Taker :=
  { taker with id := ρ.id taker.id, trader := ρ.trader taker.trader, limit := ρ.price taker.limit }

def Trade.rename (ρ : Renaming) (t : Trade) : Trade :=
  { t with price := ρ.price t.price, takerId := ρ.id t.takerId, makerId := ρ.id t.makerId,
           takerTrader := ρ.trader t.takerTrader, makerTrader := ρ.trader t.makerTrader }

def OrderSnapshot.rename (ρ : Renaming) (s : OrderSnapshot) : OrderSnapshot :=
  { s with id := ρ.id s.id, price := ρ.price s.price }

def BookCall.rename (ρ : Renaming) : BookCall → BookCall
  | .submit id trader side price quantity => .submit (ρ.id id) (ρ.trader trader) side (ρ.price price) quantity
  | .cancel id => .cancel (ρ.id id)

/-- What the queries show, under new names. -/
structure Observation.Renamed (ρ : Renaming) (S : Names) (o o' : Observation) : Prop where
  lastTrades : o'.lastTrades = o.lastTrades.map (Trade.rename ρ)
  bestBid : o'.bestBid = o.bestBid.map ρ.price
  bestAsk : o'.bestAsk = o.bestAsk.map ρ.price
  bidLevels : o'.bidLevels = o.bidLevels
  askLevels : o'.askLevels = o.askLevels
  orderCount : o'.orderCount = o.orderCount
  quantityAt : ∀ side, ∀ price ∈ S.prices, o'.quantityAt side (ρ.price price) = o.quantityAt side price
  snapshot : o'.snapshot = o.snapshot.map (List.map (OrderSnapshot.rename ρ))

/-! ## Names in use -/

structure OrderData.Uses (o : OrderData) (S : Names) : Prop where
  id : o.id ∈ S.ids
  trader : o.trader ∈ S.traders
  price : o.price ∈ S.prices

structure Taker.Uses (taker : Taker) (S : Names) : Prop where
  id : taker.id ∈ S.ids
  trader : taker.trader ∈ S.traders
  limit : taker.limit ∈ S.prices

def BookCall.Uses (S : Names) : BookCall → Prop
  | .submit id trader _ price _ => id ∈ S.ids ∧ trader ∈ S.traders ∧ price ∈ S.prices
  | .cancel id => id ∈ S.ids

def ListBook.Uses (b : ListBook) (S : Names) : Prop := ∀ o ∈ b.resting, o.Uses S

namespace ListBook

variable {b : ListBook} {S : Names} {taker : Taker} {quantity : Quantity}

theorem Uses.opposite (h : b.Uses S) (side : Side) : ∀ o ∈ b.opposite side, o.Uses S := fun o ho =>
  h o ((mem_resting side).2 (.inr ho))

theorem Uses.own (h : b.Uses S) (side : Side) : ∀ o ∈ b.own side, o.Uses S := fun o ho =>
  h o ((mem_resting side).2 (.inl ho))

theorem Uses.swept (h : b.Uses S) (taker : Taker) (quantity : Quantity) :
    (b.swept taker (b.walk taker quantity)).Uses S := by
  intro o ho
  rw [mem_resting taker.side, swept_own, swept_opposite] at ho
  rcases ho with ho | ho
  · exact h.own taker.side o ho
  · obtain ⟨d, hd, t, rfl⟩ := sweep_mem ho
    have hd' := h.opposite taker.side d hd
    exact ⟨hd'.id, hd'.trader, hd'.price⟩

theorem Uses.submit (h : b.Uses S) (ht : taker.Uses S) (quantity : Quantity) :
    (b.submit taker quantity).1.Uses S := by
  have hsw := h.swept taker quantity
  rcases submit_cases b taker quantity with ⟨-, he⟩ | ⟨-, ⟨-, he⟩ | ⟨-, -, he⟩ | ⟨-, -, he⟩⟩
  · rw [he]; exact h
  · rw [he]; exact hsw
  · rw [he]
    intro o ho
    rcases List.mem_cons.1 ((rest_resting_perm _ _ _).mem_iff.1 ho) with rfl | ho
    · exact ⟨ht.id, ht.trader, ht.limit⟩
    · exact hsw o ho
  · rw [he]; exact hsw

theorem Uses.call (h : b.Uses S) {c : BookCall} (hc : c.Uses S) : (b.call c).1.Uses S := by
  cases c with
  | submit id trader side price quantity => exact h.submit ⟨hc.1, hc.2.1, hc.2.2⟩ quantity
  | cancel id => exact fun o ho => h o (mem_cancel.1 ho).1

end ListBook

/-! ## The walk -/

section Walk

variable {ρ : Renaming} {S : Names} {stp : SelfTradePolicy} {taker : Taker} {o : OrderData} {queue : List OrderData}

theorem Renaming.Faithful.price_le (hρ : ρ.Faithful S) {p q : Price} (hp : p ∈ S.prices) (hq : q ∈ S.prices) :
    ρ.price p ≤ ρ.price q ↔ p ≤ q := by
  rw [← Int64.not_lt, ← Int64.not_lt, hρ.price q hq p hp]

theorem Renaming.Faithful.price_inj (hρ : ρ.Faithful S) : Set.InjOn ρ.price S.prices := by
  intro p hp q hq h
  refine Int64.le_antisymm ((hρ.price_le hp hq).1 ?_) ((hρ.price_le hq hp).1 ?_)
  · rw [h]; exact Int64.le_refl _
  · rw [h]; exact Int64.le_refl _

theorem crosses_rename (hρ : ρ.Faithful S) {limit price : Price} (hl : limit ∈ S.prices) (hp : price ∈ S.prices)
    (side : Side) : crosses side (ρ.price limit) (ρ.price price) = crosses side limit price := by
  unfold crosses
  split
  · exact decide_eq_decide.2 (hρ.price_le hp hl)
  · exact decide_eq_decide.2 (hρ.price_le hl hp)

theorem done_rename (hρ : ρ.Faithful S) (ht : taker.Uses S) (ho : o.Uses S) (remaining : Quantity) :
    (taker.rename ρ).done remaining (o.rename ρ) = taker.done remaining o := by
  unfold Taker.done
  exact congrArg (_ || !·) (crosses_rename hρ ht.limit ho.price taker.side)

theorem selfTrade_rename (hρ : ρ.Faithful S) (ht : taker.Uses S) (ho : o.Uses S) (stp : SelfTradePolicy) :
    selfTrade stp (taker.rename ρ) (o.rename ρ) = selfTrade stp taker o := by
  unfold selfTrade
  exact congrArg (_ && ·) (decide_eq_decide.2 (hρ.trader.eq_iff ho.trader ht.trader))

/-- The walk of the renamed side. -/
theorem sweep_rename (hρ : ρ.Faithful S) (ht : taker.Uses S) (hq : ∀ o ∈ queue, o.Uses S) (remaining : Quantity) :
    sweep stp (taker.rename ρ) remaining (queue.map (OrderData.rename ρ)) =
      (sweep stp taker remaining queue).map (OrderData.rename ρ) (Trade.rename ρ) := by
  induction queue generalizing remaining with
  | nil => rfl
  | cons o queue ih =>
    have ho := hq o (List.mem_cons_self ..)
    have hrest := ih fun x hx => hq x (List.mem_cons_of_mem _ hx)
    have hd := done_rename hρ ht ho remaining
    have hs := selfTrade_rename hρ ht ho stp
    rw [List.map_cons]
    rcases sweep_cases stp taker remaining o queue with ⟨h1, he⟩ | ⟨h1, h2, h3, he⟩ | ⟨h1, h2, h3, he⟩ |
      ⟨h1, h2, h3, he⟩ | ⟨h1, h2, h3, he⟩
    · rw [he, sweep_done (hd.trans h1)]
      rfl
    · rw [he, sweep_resting (hd.trans h1) (hs.trans h2) h3, hrest]
    · rw [he, sweep_aggressing (hd.trans h1) (hs.trans h2) h3]
      rfl
    · rw [he, sweep_fill (hd.trans h1) (hs.trans h2) h3]
      exact congrArg (Sweep.after [_]) (hrest _)
    · rw [he, sweep_exhaust (hd.trans h1) (hs.trans h2) h3]
      rfl

/-- An order goes to its place among renamed orders as it does among the orders. -/
theorem insertOrder_rename (ρ : Renaming) (lt : Price → Price → Prop) [DecidableRel lt]
    (hlt : ∀ p ∈ S.prices, ∀ q ∈ S.prices, lt (ρ.price p) (ρ.price q) ↔ lt p q) (ho : o.Uses S)
    (hq : ∀ o ∈ queue, o.Uses S) :
    insertOrder lt (o.rename ρ) (queue.map (OrderData.rename ρ)) =
      (insertOrder lt o queue).map (OrderData.rename ρ) := by
  induction queue with
  | nil => rfl
  | cons p queue ih =>
    have hp := hlt o.price ho.price p.price (hq p (List.mem_cons_self ..)).price
    have hrest := ih fun x hx => hq x (List.mem_cons_of_mem _ hx)
    rw [List.map_cons, insertOrder, insertOrder]
    by_cases h : lt o.price p.price
    · rw [if_pos h, if_pos (show lt (o.rename ρ).price (p.rename ρ).price from hp.2 h)]
      rfl
    · rw [if_neg h, if_neg (show ¬ lt (o.rename ρ).price (p.rename ρ).price from fun h' => h (hp.1 h')), hrest]
      rfl

end Walk

/-! ## The book -/

namespace ListBook

variable {ρ : Renaming} {S : Names} {b : ListBook} {taker : Taker}

def rename (b : ListBook) (ρ : Renaming) : ListBook :=
  { b with bids := b.bids.map (OrderData.rename ρ), asks := b.asks.map (OrderData.rename ρ),
           trades := b.trades.map (Trade.rename ρ) }

theorem rename_own (b : ListBook) (ρ : Renaming) (side : Side) :
    (b.rename ρ).own side = (b.own side).map (OrderData.rename ρ) := by
  unfold own
  split <;> rfl

theorem rename_opposite (b : ListBook) (ρ : Renaming) (side : Side) :
    (b.rename ρ).opposite side = (b.opposite side).map (OrderData.rename ρ) := by
  unfold opposite
  split <;> rfl

theorem rename_resting (b : ListBook) (ρ : Renaming) :
    (b.rename ρ).resting = b.resting.map (OrderData.rename ρ) := List.map_append.symm

theorem mem_rename_ids (hρ : ρ.Faithful S) (hb : b.Uses S) {id : OrderId} (hid : id ∈ S.ids) :
    ρ.id id ∈ (b.rename ρ).ids ↔ id ∈ b.ids := by
  unfold ids
  rw [rename_resting, List.map_map, List.mem_map, List.mem_map]
  constructor
  · rintro ⟨o, ho, he⟩
    exact ⟨o, ho, hρ.id (hb o ho).id hid he⟩
  · rintro ⟨o, ho, rfl⟩
    exact ⟨o, ho, rfl⟩

theorem swept_rename (b : ListBook) (taker : Taker) (r : Sweep) :
    (b.rename ρ).swept (taker.rename ρ) (r.map (OrderData.rename ρ) (Trade.rename ρ)) =
      (b.swept taker r).rename ρ := by
  unfold swept setOpposite Taker.rename
  dsimp only
  split <;> rfl

theorem rest_rename (hρ : ρ.Faithful S) (hb : b.Uses S) (ht : taker.Uses S) (remaining : Quantity) :
    (b.rename ρ).rest (taker.rename ρ) remaining = (b.rest taker remaining).rename ρ := by
  have hnew : (b.rename ρ).newOrder (taker.rename ρ) remaining = (b.newOrder taker remaining).rename ρ := rfl
  have huses : (b.newOrder taker remaining).Uses S := ⟨ht.id, ht.trader, ht.limit⟩
  have hside : (taker.rename ρ).side = taker.side := rfl
  unfold rest
  dsimp only
  rw [hnew, hside]
  split
  · have hplace := insertOrder_rename ρ bidOrder (fun p hp q hq => hρ.price q hq p hp) huses
      fun o ho => hb o (List.mem_append_left _ ho)
    exact congrArg (fun l => { b.rename ρ with bids := l, nextSeq := b.nextSeq + 1 }) hplace
  · have hplace := insertOrder_rename ρ askOrder hρ.price huses
      fun o ho => hb o (List.mem_append_right _ ho)
    exact congrArg (fun l => { b.rename ρ with asks := l, nextSeq := b.nextSeq + 1 }) hplace

theorem submit_rename (hρ : ρ.Faithful S) (hb : b.Uses S) (taker : Taker) (ht : taker.Uses S) (quantity : Quantity) :
    (b.rename ρ).submit (taker.rename ρ) quantity =
      ((b.submit taker quantity).1.rename ρ, (b.submit taker quantity).2) := by
  have hwalk : (b.rename ρ).walk (taker.rename ρ) quantity =
      (b.walk taker quantity).map (OrderData.rename ρ) (Trade.rename ρ) := by
    unfold walk
    rw [show (b.rename ρ).opposite (taker.rename ρ).side = _ from b.rename_opposite ρ taker.side]
    exact sweep_rename hρ ht (hb.opposite taker.side) quantity
  have hlen : ((b.walk taker quantity).map (OrderData.rename ρ) (Trade.rename ρ)).trades.length =
      (b.walk taker quantity).trades.length := List.length_map _
  have hids : quantity = 0 ∨ (taker.rename ρ).id ∈ (b.rename ρ).ids ↔ quantity = 0 ∨ taker.id ∈ b.ids :=
    or_congr_right (mem_rename_ids hρ hb ht.id)
  unfold submit
  dsimp only
  by_cases hr : quantity = 0 ∨ taker.id ∈ b.ids
  · rw [if_pos hr, if_pos (hids.2 hr)]
    rfl
  · rw [if_neg hr, if_neg (fun h => hr (hids.1 h)), hwalk, hlen, swept_rename]
    show (if (b.walk taker quantity).stopped then _ else if (b.walk taker quantity).remaining > 0 then _ else _) = _
    split
    · rfl
    · split
      · exact Prod.ext (rest_rename hρ (hb.swept taker quantity) ht _) rfl
      · rfl

theorem cancel_rename (hρ : ρ.Faithful S) (hb : b.Uses S) {id : OrderId} (hid : id ∈ S.ids) :
    (b.rename ρ).cancel (ρ.id id) = ((b.cancel id).1.rename ρ, (b.cancel id).2) := by
  have hfilter : ∀ l : List OrderData, (∀ o ∈ l, o.Uses S) →
      (l.map (OrderData.rename ρ)).filter (·.id ≠ ρ.id id) = (l.filter (·.id ≠ id)).map (OrderData.rename ρ) := by
    intro l hl
    rw [List.filter_map]
    refine congrArg (List.map _) (List.filter_congr fun o ho => ?_)
    exact decide_eq_decide.2 (not_congr (hρ.id.eq_iff (hl o ho).id hid))
  have hfound : decide (ρ.id id ∈ (b.rename ρ).ids) = decide (id ∈ b.ids) :=
    decide_eq_decide.2 (mem_rename_ids hρ hb hid)
  have hbids := hfilter b.bids fun o ho => hb o (List.mem_append_left _ ho)
  have hasks := hfilter b.asks fun o ho => hb o (List.mem_append_right _ ho)
  rw [cancel_eq, cancel_eq, hfound]
  exact congrArg₂ (fun x y => (({ b.rename ρ with bids := x, asks := y } : ListBook), decide (id ∈ b.ids))) hbids hasks

theorem call_rename (hρ : ρ.Faithful S) (hb : b.Uses S) {c : BookCall} (hc : c.Uses S) :
    (b.rename ρ).call (c.rename ρ) = ((b.call c).1.rename ρ, (b.call c).2) := by
  cases c with
  | submit id trader side price quantity =>
    have h := submit_rename hρ hb ⟨id, trader, side, price⟩ ⟨hc.1, hc.2.1, hc.2.2⟩ quantity
    exact congrArg (fun r => (r.1, BookRet.submitted r.2)) h
  | cancel id => exact congrArg (fun r => (r.1, BookRet.cancelled r.2)) (cancel_rename hρ hb hc)

/-! ## The queries -/

theorem levelCount_rename (hρ : ρ.Faithful S) {l : List OrderData} (hl : ∀ o ∈ l, o.Uses S) :
    levelCount (l.map (OrderData.rename ρ)) = levelCount l := by
  have himage : ((l.map (OrderData.rename ρ)).map (·.price)).toFinset = (l.map (·.price)).toFinset.image ρ.price := by
    ext p
    simp [OrderData.rename]
  have hinj : Set.InjOn ρ.price ((l.map (·.price)).toFinset : Set Price) := by
    refine hρ.price_inj.mono fun p hp => ?_
    obtain ⟨o, ho, rfl⟩ := List.mem_map.1 (List.mem_toFinset.1 hp)
    exact (hl o ho).price
  unfold levelCount
  rw [← List.card_toFinset, ← List.card_toFinset, himage, Finset.card_image_of_injOn hinj]

theorem quantityOn_rename (hρ : ρ.Faithful S) {l : List OrderData} (hl : ∀ o ∈ l, o.Uses S) {price : Price}
    (hp : price ∈ S.prices) : quantityOn (l.map (OrderData.rename ρ)) (ρ.price price) = quantityOn l price := by
  unfold quantityOn
  rw [List.filter_map, List.map_map]
  refine congrArg (fun l : List OrderData => (l.map (·.remaining)).sum) (List.filter_congr fun o ho => ?_)
  exact decide_eq_decide.2 (hρ.price_inj.eq_iff (hl o ho).price hp)

theorem snapshot_rename (b : ListBook) (ρ : Renaming) :
    (b.rename ρ).snapshot = b.snapshot.map (OrderSnapshot.rename ρ) := by
  unfold snapshot snapshotOf rename
  rw [List.map_append, List.map_map, List.map_map, List.map_map, List.map_map]
  rfl

theorem observe_rename (hρ : ρ.Faithful S) (hb : b.Uses S) : Observation.Renamed ρ S b.observe (b.rename ρ).observe := by
  have hhead : ∀ l : List OrderData, (l.map (OrderData.rename ρ)).head?.map (·.price) =
      (l.head?.map (·.price)).map ρ.price := by
    intro l
    cases l <;> rfl
  constructor
  case lastTrades => rfl
  case bestBid => exact hhead b.bids
  case bestAsk => exact hhead b.asks
  case bidLevels => exact levelCount_rename hρ fun o ho => hb o (List.mem_append_left _ ho)
  case askLevels => exact levelCount_rename hρ fun o ho => hb o (List.mem_append_right _ ho)
  case orderCount =>
    show (b.rename ρ).resting.length = b.resting.length
    rw [rename_resting, List.length_map]
  case quantityAt =>
    intro side price hp
    show some (quantityOn ((b.rename ρ).own side) (ρ.price price)) = some (quantityOn (b.own side) price)
    rw [rename_own, quantityOn_rename hρ (hb.own side) hp]
  case snapshot => exact congrArg some (b.snapshot_rename ρ)

/-- A renamed run, from a renamed book. -/
theorem run_renamed (hρ : ρ.Faithful S) (hb : b.Uses S) (calls : List BookCall) (hc : ∀ c ∈ calls, c.Uses S) :
    List.Forall₂ (fun o o' => o'.1 = o.1 ∧ Observation.Renamed ρ S o.2 o'.2) (Machine.runT step b calls).2
      (Machine.runT step (b.rename ρ) (calls.map (BookCall.rename ρ))).2 := by
  induction calls generalizing b with
  | nil => exact .nil
  | cons c calls ih =>
    have hcall := call_rename hρ hb (hc c (List.mem_cons_self ..))
    have hb' : (b.call c).1.Uses S := hb.call (hc c (List.mem_cons_self ..))
    have hrest := ih hb' fun x hx => hc x (List.mem_cons_of_mem _ hx)
    rw [List.map_cons, Machine.runT_cons, Machine.runT_cons]
    unfold step at hrest ⊢
    rw [hcall]
    exact .cons ⟨rfl, observe_rename hρ hb'⟩ hrest

end ListBook

/-- **The book sees ids and traders up to equality and prices up to order.** In every run whose calls are
given new names, ids and traders kept apart and prices kept in order, each call returns what it returned
and the queries show what they showed, under the new names. -/
theorem OrderBook.run_rename (stp : SelfTradePolicy) (poolCapacity poolCapacity' : UInt64) (ρ : Renaming) (S : Names)
    (hρ : ρ.Faithful S) (calls : List BookCall) (hc : ∀ c ∈ calls, c.Uses S) :
    ∃ b₀ b outs b₀' b' outs', create stp poolCapacity = some b₀ ∧ create stp poolCapacity' = some b₀' ∧
      Machine.run step b₀ calls = some (b, outs) ∧
      Machine.run step b₀' (calls.map (BookCall.rename ρ)) = some (b', outs') ∧
      List.Forall₂ (fun o o' => o'.1 = o.1 ∧ Observation.Renamed ρ S o.2 o'.2) outs outs' := by
  obtain ⟨b₀, hr, h₀⟩ := create_spec stp poolCapacity
  obtain ⟨b₀', hr', h₀'⟩ := create_spec stp poolCapacity'
  obtain ⟨b, hrun, -⟩ := step_refines.run h₀ calls
  obtain ⟨b', hrun', -⟩ := step_refines.run h₀' (calls.map (BookCall.rename ρ))
  have hempty : (ListBook.create stp).Uses S := by simp [ListBook.Uses, ListBook.create, ListBook.resting]
  exact ⟨b₀, b, _, b₀', b', _, hr, hr', hrun, hrun', ListBook.run_renamed hρ hempty calls hc⟩

/-- Prices a hundred ticks up, ids and traders one up. -/
def shifted : Renaming := { id := (· + 1), trader := (· + 1), price := (· + 100) }

theorem OrderBook.run_rename_shifted :
    ∃ b₀ b outs b₀' b' outs', create .cancelResting 4 = some b₀ ∧ create .cancelResting 8 = some b₀' ∧
      Machine.run step b₀ [.submit 1 7 .sell 101 5, .submit 2 8 .buy 102 3, .cancel 1] = some (b, outs) ∧
      Machine.run step b₀' [.submit 2 8 .sell 201 5, .submit 3 9 .buy 202 3, .cancel 2] = some (b', outs') ∧
      List.Forall₂ (fun o o' => o'.1 = o.1 ∧
        Observation.Renamed shifted ⟨{1, 2}, {7, 8}, {101, 102}⟩ o.2 o'.2) outs outs' := by
  refine run_rename .cancelResting 4 8 shifted ⟨{1, 2}, {7, 8}, {101, 102}⟩ ?_
    [.submit 1 7 .sell 101 5, .submit 2 8 .buy 102 3, .cancel 1] ?_
  · constructor
    case id => rintro x - y - h; exact UInt64.add_left_inj _ |>.1 h
    case trader => rintro x - y - h; exact UInt32.add_left_inj _ |>.1 h
    case price =>
      rintro p (rfl | rfl) q (rfl | rfl)
      all_goals decide
  · intro c hc
    simp only [List.mem_cons, List.not_mem_nil, or_false] at hc
    rcases hc with rfl | rfl | rfl
    · exact ⟨.inl rfl, .inl rfl, .inl rfl⟩
    · exact ⟨.inr rfl, .inr rfl, .inr rfl⟩
    · exact .inl rfl

end Obe
