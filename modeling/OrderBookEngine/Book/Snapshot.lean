/-
How much of the resting state a snapshot shows. What a book does next depends on its orders' ids,
prices, remainders and traders and on nothing else; the snapshot shows all of these but the traders,
and a book can be made to show the traders by trading with it.
-/
import OrderBookEngine.Book.Events
import OrderBookEngine.Book.Cancel

namespace Obe

/-- A call, its result and the trades it produced. -/
def OrderBook.reply (b : OrderBook) (c : BookCall) : Option (OrderBook × BookRet × List Trade) :=
  (b.call c).map fun r => (r.1, r.2, c.produced r.1.trades)

def ListBook.reply (b : ListBook) (c : BookCall) : ListBook × BookRet × List Trade :=
  ((b.call c).1, (b.call c).2, c.produced (b.call c).1.trades)

/-- The traders of the resting orders, in the order of the snapshot. -/
def OrderBook.traders (b : OrderBook) : List TraderId := b.sides.resting.map (·.trader)

theorem OrderBook.reply_refines : Machine.Refines OrderBook.reply ListBook.reply OrderBook.Represents := by
  intro b r c h
  obtain ⟨b', hr, h'⟩ := call_refines b r c h
  have ht : b'.trades = (r.call c).1.trades := congrArg Observation.lastTrades (observe_spec h')
  refine ⟨b', ?_, h'⟩
  rw [OrderBook.reply, hr, Option.map_some, ht]
  rfl

/-! ## What matching sees -/

/-- An order without what matching does not look at. -/
def OrderData.face (o : OrderData) : OrderData := { o with side := .buy, quantity := 0, sequence := 0 }

theorem sameWalk_face (stp : SelfTradePolicy) (taker : Taker) : SameWalk stp taker taker OrderData.face id :=
  ⟨fun _ _ => rfl, fun _ => rfl, fun _ => rfl, fun _ _ => rfl, fun _ _ => rfl⟩

namespace ListBook

variable {b b' : ListBook} {taker : Taker} {quantity : Quantity}

def face (b : ListBook) : ListBook :=
  { b with bids := b.bids.map OrderData.face, asks := b.asks.map OrderData.face, nextSeq := 0, trades := [] }

theorem face_opposite (b : ListBook) (side : Side) : b.face.opposite side = (b.opposite side).map OrderData.face := by
  unfold opposite
  split <;> rfl

theorem face_ids (b : ListBook) : b.face.ids = b.ids := by
  unfold ids resting face
  rw [List.map_append, List.map_append, List.map_map, List.map_map]
  rfl

@[simp] theorem map_face_face (l : List OrderData) : (l.map OrderData.face).map OrderData.face =
    l.map OrderData.face := by
  rw [List.map_map]
  rfl

theorem face_face (b : ListBook) : b.face.face = b.face := by
  unfold face
  rw [map_face_face, map_face_face]

theorem swept_face (r : Sweep) : (b.face.swept taker (r.map OrderData.face id)).face = (b.swept taker r).face := by
  unfold swept setOpposite
  split <;> simp [face, Sweep.map, Function.comp_def, OrderData.face]

theorem rest_face (remaining : Quantity) : (b.face.rest taker remaining).face = (b.rest taker remaining).face := by
  have hplace : ∀ (lt : Price → Price → Prop) [DecidableRel lt] (l : List OrderData),
      (insertOrder lt (b.face.newOrder taker remaining) (l.map OrderData.face)).map OrderData.face =
        (insertOrder lt (b.newOrder taker remaining) l).map OrderData.face := by
    intro lt _ l
    rw [← insertOrder_map lt lt (f := OrderData.face) (fun _ _ => Iff.rfl),
      ← insertOrder_map lt lt (f := OrderData.face) (fun _ _ => Iff.rfl), map_face_face]
    rfl
  unfold rest
  dsimp only
  split
  · exact congrArg₂ (fun x y => ({ b.face with bids := x, asks := y } : ListBook)) (hplace bidOrder b.bids)
      (map_face_face b.asks)
  · exact congrArg₂ (fun x y => ({ b.face with bids := x, asks := y } : ListBook)) (map_face_face b.bids)
      (hplace askOrder b.asks)

/-- A submit does not see more than the faces. -/
theorem submit_face (b : ListBook) (taker : Taker) (quantity : Quantity) :
    (b.face.submit taker quantity).1.face = (b.submit taker quantity).1.face ∧
      (b.face.submit taker quantity).2 = (b.submit taker quantity).2 ∧
      (b.face.submit taker quantity).1.trades = (b.submit taker quantity).1.trades := by
  have hwalk : b.face.walk taker quantity = (b.walk taker quantity).map OrderData.face id := by
    unfold walk
    rw [face_opposite]
    exact (sameWalk_face b.stp taker).sweep quantity (b.opposite taker.side)
  have htrades : ((b.walk taker quantity).map OrderData.face id).trades = (b.walk taker quantity).trades :=
    List.map_id _
  have hstopped : ((b.walk taker quantity).map OrderData.face id).stopped = (b.walk taker quantity).stopped := rfl
  have hremaining : ((b.walk taker quantity).map OrderData.face id).remaining =
    (b.walk taker quantity).remaining := rfl
  -- sides and sequences are read by nothing that follows
  have hswept := @swept_face b taker (b.walk taker quantity)
  have hrest : ∀ remaining, ((b.face.swept taker ((b.walk taker quantity).map OrderData.face id)).rest taker remaining).face =
      ((b.swept taker (b.walk taker quantity)).rest taker remaining).face := by
    intro remaining
    rw [← rest_face, hswept, rest_face]
  unfold submit
  dsimp only
  rw [face_ids, hwalk, htrades, hstopped, hremaining]
  split
  · exact ⟨face_face b, rfl, rfl⟩
  · split
    · exact ⟨hswept, rfl, by simp [htrades]⟩
    · split
      · exact ⟨hrest _, rfl, by simp [htrades]⟩
      · exact ⟨hswept, rfl, by simp [htrades]⟩

theorem cancel_face (b : ListBook) (id : OrderId) :
    (b.face.cancel id).1.face = (b.cancel id).1.face ∧ (b.face.cancel id).2 = (b.cancel id).2 := by
  have hfilter : ∀ l : List OrderData, ((l.map OrderData.face).filter (·.id ≠ id)).map OrderData.face =
      (l.filter (·.id ≠ id)).map OrderData.face := by
    intro l
    rw [List.filter_map, map_face_face]
    rfl
  rw [cancel_eq, cancel_eq, face_ids]
  refine ⟨?_, rfl⟩
  exact congrArg₂ (fun x y => ({ b.face with bids := x, asks := y } : ListBook)) (hfilter b.bids) (hfilter b.asks)

/-- A reply, and the face of the book it leaves. -/
def faceReply (b : ListBook) (c : BookCall) : ListBook × BookRet × List Trade := ((b.reply c).1.face, (b.reply c).2)

theorem faceReply_face (b : ListBook) (c : BookCall) : b.face.faceReply c = ((b.reply c).1.face, (b.reply c).2) := by
  cases c with
  | submit id trader side price quantity =>
    obtain ⟨h1, h2, h3⟩ := b.submit_face ⟨id, trader, side, price⟩ quantity
    exact Prod.ext h1 (Prod.ext (congrArg BookRet.submitted h2) h3)
  | cancel id =>
    obtain ⟨h1, h2⟩ := b.cancel_face id
    exact Prod.ext h1 (Prod.ext (congrArg BookRet.cancelled h2) rfl)

/-- **Books with the same face reply alike** to every further call. -/
theorem replies_of_face (h : b.face = b'.face) (calls : List BookCall) :
    (Machine.runT reply b calls).2 = (Machine.runT reply b' calls).2 := by
  have hrun : ∀ b : ListBook, (Machine.runT faceReply b.face calls).2 = (Machine.runT reply b calls).2 := by
    intro b
    have := Machine.runT_map (f := face) (g := id) (k := id) faceReply_face b calls
    rw [List.map_id] at this
    rw [this, List.map_id]
  rw [← hrun b, ← hrun b', h]

/-! ## What the snapshot leaves out -/

theorem map_face_eq {side : Side} {l l' : List OrderData} (hs : snapshotOf side l = snapshotOf side l')
    (ht : l.map (·.trader) = l'.map (·.trader)) : l.map OrderData.face = l'.map OrderData.face := by
  -- a face is made of an entry and a trader
  have hzip : ∀ l : List OrderData, l.map OrderData.face = List.zipWith (fun (s : OrderSnapshot) trader =>
      ({ id := s.id, trader, side := .buy, price := s.price, quantity := 0, remaining := s.remaining,
         sequence := 0 } : OrderData)) (snapshotOf side l) (l.map (·.trader)) := by
    intro l
    induction l with
    | nil => rfl
    | cons o l ih =>
      rw [List.map_cons, ih]
      rfl
  rw [hzip l, hzip l', hs, ht]

/-- Equal snapshots are equal on each side. -/
theorem snapshot_sides (h : b.snapshot = b'.snapshot) :
    snapshotOf .buy b.bids = snapshotOf .buy b'.bids ∧ snapshotOf .sell b.asks = snapshotOf .sell b'.asks := by
  rw [← snapshot_bids, ← snapshot_bids, ← snapshot_asks, ← snapshot_asks, h]
  exact ⟨rfl, rfl⟩

theorem face_eq (hstp : b.stp = b'.stp) (h : b.snapshot = b'.snapshot)
    (ht : b.resting.map (·.trader) = b'.resting.map (·.trader)) : b.face = b'.face := by
  obtain ⟨hb, ha⟩ := snapshot_sides h
  have hlen : (b.bids.map (·.trader)).length = (b'.bids.map (·.trader)).length := by
    have := congrArg List.length hb
    simpa [snapshotOf] using this
  unfold resting at ht
  rw [List.map_append, List.map_append] at ht
  obtain ⟨htb, hta⟩ := List.append_inj ht hlen
  unfold face
  rw [hstp, map_face_eq hb htb, map_face_eq ha hta]

/-! ## Asking for a trader -/

/-- Cancel every other order, and trade with the one that is left. -/
def probe (ids : List OrderId) (id : OrderId) (trader : TraderId) (side : Side) (price : Price) : List BookCall :=
  (ids.filter (· ≠ id)).map .cancel ++ [.submit (id + 1) trader side price 1]

theorem cancels_book (b : ListBook) (ids : List OrderId) : (Machine.runT reply b (ids.map .cancel)).1 =
    { b with bids := b.bids.filter (·.id ∉ ids), asks := b.asks.filter (·.id ∉ ids) } := by
  induction ids generalizing b with
  | nil => simp [Machine.runT]
  | cons id ids ih =>
    have hfilter : ∀ l : List OrderData, (l.filter (·.id ≠ id)).filter (·.id ∉ ids) =
      l.filter (·.id ∉ id :: ids) := by
      intro l
      rw [List.filter_filter]
      refine List.filter_congr fun o _ => ?_
      simp [Bool.and_comm]
    rw [List.map_cons]
    show (Machine.runT reply (b.cancel id).1 (ids.map .cancel)).1 = _
    rw [ih, cancel_eq, ← hfilter, ← hfilter]

/-- The probe trades with the order that is left. -/
theorem sweep_probe (stp : SelfTradePolicy) (id : OrderId) (side : Side) {trader : TraderId} {o : OrderData}
    (ht : o.trader ≠ trader) :
    (sweep stp ⟨id, trader, side, o.price⟩ 1 [o]).trades.map (·.makerTrader) = [o.trader] := by
  have hcross : crosses side o.price o.price = true := by
    unfold crosses
    split <;> exact decide_eq_true (Int64.le_refl _)
  have hdone : (⟨id, trader, side, o.price⟩ : Taker).done 1 o = false := not_done_iff.2 ⟨by decide, hcross⟩
  have hown : selfTrade stp ⟨id, trader, side, o.price⟩ o = false := by simp [selfTrade, ht]
  -- one unit takes the order or a part of it
  by_cases hf : o.remaining ≤ 1
  · rw [sweep_fill hdone hown hf]
    simp [Sweep.after, Taker.trade]
  · rw [sweep_exhaust hdone hown (UInt64.not_le.1 hf)]
    rfl

/-- What a probe of a resting order finds. -/
theorem probe_trader (hv : b.Valid) {side : Side} {o : OrderData} (ho : o ∈ b.opposite side) {trader : TraderId}
    (ht : o.trader ≠ trader) :
    (Machine.runT reply b (probe b.ids o.id trader side o.price)).2.getLast?.map (fun r => r.2.map (·.makerTrader)) =
      some [o.trader] := by
  have hbook := cancels_book b (b.ids.filter (· ≠ o.id))
  generalize hr : (Machine.runT reply b ((b.ids.filter (· ≠ o.id)).map .cancel)).1 = r at hbook
  -- what is left has the id of the order
  have hkeep : ∀ x ∈ b.resting, x.id ∉ b.ids.filter (· ≠ o.id) ↔ x.id = o.id := by
    intro x hx
    have hm : x.id ∈ b.ids := List.mem_map_of_mem hx
    simp [List.mem_filter, hm]
  have hopposite : r.opposite side = [o] := by
    have hfilter : r.opposite side = (b.opposite side).filter (·.id ∉ b.ids.filter (· ≠ o.id)) := by
      rw [hbook]
      unfold opposite
      split <;> rfl
    have hids := (hv.sideIds side).2.1
    have hall : ∀ x ∈ b.opposite side, x ∈ b.resting := fun x hx => (mem_resting side).2 (.inr hx)
    rw [hfilter, List.filter_congr fun x hx => decide_eq_decide.2 (hkeep x (hall x hx))]
    obtain ⟨l₁, l₂, hsplit⟩ := List.append_of_mem ho
    rw [hsplit] at hids ⊢
    exact filter_key_eq hids
  -- the probe's own id is free, also when `id + 1` wraps
  have hfresh : ¬ ((1 : Quantity) = 0 ∨ (⟨o.id + 1, trader, side, o.price⟩ : Taker).id ∈ r.ids) := by
    rintro (h | h)
    · exact absurd h (by decide)
    · obtain ⟨x, hx, hid⟩ := List.mem_map.1 h
      rw [hbook] at hx
      unfold resting at hx
      rw [← List.filter_append, List.mem_filter] at hx
      rw [(hkeep x hx.1).1 (of_decide_eq_true hx.2)] at hid
      have hne : o.id ≠ o.id + 1 := by grind
      exact hne hid
  have hreply : (r.reply (.submit (o.id + 1) trader side o.price 1)).2.2 =
      (sweep r.stp ⟨o.id + 1, trader, side, o.price⟩ 1 [o]).trades := by
    rw [← hopposite]
    exact (submit_accepted hfresh).1
  unfold probe
  rw [Machine.runT_append, hr]
  show ((_ ++ [(r.reply (.submit (o.id + 1) trader side o.price 1)).2]).getLast?).map _ = _
  rw [List.getLast?_concat, Option.map_some, hreply, sweep_probe r.stp (o.id + 1) side ht]

/-- Entries that agree, and traders that agree wherever ids and prices do. -/
theorem map_trader_eq {side : Side} {l l' : List OrderData} (hs : snapshotOf side l = snapshotOf side l')
    (ht : ∀ o ∈ l, ∀ o' ∈ l', o.id = o'.id → o.price = o'.price → o.trader = o'.trader) :
    l.map (·.trader) = l'.map (·.trader) := by
  induction l generalizing l' with
  | nil =>
    obtain rfl : l' = [] := by simpa [snapshotOf] using hs.symm
    rfl
  | cons o l ih =>
    cases l' with
    | nil => simp [snapshotOf] at hs
    | cons o' l' =>
      unfold snapshotOf at hs
      rw [List.map_cons, List.map_cons, List.cons.injEq, OrderSnapshot.mk.injEq] at hs
      obtain ⟨⟨-, hprice, hid, -, -⟩, htail⟩ := hs
      rw [List.map_cons, List.map_cons, ht o (List.mem_cons_self ..) o' (List.mem_cons_self ..) hid hprice,
        ih htail fun x hx x' hx' => ht x (List.mem_cons_of_mem _ hx) x' (List.mem_cons_of_mem _ hx')]

/-- A third trader. -/
theorem exists_trader (t t' : TraderId) : ∃ x : TraderId, t ≠ x ∧ t' ≠ x := by
  by_cases h0 : t = 0 ∨ t' = 0
  · by_cases h1 : t = 1 ∨ t' = 1
    · exact ⟨2, by grind⟩
    · exact ⟨1, by grind⟩
  · exact ⟨0, by grind⟩

/-- **Replies that agree to every further call show the same traders.** -/
theorem traders_of_replies (hv : b.Valid) (hv' : b'.Valid) (h : b.snapshot = b'.snapshot)
    (hreply : ∀ calls, (Machine.runT reply b calls).2 = (Machine.runT reply b' calls).2) :
    b.resting.map (·.trader) = b'.resting.map (·.trader) := by
  have hids : b.ids = b'.ids := by rw [← snapshot_ids, ← snapshot_ids, h]
  have hside : ∀ side : Side, ∀ o ∈ b.opposite side, ∀ o' ∈ b'.opposite side, o.id = o'.id → o.price = o'.price →
      o.trader = o'.trader := by
    intro side o ho o' ho' hid hprice
    -- a trader that neither book takes for the order's own
    obtain ⟨trader, ht, ht'⟩ := exists_trader o.trader o'.trader
    have h1 := probe_trader hv ho ht
    have h2 := probe_trader hv' ho' ht'
    rw [← hids, ← hid, ← hprice, ← hreply, h1] at h2
    simpa using h2
  obtain ⟨hb, ha⟩ := snapshot_sides h
  unfold resting
  rw [List.map_append, List.map_append, map_trader_eq hb (hside .sell), map_trader_eq ha (hside .buy)]

end ListBook

/-! ## The concrete book -/

namespace OrderBook

variable {b : OrderBook} {r : ListBook}

theorem Represents.traders (h : b.Represents r) : b.traders = r.resting.map (·.trader) := by
  unfold OrderBook.traders
  rw [sides_eq h]
  rfl

theorem Represents.replies (h : b.Represents r) (calls : List BookCall) :
    (Machine.run reply b calls).map (·.2) = some (Machine.runT ListBook.reply r calls).2 := by
  obtain ⟨b', hrun, -⟩ := reply_refines.run h calls
  rw [hrun]
  rfl

/-- **A snapshot is complete up to the traders**: reachable books with equal snapshots reply alike to
every further sequence of calls exactly when their orders are of the same traders. -/
theorem snapshot_complete_iff (stp : SelfTradePolicy) (poolCapacity poolCapacity' : UInt64)
    (calls calls' : List BookCall) :
    ∃ b₀ b outs b₀' b' outs', create stp poolCapacity = some b₀ ∧ Machine.run step b₀ calls = some (b, outs) ∧
      create stp poolCapacity' = some b₀' ∧ Machine.run step b₀' calls' = some (b', outs') ∧
      (b.snapshot = b'.snapshot →
        ((∀ further, (Machine.run reply b further).map (·.2) = (Machine.run reply b' further).map (·.2)) ↔
          b.traders = b'.traders)) := by
  obtain ⟨b₀, hr, h₀⟩ := create_spec stp poolCapacity
  obtain ⟨b, hrun, h⟩ := step_refines.run h₀ calls
  obtain ⟨b₀', hr', h₀'⟩ := create_spec stp poolCapacity'
  obtain ⟨b', hrun', h'⟩ := step_refines.run h₀' calls'
  obtain ⟨hv, hs⟩ := ListBook.reached_valid stp calls
  obtain ⟨hv', hs'⟩ := ListBook.reached_valid stp calls'
  refine ⟨b₀, b, _, b₀', b', _, hr, hrun, hr', hrun', fun hsnap => ?_⟩
  rw [h.snapshot_eq, h'.snapshot_eq, Option.some.injEq] at hsnap
  rw [h.traders, h'.traders]
  constructor
  · intro hreply
    refine ListBook.traders_of_replies hv hv' hsnap fun further => ?_
    have := hreply further
    rwa [h.replies, h'.replies, Option.some.injEq] at this
  · intro htraders further
    rw [h.replies, h'.replies, ListBook.replies_of_face (ListBook.face_eq (hs.trans hs'.symm) hsnap htraders)]

/-- Two orders that differ in their trader only: the same seller trades with one and takes the other,
its own, out of the book. -/
theorem snapshot_hides_traders :
    ∃ b₀ b outs b' outs', create .cancelResting 0 = some b₀ ∧
      Machine.run step b₀ [.submit 1 7 .buy 100 10] = some (b, outs) ∧
      Machine.run step b₀ [.submit 1 8 .buy 100 10] = some (b', outs') ∧ b.snapshot = b'.snapshot ∧
      (Machine.run reply b [.submit 2 7 .sell 100 10]).map (·.2) ≠
        (Machine.run reply b' [.submit 2 7 .sell 100 10]).map (·.2) := by
  obtain ⟨b₀, hr, h₀⟩ := create_spec .cancelResting 0
  obtain ⟨b, hrun, h⟩ := step_refines.run h₀ [.submit 1 7 .buy 100 10]
  obtain ⟨b', hrun', h'⟩ := step_refines.run h₀ [.submit 1 8 .buy 100 10]
  refine ⟨b₀, b, _, b', _, hr, hrun, hrun', ?_, ?_⟩
  · rw [h.snapshot_eq, h'.snapshot_eq]
    rfl
  · rw [h.replies, h'.replies]
    decide

end OrderBook

end Obe
