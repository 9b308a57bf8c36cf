/-
The outputs of the book are a complete feed. A subscriber that sees each call with what it returned
and the trades, and matches nothing itself, keeps the snapshot of the book: trades take from the
entries they name, a resting remainder is entered behind what is not worse, a cancel deletes. Only
`CancelResting` takes orders out without a word.
-/
import OrderBookEngine.Book.Invariant
import OrderBookEngine.Book.Refinement

namespace Obe

/-- A trade takes its quantity from the entry it names as its maker. -/
def OrderSnapshot.settle (t : Trade) (e : OrderSnapshot) : Option OrderSnapshot :=
  if e.id = t.makerId then
    if e.remaining = t.quantity then none else some { e with remaining := e.remaining - t.quantity }
  else some e

theorem OrderSnapshot.settle_used {t : Trade} {e : OrderSnapshot} (hid : e.id = t.makerId)
    (hq : e.remaining = t.quantity) : e.settle t = none := by
  unfold settle
  rw [if_pos hid, if_pos hq]

theorem OrderSnapshot.settle_reduced {t : Trade} {e : OrderSnapshot} (hid : e.id = t.makerId)
    (hq : e.remaining ≠ t.quantity) : e.settle t = some { e with remaining := e.remaining - t.quantity } := by
  unfold settle
  rw [if_pos hid, if_neg hq]

/-- The entries of a side after some trades. -/
def settle (trades : List Trade) (entries : List OrderSnapshot) : List OrderSnapshot :=
  trades.foldl (fun entries t => entries.filterMap (·.settle t)) entries

/-- Behind every entry whose price is not worse. -/
def insertEntry (lt : Price → Price → Prop) [DecidableRel lt] (e : OrderSnapshot) :
    List OrderSnapshot → List OrderSnapshot
  | [] => [e]
  | e' :: entries => if lt e.price e'.price then e :: e' :: entries else e' :: insertEntry lt e entries

structure Subscriber where
  bids : List OrderSnapshot
  asks : List OrderSnapshot
  nextSeq : Sequence
  deriving DecidableEq, Repr

namespace Subscriber

def new : Subscriber := { bids := [], asks := [], nextSeq := 1 }

def snapshot (s : Subscriber) : List OrderSnapshot := s.bids ++ s.asks

/-- Trades are with the side opposite to the taker's. -/
def traded (s : Subscriber) (side : Side) (trades : List Trade) : Subscriber :=
  if side = .buy then { s with asks := settle trades s.asks } else { s with bids := settle trades s.bids }

def rested (s : Subscriber) (id : OrderId) (side : Side) (price : Price) (resting : Quantity) : Subscriber :=
  if side = .buy then
    { s with bids := insertEntry bidOrder ⟨.buy, price, id, resting, s.nextSeq⟩ s.bids, nextSeq := s.nextSeq + 1 }
  else
    { s with asks := insertEntry askOrder ⟨.sell, price, id, resting, s.nextSeq⟩ s.asks, nextSeq := s.nextSeq + 1 }

/-- A call, what it returned and the trades of the book after it. -/
def receive (s : Subscriber) : BookCall → BookRet → List Trade → Subscriber
  | .submit id _ side price _, .submitted res, trades =>
    if res.resting > 0 then (s.traded side trades).rested id side price res.resting else s.traded side trades
  | .cancel id, .cancelled true, _ =>
    { s with bids := s.bids.filter (·.id ≠ id), asks := s.asks.filter (·.id ≠ id) }
  | _, _, _ => s

/-- The feed of a run. -/
def follow (s : Subscriber) (calls : List BookCall) (outs : List (BookRet × Observation)) : Subscriber :=
  (calls.zip outs).foldl (fun s x => s.receive x.1 x.2.1 x.2.2.lastTrades) s

end Subscriber

/-! ## One call -/

namespace ListBook

/-- What a subscriber of this book has. -/
def feed (b : ListBook) : Subscriber :=
  { bids := snapshotOf .buy b.bids, asks := snapshotOf .sell b.asks, nextSeq := b.nextSeq }

section Entries

variable {side : Side} {o : OrderData} {queue : List OrderData} {taker : Taker} {stp : SelfTradePolicy}

theorem snapshotOf_cons (side : Side) (o : OrderData) (queue : List OrderData) :
    snapshotOf side (o :: queue) = ⟨side, o.price, o.id, o.remaining, o.sequence⟩ :: snapshotOf side queue := rfl

/-- A trade with another order does not concern these. -/
theorem filterMap_settle_of_notMem {t : Trade} (h : t.makerId ∉ queue.map (·.id)) :
    (snapshotOf side queue).filterMap (·.settle t) = snapshotOf side queue := by
  induction queue with
  | nil => rfl
  | cons o queue ih =>
    rw [List.map_cons, List.mem_cons, not_or] at h
    have hself : (OrderSnapshot.mk side o.price o.id o.remaining o.sequence).settle t = some _ :=
      if_neg fun he => h.1 he.symm
    rw [snapshotOf_cons, List.filterMap_cons_some hself, ih h.2]

theorem settle_cons (t : Trade) (trades : List Trade) (entries : List OrderSnapshot) :
    settle (t :: trades) entries = settle trades (entries.filterMap (·.settle t)) := rfl

/-- The trades of a walk leave the entries of what the walk left. -/
theorem settle_sweep (taker : Taker) (side : Side) (hp : stp ≠ .cancelResting) (hnd : (queue.map (·.id)).Nodup) (remaining : Quantity) :
    settle (sweep stp taker remaining queue).trades (snapshotOf side queue) =
      snapshotOf side (sweep stp taker remaining queue).queue := by
  induction queue generalizing remaining with
  | nil => rfl
  | cons o queue ih =>
    obtain ⟨hnotMem, hnd⟩ := List.nodup_cons.1 hnd
    rcases sweep_cases stp taker remaining o queue with
      ⟨-, h⟩ | ⟨-, -, hp', -⟩ | ⟨-, -, -, h⟩ | ⟨-, -, -, h⟩ | ⟨-, -, hf, h⟩
    · rw [h]; rfl
    · exact absurd hp' hp
    · rw [h]; rfl
    · -- the maker is used up
      have hgone : (OrderSnapshot.mk side o.price o.id o.remaining o.sequence).settle
          (taker.trade o o.remaining) = none := OrderSnapshot.settle_used rfl rfl
      rw [h]
      show settle (taker.trade o o.remaining :: (sweep stp taker (remaining - o.remaining) queue).trades) _ =
        snapshotOf side (sweep stp taker (remaining - o.remaining) queue).queue
      rw [settle_cons, snapshotOf_cons, List.filterMap_cons_none hgone, filterMap_settle_of_notMem hnotMem]
      exact ih hnd _
    · -- the maker is reduced
      have hless : (OrderSnapshot.mk side o.price o.id o.remaining o.sequence).settle (taker.trade o remaining) =
          some ⟨side, o.price, o.id, o.remaining - remaining, o.sequence⟩ :=
        OrderSnapshot.settle_reduced rfl fun he : o.remaining = remaining => by grind
      rw [h]
      show (snapshotOf side (o :: queue)).filterMap (·.settle (taker.trade o remaining)) = _
      rw [snapshotOf_cons, List.filterMap_cons_some hless, filterMap_settle_of_notMem hnotMem]
      rfl

theorem snapshotOf_insertOrder (lt : Price → Price → Prop) [DecidableRel lt] (side : Side) (o : OrderData)
    (queue : List OrderData) : snapshotOf side (insertOrder lt o queue) =
      insertEntry lt ⟨side, o.price, o.id, o.remaining, o.sequence⟩ (snapshotOf side queue) := by
  induction queue with
  | nil => rfl
  | cons p queue ih =>
    rw [insertOrder, snapshotOf_cons, insertEntry]
    split
    · rfl
    · rw [snapshotOf_cons, ih]

theorem snapshotOf_delete (side : Side) (id : OrderId) (queue : List OrderData) :
    snapshotOf side (queue.filter (·.id ≠ id)) = (snapshotOf side queue).filter (·.id ≠ id) := by
  unfold snapshotOf
  rw [List.filter_map]
  rfl

end Entries

variable {b : ListBook} {taker : Taker} {quantity : Quantity}

theorem feed_swept (hv : b.Valid) (hp : b.stp ≠ .cancelResting) (taker : Taker) (quantity : Quantity) :
    (b.swept taker (b.walk taker quantity)).feed = b.feed.traded taker.side (b.walk taker quantity).trades := by
  have hnd := (hv.sideIds taker.side).2.1
  have hsweep := fun side => settle_sweep taker side hp hnd quantity
  unfold walk Subscriber.traded feed swept setOpposite
  unfold opposite at hsweep ⊢
  split <;> simp_all

theorem feed_rest (b : ListBook) (taker : Taker) (remaining : Quantity) :
    (b.rest taker remaining).feed = b.feed.rested taker.id taker.side taker.limit remaining := by
  unfold rest Subscriber.rested feed
  dsimp only
  split
  · rw [snapshotOf_insertOrder]; rfl
  · rw [snapshotOf_insertOrder]; rfl

/-- The step lemma: what a call returns and the trades are enough to follow it. -/
theorem feed_call (hv : b.Valid) (hp : b.stp ≠ .cancelResting) (c : BookCall) :
    (b.call c).1.feed = b.feed.receive c (b.call c).2 (b.call c).1.trades := by
  cases c with
  | submit id trader side price quantity =>
    have hsw := feed_swept hv hp ⟨id, trader, side, price⟩ quantity
    show (b.submit ⟨id, trader, side, price⟩ quantity).1.feed =
      b.feed.receive (.submit id trader side price quantity)
        (.submitted (b.submit ⟨id, trader, side, price⟩ quantity).2)
        (b.submit ⟨id, trader, side, price⟩ quantity).1.trades
    unfold Subscriber.receive
    dsimp only
    rcases submit_cases b ⟨id, trader, side, price⟩ quantity with ⟨-, he⟩ | ⟨-, ⟨-, he⟩ | ⟨-, hr, he⟩ | ⟨-, -, he⟩⟩
    · have hnone : b.feed.traded side [] = b.feed := by
        unfold Subscriber.traded
        split <;> rfl
      rw [he]
      exact hnone.symm
    · rw [he, swept_trades, hsw]
      rfl
    · rw [he, feed_rest, hsw, rest_trades, swept_trades]
      exact (if_pos hr).symm
    · rw [he, swept_trades, hsw]
      rfl
  | cancel id =>
    show (b.cancel id).1.feed = b.feed.receive (.cancel id) (.cancelled (b.cancel id).2) (b.cancel id).1.trades
    rw [cancel]
    split
    · unfold feed
      rw [snapshotOf_delete, snapshotOf_delete]
      rfl
    · rfl

/-- The run lemma. -/
theorem feed_run (hv : b.Valid) (hp : b.stp ≠ .cancelResting) (calls : List BookCall) :
    (Machine.runT step b calls).1.feed = b.feed.follow calls (Machine.runT step b calls).2 := by
  induction calls generalizing b with
  | nil => rfl
  | cons c calls ih =>
    have hstep : (b.step c).1.feed = b.feed.receive c (b.step c).2.1 (b.step c).2.2.lastTrades := feed_call hv hp c
    have hstp : (b.step c).1.stp ≠ .cancelResting := by
      rw [show (b.step c).1.stp = b.stp from call_stp b c]
      exact hp
    show (Machine.runT step (b.step c).1 calls).1.feed = (b.feed.receive c _ _).follow calls _
    rw [ih (hv.step c) hstp, hstep]
    rfl

end ListBook

namespace OrderBook

/-- **The outputs are a complete feed.** Under a policy that takes no resting order out, the calls of a
run, what they returned and the trades are enough to know the snapshot after it, without matching. -/
theorem feed_complete (stp : SelfTradePolicy) (hp : stp ≠ .cancelResting) (poolCapacity : UInt64)
    (calls : List BookCall) :
    ∃ b₀ b outs, create stp poolCapacity = some b₀ ∧ Machine.run step b₀ calls = some (b, outs) ∧
      b.snapshot = some (Subscriber.new.follow calls outs).snapshot := by
  obtain ⟨b₀, hr, h₀⟩ := create_spec stp poolCapacity
  obtain ⟨b, hrun, h⟩ := step_refines.run h₀ calls
  have hsnapshot : b.snapshot = _ := congrArg Observation.snapshot (observe_spec h)
  refine ⟨b₀, b, _, hr, hrun, ?_⟩
  have hfeed := ListBook.feed_run (ListBook.create_valid stp) hp calls
  have hnew : (ListBook.create stp).feed = Subscriber.new := rfl
  rw [hnew] at hfeed
  rw [hsnapshot, ← hfeed]
  rfl

/-- A sale that is traded in part, and a cancel. -/
theorem feed_complete_sale :
    ∃ b₀ b outs, create .none 8 = some b₀ ∧
      Machine.run step b₀ [.submit 1 1 .sell 100 5, .submit 2 2 .buy 100 3, .cancel 7] = some (b, outs) ∧
      b.snapshot = some (Subscriber.new.follow [.submit 1 1 .sell 100 5, .submit 2 2 .buy 100 3, .cancel 7]
        outs).snapshot :=
  feed_complete .none (by decide) 8 _

end OrderBook

end Obe
