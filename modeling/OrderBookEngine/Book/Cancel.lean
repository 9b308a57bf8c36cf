/-
What a cancel does to the book: one entry of the snapshot goes, with its level when nothing else is
there, and everything else stays. Cancels of different ids commute, and a cancel takes back a submit
that found nothing to trade with.
-/
import OrderBookEngine.Book.Invariant

namespace Obe

/-- The prices of the levels on one side of the tree. -/
def OrderBook.levelPrices (b : OrderBook) (side : Side) : List Price :=
  if side = .buy then b.bids.keys else b.asks.keys

/-- The best price an order on `side` can trade at. -/
def OrderBook.bestOpposite (b : OrderBook) (side : Side) : Option Price :=
  if side = .buy then b.bestAsk else b.bestBid

/-! ## Deleting an entry -/

namespace ListBook

variable {b : ListBook} {taker : Taker} {id : OrderId} {quantity : Quantity}

theorem snapshotOf_ids (side : Side) (l : List OrderData) : (snapshotOf side l).map (·.id) = l.map (·.id) := by
  unfold snapshotOf
  rw [List.map_map]
  rfl

theorem snapshot_ids (b : ListBook) : b.snapshot.map (·.id) = b.ids := by
  unfold snapshot ids resting
  rw [List.map_append, snapshotOf_ids, snapshotOf_ids, List.map_append]

/-- An entry shows an order of its side. -/
theorem exists_snapshot {side : Side} (hs : side = .buy ∨ side = .sell) {price : Price} :
    (∃ y ∈ b.snapshot, y.side = side ∧ y.price = price) ↔ price ∈ (b.own side).map (·.price) := by
  have hpart : ∀ tag l, (∃ y ∈ snapshotOf tag l, y.side = side ∧ y.price = price) ↔
      tag = side ∧ price ∈ l.map (·.price) := by
    intro tag l
    constructor
    · rintro ⟨y, hy, rfl, rfl⟩
      obtain ⟨o, ho, rfl⟩ := List.mem_map.1 hy
      exact ⟨rfl, List.mem_map_of_mem ho⟩
    · rintro ⟨rfl, hp⟩
      obtain ⟨o, ho, rfl⟩ := List.mem_map.1 hp
      exact ⟨_, List.mem_map_of_mem ho, rfl, rfl⟩
  have hsplit : (∃ y ∈ b.snapshot, y.side = side ∧ y.price = price) ↔
      (∃ y ∈ snapshotOf .buy b.bids, y.side = side ∧ y.price = price) ∨
        ∃ y ∈ snapshotOf .sell b.asks, y.side = side ∧ y.price = price := by
    unfold snapshot
    simp only [List.mem_append, or_and_right, exists_or]
  rw [hsplit, hpart, hpart]
  rcases hs with rfl | rfl
  · simp [own, Side.buy, Side.sell]
  · simp [own, Side.buy, Side.sell]

theorem cancel_snapshot (b : ListBook) (id : OrderId) : (b.cancel id).1.snapshot = b.snapshot.filter (·.id ≠ id) := by
  have hpart : ∀ side l, snapshotOf side (l.filter (·.id ≠ id)) = (snapshotOf side l).filter (·.id ≠ id) := by
    intro side l
    unfold snapshotOf
    rw [List.filter_map]
    rfl
  rw [cancel_eq]
  unfold snapshot
  rw [List.filter_append, hpart, hpart]

theorem mem_cancel_ids {i : OrderId} : i ∈ (b.cancel id).1.ids ↔ i ∈ b.ids ∧ i ≠ id := by
  unfold ids
  simp only [List.mem_map, mem_cancel]
  constructor
  · rintro ⟨o, ⟨ho, hne⟩, rfl⟩
    exact ⟨⟨o, ho, rfl⟩, hne⟩
  · rintro ⟨⟨o, ho, rfl⟩, hne⟩
    exact ⟨o, ⟨ho, hne⟩, rfl⟩

theorem cancel_comm (b : ListBook) (i j : OrderId) : ((b.cancel i).1.cancel j).1 = ((b.cancel j).1.cancel i).1 := by
  have hcomm : ∀ l : List OrderData, (l.filter (·.id ≠ i)).filter (·.id ≠ j) =
    (l.filter (·.id ≠ j)).filter (·.id ≠ i) := by
    intro l
    rw [List.filter_filter, List.filter_filter]
    simp only [Bool.and_comm]
  simp only [cancel_eq, hcomm]

theorem cancel_found (b : ListBook) {i j : OrderId} (h : i ≠ j) : ((b.cancel i).1.cancel j).2 = (b.cancel j).2 := by
  rw [cancel_eq _ j, cancel_eq b j]
  refine decide_eq_decide.2 ?_
  rw [mem_cancel_ids]
  exact and_iff_left h.symm

/-! ## Taking back a submit -/

/-- Nothing is walked when the order in front does not cross. -/
theorem sweep_apart {stp : SelfTradePolicy} {queue : List OrderData}
    (h : ∀ o, queue.head? = some o → crosses taker.side taker.limit o.price = false) :
    sweep stp taker quantity queue = ⟨queue, [], quantity, false⟩ := by
  cases queue with
  | nil => rfl
  | cons o queue =>
    apply sweep_done
    unfold Taker.done
    rw [h o rfl]
    simp

theorem filter_insertOrder (lt : Price → Price → Prop) [DecidableRel lt] {d : OrderData} {l : List OrderData}
    (h : d.id ∉ l.map (·.id)) : (insertOrder lt d l).filter (·.id ≠ d.id) = l := by
  induction l with
  | nil => simp [insertOrder]
  | cons a l ih =>
    rw [List.map_cons, List.mem_cons, not_or] at h
    have ha : a.id ≠ d.id := Ne.symm h.1
    rw [insertOrder]
    split
    · rw [List.filter_cons_of_neg (by simp)]
      exact filter_key_of_notMem (by rw [List.map_cons, List.mem_cons, not_or]; exact h)
    · rw [List.filter_cons_of_pos (by simpa using ha), ih h.2]

theorem submit_apart (b : ListBook) (taker : Taker) (hacc : ¬ (quantity = 0 ∨ taker.id ∈ b.ids))
    (h : ∀ o, (b.opposite taker.side).head? = some o → crosses taker.side taker.limit o.price = false) :
    (b.submit taker quantity).1 = ({ b with trades := [] } : ListBook).rest taker quantity := by
  have hwalk : b.walk taker quantity = ⟨b.opposite taker.side, [], quantity, false⟩ := sweep_apart h
  have hswept : b.swept taker (b.walk taker quantity) = { b with trades := [] } := by
    rw [hwalk]
    unfold swept setOpposite opposite
    split <;> rfl
  have hpos : quantity > 0 := UInt64.pos_iff_ne_zero.2 fun hq => hacc (.inl hq)
  unfold submit
  rw [if_neg hacc]
  dsimp only
  rw [hswept, hwalk]
  simp [hpos]

/-- The cancel of an order that just rested. -/
theorem rest_cancel (b : ListBook) (taker : Taker) (quantity : Quantity) (h : taker.id ∉ b.ids) :
    (b.rest taker quantity).cancel taker.id = ({ b with nextSeq := b.nextSeq + 1 }, true) := by
  have hsides := h
  rw [ids, resting, List.map_append, List.mem_append, not_or] at hsides
  have hnew : (b.newOrder taker quantity).id = taker.id := rfl
  have hbids := filter_insertOrder bidOrder (d := b.newOrder taker quantity) (l := b.bids) hsides.1
  have hasks := filter_insertOrder askOrder (d := b.newOrder taker quantity) (l := b.asks) hsides.2
  have hmem : taker.id ∈ (b.rest taker quantity).ids :=
    List.mem_map.2 ⟨_, (rest_resting_perm b taker quantity).mem_iff.2 (List.mem_cons_self ..), hnew⟩
  rw [hnew] at hbids hasks
  rw [cancel_eq, decide_eq_true hmem]
  unfold rest
  dsimp only
  split
  · dsimp only
    rw [hbids, filter_key_of_notMem hsides.2]
  · dsimp only
    rw [hasks, filter_key_of_notMem hsides.1]

end ListBook

/-! ## The concrete book -/

namespace OrderBook

variable {b b' : OrderBook} {r : ListBook} {id : OrderId}

theorem Represents.liveCount (h : b.Represents r) : b.pool.liveCount = r.resting.length := by
  obtain ⟨view, h⟩ := h
  rw [h.indexed.live, h.resting_eq, List.length_map]

theorem Represents.mem_levelPrices (h : b.Represents r) (side : Side) {price : Price} :
    price ∈ b.levelPrices side ↔ price ∈ (r.own side).map (·.price) := by
  obtain ⟨view, h⟩ := h
  unfold levelPrices ListBook.own
  split
  · have hbids := h.shows.sublist (List.sublist_append_left b.bids.entries b.asks.entries)
    rw [← h.bids]
    exact mem_prices hbids h.bidsFilled
  · have hasks := h.shows.sublist (List.sublist_append_right b.bids.entries b.asks.entries)
    rw [← h.asks]
    exact mem_prices hasks h.asksFilled

/-- What the snapshot and the levels say of one another. -/
theorem Represents.level_iff (h : b.Represents r) {side : Side} (hs : side = .buy ∨ side = .sell) {price : Price} :
    price ∈ b.levelPrices side ↔ ∃ y ∈ r.snapshot, y.side = side ∧ y.price = price := by
  rw [h.mem_levelPrices, ListBook.exists_snapshot hs]

theorem Represents.snapshot_eq (h : b.Represents r) : b.snapshot = some r.snapshot :=
  congrArg Observation.snapshot (observe_spec h)

theorem Represents.orderCount_eq (h : b.Represents r) : b.orderCount = r.resting.length :=
  congrArg Observation.orderCount (observe_spec h)

/-- `b'` is `b` without the entry `x` of its snapshot, which stood between `l₁` and `l₂`. -/
structure Deleted (b b' : OrderBook) (l₁ : List OrderSnapshot) (x : OrderSnapshot) (l₂ : List OrderSnapshot) :
    Prop where
  before : b.snapshot = some (l₁ ++ x :: l₂)
  after : b'.snapshot = some (l₁ ++ l₂)
  held : x.price ∈ b.levelPrices x.side
  level : x.price ∉ b'.levelPrices x.side ↔ ∀ y ∈ l₁ ++ l₂, y.side = x.side → y.price ≠ x.price
  otherLevels : ∀ side, side = .buy ∨ side = .sell → ∀ price, ¬ (side = x.side ∧ price = x.price) →
    (price ∈ b'.levelPrices side ↔ price ∈ b.levelPrices side)
  orderCount : b'.orderCount + 1 = b.orderCount
  liveCount : b'.pool.liveCount + 1 = b.pool.liveCount

theorem mem_snapshot_side {y : OrderSnapshot} (hy : y ∈ r.snapshot) : y.side = .buy ∨ y.side = .sell := by
  rcases List.mem_append.1 hy with h | h
  · obtain ⟨o, -, rfl⟩ := List.mem_map.1 h
    exact .inl rfl
  · obtain ⟨o, -, rfl⟩ := List.mem_map.1 h
    exact .inr rfl

/-- The cancel of a resting order deletes its entry. -/
theorem cancel_present (h : b.Represents r) (hv : r.Valid) (hid : id ∈ r.ids) :
    ∃ b' l₁ x l₂, b.cancel id = some (b', true) ∧ b'.Represents (r.cancel id).1 ∧ x.id = id ∧
      b.Deleted b' l₁ x l₂ := by
  obtain ⟨b', hr, h'⟩ := cancel_spec h id
  have hfound : (r.cancel id).2 = true := by rw [ListBook.cancel_eq, decide_eq_true hid]
  rw [hfound] at hr
  -- the entry of the order, and the others around it
  obtain ⟨x, hx, hxid⟩ : ∃ x ∈ r.snapshot, x.id = id := List.mem_map.1 (r.snapshot_ids ▸ hid)
  obtain ⟨l₁, l₂, hsplit⟩ := List.append_of_mem hx
  have hnodup : ((l₁ ++ x :: l₂).map (·.id)).Nodup := by
    rw [← hsplit, ListBook.snapshot_ids]
    exact hv.ids
  have hafter : (r.cancel id).1.snapshot = l₁ ++ l₂ := by
    rw [ListBook.cancel_snapshot, hsplit, ← hxid]
    exact filter_key_ne hnodup
  have hxside := mem_snapshot_side hx
  -- orders and entries are as many
  have hcount : (r.cancel id).1.resting.length + 1 = r.resting.length := by
    have hlen : ∀ q : ListBook, q.resting.length = q.snapshot.length := by
      intro q
      rw [← List.length_map (f := fun o : OrderData => o.id), ← List.length_map (f := fun y : OrderSnapshot => y.id),
        ListBook.snapshot_ids]
      rfl
    rw [hlen, hlen, hafter, hsplit]
    simp only [List.length_append, List.length_cons]
    omega
  refine ⟨b', l₁, x, l₂, hr, h', hxid, ?_⟩
  constructor
  case before => rw [h.snapshot_eq, hsplit]
  case after => rw [h'.snapshot_eq, hafter]
  case held => exact (h.level_iff hxside).2 ⟨x, hx, rfl, rfl⟩
  case level =>
    rw [h'.level_iff hxside, hafter]
    push Not
    rfl
  case otherLevels =>
    intro side hs price hne
    rw [h'.level_iff hs, h.level_iff hs, hafter, hsplit]
    constructor
    · rintro ⟨y, hy, hys⟩
      refine ⟨y, ?_, hys⟩
      rw [List.mem_append, List.mem_cons]
      exact (List.mem_append.1 hy).imp_right .inr
    · rintro ⟨y, hy, rfl, rfl⟩
      refine ⟨y, ?_, rfl, rfl⟩
      rw [List.mem_append, List.mem_cons] at hy
      rcases hy with hy | rfl | hy
      · exact List.mem_append_left _ hy
      · exact absurd ⟨rfl, rfl⟩ hne
      · exact List.mem_append_right _ hy
  case orderCount => rw [h'.orderCount_eq, h.orderCount_eq, hcount]
  case liveCount => rw [h'.liveCount, h.liveCount, hcount]

/-- Books that represent the same reference book answer the same to every further call. -/
theorem Represents.run_eq (h : b.Represents r) (h' : b'.Represents r) (calls : List BookCall) :
    (Machine.run step b calls).map (·.2) = (Machine.run step b' calls).map (·.2) := by
  obtain ⟨c, hc, -⟩ := step_refines.run h calls
  obtain ⟨c', hc', -⟩ := step_refines.run h' calls
  rw [hc, hc']
  rfl

/-- **A cancel removes exactly its order**, in every reachable book. It finds what rests, deletes its
entry and its level if nothing else is there, and does nothing otherwise or the second time; cancels
of different ids commute; and the cancel of a submit that did not cross takes it back. -/
theorem cancel_exact (stp : SelfTradePolicy) (poolCapacity : UInt64) (calls : List BookCall) :
    ∃ b₀ b outs, create stp poolCapacity = some b₀ ∧ Machine.run step b₀ calls = some (b, outs) ∧
      (∀ id, ∃ b' found, b.cancel id = some (b', found) ∧
        (found = true ↔ ∃ l, b.snapshot = some l ∧ id ∈ l.map (·.id)) ∧
        (found = true → ∃ l₁ x l₂, x.id = id ∧ b.Deleted b' l₁ x l₂) ∧
        (found = false → b' = b) ∧ b'.cancel id = some (b', false)) ∧
      (∀ i j, i ≠ j → ∃ bi bj bij bji ri rj, b.cancel i = some (bi, ri) ∧ b.cancel j = some (bj, rj) ∧
        bi.cancel j = some (bij, rj) ∧ bj.cancel i = some (bji, ri) ∧ bij.observe = bji.observe ∧
        bij.pool.liveCount = bji.pool.liveCount ∧
        ∀ further, (Machine.run step bij further).map (·.2) = (Machine.run step bji further).map (·.2)) ∧
      ∀ id trader side price quantity b₁ res, b.submit id trader side price quantity = some (b₁, res) →
        res.status ≠ .rejected → (∀ best, b.bestOpposite side = some best → crosses side price best = false) →
        ∃ b₂, b₁.cancel id = some (b₂, true) ∧ b₂.snapshot = b.snapshot ∧ b₂.bidLevels = b.bidLevels ∧
          b₂.askLevels = b.askLevels := by
  obtain ⟨b₀, hr, h₀⟩ := create_spec stp poolCapacity
  obtain ⟨b, hrun, h⟩ := step_refines.run h₀ calls
  have hv := (ListBook.reached_valid stp calls).1
  generalize (Machine.runT ListBook.step (.create stp) calls).1 = r at h hv
  refine ⟨b₀, b, _, hr, hrun, fun id => ?_, fun i j hij => ?_, ?_⟩
  · have hrests : (∃ l, b.snapshot = some l ∧ id ∈ l.map (·.id)) ↔ id ∈ r.ids := by
      rw [h.snapshot_eq, ← r.snapshot_ids]
      simp
    by_cases hid : id ∈ r.ids
    · -- found once, and not a second time
      obtain ⟨b', l₁, x, l₂, hc, h', hx, hd⟩ := cancel_present h hv hid
      refine ⟨b', true, hc, by rw [hrests]; simpa using hid, fun _ => ⟨l₁, x, l₂, hx, hd⟩, by simp, ?_⟩
      exact cancel_absent h' fun hm => (ListBook.mem_cancel_ids.1 hm).2 rfl
    · have hc := cancel_absent h hid
      exact ⟨b, false, hc, by rw [hrests]; simpa using hid, by simp, fun _ => rfl, hc⟩
  · -- both orders end in books that represent one reference book
    obtain ⟨bi, hci, hi⟩ := cancel_spec h i
    obtain ⟨bj, hcj, hj⟩ := cancel_spec h j
    obtain ⟨bij, hcij, h1⟩ := cancel_spec hi j
    obtain ⟨bji, hcji, h2⟩ := cancel_spec hj i
    rw [ListBook.cancel_found r hij] at hcij
    rw [ListBook.cancel_found r hij.symm] at hcji
    rw [ListBook.cancel_comm] at h1
    exact ⟨bi, bj, bij, bji, _, _, hci, hcj, hcij, hcji, by rw [observe_spec h1, observe_spec h2],
      by rw [h1.liveCount, h2.liveCount], h1.run_eq h2⟩
  · intro id trader side price quantity b₁ res hsubmit hacc happart
    obtain ⟨b₁', hsubmit', h₁⟩ := submit_spec h id trader side price quantity
    obtain ⟨rfl, rfl⟩ := Prod.mk.inj (Option.some.inj (hsubmit.symm.trans hsubmit'))
    -- accepted, and apart from the best opposite price
    have hok : ¬ (quantity = 0 ∨ id ∈ r.ids) := by
      intro hrefused
      apply hacc
      unfold ListBook.submit
      rw [if_pos hrefused]
    have hbest : b.bestOpposite side = (r.opposite side).head?.map (·.price) := by
      have hobs := observe_spec h
      unfold bestOpposite ListBook.opposite
      split
      · exact congrArg Observation.bestAsk hobs
      · exact congrArg Observation.bestBid hobs
    have hapart : ∀ o, (r.opposite side).head? = some o → crosses side price o.price = false := by
      intro o ho
      apply happart
      rw [hbest, ho]
      rfl
    rw [ListBook.submit_apart r ⟨id, trader, side, price⟩ hok hapart] at h₁
    have hid : id ∉ ({ r with trades := [] } : ListBook).ids := fun hm => hok (.inr hm)
    obtain ⟨b₂, hcancel, h₂⟩ := cancel_spec h₁ id
    rw [ListBook.rest_cancel _ ⟨id, trader, side, price⟩ quantity hid] at h₂ hcancel
    have hobs := observe_spec h₂
    have hold := observe_spec h
    exact ⟨b₂, hcancel, by rw [h₂.snapshot_eq, h.snapshot_eq]; rfl,
      (congrArg Observation.bidLevels hobs).trans (congrArg Observation.bidLevels hold).symm,
      (congrArg Observation.askLevels hobs).trans (congrArg Observation.askLevels hold).symm⟩

end OrderBook

end Obe
