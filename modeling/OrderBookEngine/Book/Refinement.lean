/-
The concrete book behaves like the reference book: every call returns, with the same result, and
afterwards every query shows the same.
-/
import OrderBookEngine.Book.Matching

namespace Obe

/-- The concrete book shows the reference book, through a view of its levels. -/
structure OrderBook.ShowsAs (b : OrderBook) (r : ListBook) (view : View) : Prop where
  shows : b.toStore.Shows (b.bids.entries ++ b.asks.entries) view
  indexed : b.toStore.Indexed (shown view (b.bids.entries ++ b.asks.entries))
  bidsFilled : ∀ e ∈ b.bids.entries, view e.2 ≠ []
  asksFilled : ∀ e ∈ b.asks.entries, view e.2 ≠ []
  bids : ordersOf view b.bids.entries = r.bids
  asks : ordersOf view b.asks.entries = r.asks
  bidSide : ∀ d ∈ r.bids, d.side = .buy
  askSide : ∀ d ∈ r.asks, d.side ≠ .buy
  stp : b.stp = r.stp
  nextSeq : b.nextSeq = r.nextSeq
  trades : b.trades = r.trades

def OrderBook.Represents (b : OrderBook) (r : ListBook) : Prop := ∃ view, b.ShowsAs r view

/-! ## Resting an order -/

namespace Store

variable {s : Store} {entries other : List Entry} {view : View} {p : Slot} {d : OrderData}

/-- A new order is built outside every level. -/
theorem Shows.acquire_spec (h : s.Shows entries view) (o : Order) (seq : Sequence) :
    ∃ p pool₁ pool₂, s.pool.acquire o = some (p, pool₁) ∧
      pool₁.modify p (fun o => { o with sequence := seq }) = some pool₂ ∧
      ({ s with pool := pool₂ } : Store).Shows entries view ∧
      dataOf pool₂.get p = some { o.toOrderData with sequence := seq } ∧
      (∀ e ∈ entries, ∀ y ∈ view e.2, y.1 ≠ p) ∧ pool₂.liveCount = s.pool.liveCount + 1 := by
  obtain ⟨p, pool₁, hr₁, hw₁, hfree, hg₁, hc₁⟩ := h.pool.acquire_spec o
  have hp₁ : pool₁.get p = some o := by rw [hg₁, Function.update_self]
  obtain ⟨pool₂, hr₂, hw₂, hg₂, hc₂⟩ := hw₁.modify_spec hp₁ fun o => { o with sequence := seq }
  have hfresh : ∀ e ∈ entries, ∀ y ∈ view e.2, y.1 ≠ p := by
    rintro e he y hy rfl
    obtain ⟨o', ho', -⟩ := h.live he hy
    rw [hfree] at ho'; cases ho'
  refine ⟨p, pool₁, pool₂, hr₁, hr₂, h.frame hw₂ rfl rfl fun e he y hy => ?_, ?_, hfresh, by rw [hc₂, hc₁]⟩
  · show pool₂.get y.1 = s.pool.get y.1
    rw [hg₂, Function.update_of_ne (hfresh e he y hy), hg₁, Function.update_of_ne (hfresh e he y hy)]
  · unfold dataOf; rw [hg₂, Function.update_self]; rfl

variable {lt : Price → Price → Prop} [DecidableRel lt] [IsStrictTotalOrder Price lt]
  {book : SortedMap Price LevelPtr lt}

omit [DecidableRel lt] [IsStrictTotalOrder Price lt] in
/-- A level of one side, among the levels of that side and among all. -/
theorem Shows.nodup_split {l₁ l₂ : List Entry} {e : Entry} (h : s.Shows (book.entries ++ other) view)
    (hb : book.entries = l₁ ++ e :: l₂) :
    ((l₁ ++ e :: l₂).map (·.2)).Nodup ∧ ((l₁ ++ e :: (l₂ ++ other)).map (·.2)).Nodup := by
  have hnd := h.nodup
  rw [hb] at hnd
  refine ⟨?_, by rwa [List.append_assoc] at hnd⟩
  rw [List.map_append] at hnd
  exact (List.nodup_append.1 hnd).1

/-- Queueing an order at its price is an insertion into the sorted side. -/
theorem Shows.queue_spec (h : s.Shows (book.entries ++ other) view) (hne : ∀ e ∈ book.entries, view e.2 ≠ [])
    (hd : dataOf s.pool.get p = some d) (hp : ∀ e ∈ book.entries ++ other, ∀ y ∈ view e.2, y.1 ≠ p) :
    ∃ s' book' view', s.queueAt book d.price p = some (s', book') ∧ s'.Shows (book'.entries ++ other) view' ∧
      (∀ e ∈ book'.entries, view' e.2 ≠ []) ∧
      SameOn other view view' ∧ ordersOf view' book'.entries = insertOrder lt d (ordersOf view book.entries) ∧
      (shown view' book'.entries).Perm ((p, d) :: shown view book.entries) ∧
      s'.index = s.index ∧ s'.trades = s.trades ∧ s'.pool.liveCount = s.pool.liveCount := by
  obtain ⟨addr, s₁, book', view₁, l₁, l₂, hr₁, hb, h₁, hl₁, hl₂, hshown, hother, hpool, hindex, htrades⟩ :=
    emplaceLevel_spec h hne d.price
  have he : (d.price, addr) ∈ book'.entries ++ other := by
    rw [hb]; exact List.mem_append_left _ (List.mem_append_right _ (List.mem_cons_self ..))
  have hp₁ : ∀ e ∈ book'.entries ++ other, ∀ y ∈ view₁ e.2, y.1 ≠ p := by
    intro e he y hy
    rcases List.mem_append.1 he with he | he
    · have hy : y ∈ shown view book.entries := by rw [← hshown]; exact mem_shown.2 ⟨e, he, hy⟩
      obtain ⟨e', he', hy'⟩ := mem_shown.1 hy
      exact hp e' (List.mem_append_left _ he') y hy'
    · exact hp e (List.mem_append_right _ he) y (by rw [← hother e he]; exact hy)
  obtain ⟨s', hr', h', hi', ht', hc'⟩ := h₁.enqueue_spec he (by rw [hpool]; exact hd) rfl hp₁
  obtain ⟨hndb, hnd⟩ := h₁.nodup_split hb
  have hne' : ∀ e ∈ l₁ ++ (l₂ ++ other), e.2 ≠ addr := fun e he => addr_ne_of_split hnd he
  have hshown' : shown (Function.update view₁ addr (view₁ addr ++ [(p, d)])) book'.entries =
      shown view₁ l₁ ++ ((view₁ addr ++ [(p, d)]) ++ shown view₁ l₂) := by
    rw [hb]; exact shown_update l₁ hndb _
  have hold : shown view book.entries = shown view₁ l₁ ++ (view₁ addr ++ shown view₁ l₂) := by
    rw [← hshown, hb, shown_append, shown_cons]
  refine ⟨s', book', Function.update view₁ addr (view₁ addr ++ [(p, d)]), by simp [queueAt, hr₁, hr'], h', ?_, ?_,
    ?_, ?_, by rw [hi', hindex], by rw [ht', htrades], by rw [hc', hpool]⟩
  · intro e he
    rw [hb] at he
    rcases List.mem_append.1 he with he | he
    · rw [Function.update_of_ne (hne' e (List.mem_append_left _ he))]; exact (hl₁ e he).2
    · rcases List.mem_cons.1 he with rfl | he
      · rw [Function.update_self]; simp
      · rw [Function.update_of_ne (hne' e (List.mem_append_right _ (List.mem_append_left _ he)))]
        exact (hl₂ e he).2
  · intro e he
    rw [Function.update_of_ne (hne' e (List.mem_append_right _ (List.mem_append_right _ he)))]
    exact hother e he
  · -- the levels in front hold better prices, those behind worse ones
    have hbetter : ∀ a ∈ ordersOf view₁ l₁ ++ (view₁ addr).map (·.2), ¬ lt d.price a.price := by
      intro a ha
      rcases List.mem_append.1 ha with ha | ha
      · obtain ⟨x, hx, rfl⟩ := List.mem_map.1 ha
        obtain ⟨e, he, hx⟩ := mem_shown.1 hx
        rw [(h₁.data e (by rw [hb]; exact List.mem_append_left _ (List.mem_append_left _ he)) x hx).2]
        exact fun hlt => Std.Irrefl.irrefl _ (IsTrans.trans _ _ _ hlt (hl₁ e he).1)
      · obtain ⟨x, hx, rfl⟩ := List.mem_map.1 ha
        rw [(h₁.data _ he x hx).2]
        exact Std.Irrefl.irrefl _
    have hworse : ∀ a ∈ ordersOf view₁ l₂, lt d.price a.price := by
      intro a ha
      obtain ⟨x, hx, rfl⟩ := List.mem_map.1 ha
      obtain ⟨e, he, hx⟩ := mem_shown.1 hx
      have heb : e ∈ book'.entries ++ other := by
        rw [hb]; exact List.mem_append_left _ (List.mem_append_right _ (List.mem_cons_of_mem _ he))
      rw [(h₁.data e heb x hx).2]
      exact (hl₂ e he).1
    have hins := insertOrder_append hbetter hworse
    rw [ordersOf, hshown', ordersOf, hold]
    simp only [List.map_append, ordersOf, List.map_cons, List.map_nil, List.append_assoc] at hins ⊢
    rw [hins]; rfl
  · rw [hshown', hold]
    have hperm : ((shown view₁ l₁ ++ view₁ addr) ++ (p, d) :: shown view₁ l₂).Perm
        ((p, d) :: ((shown view₁ l₁ ++ view₁ addr) ++ shown view₁ l₂)) := List.perm_middle
    simpa using hperm

/-- Without one order of a level, a side has its other orders. -/
theorem ordersOf_without {l₁ l₂ : List Entry} {e : Entry} {v₁ v₂ : List (Slot × OrderData)} {x : Slot × OrderData}
    (hnd : ((l₁ ++ e :: l₂).map (·.2)).Nodup) (hv : view e.2 = v₁ ++ x :: v₂)
    (hids : ((shown view (l₁ ++ e :: l₂)).map (·.2.id)).Nodup) :
    ordersOf (Function.update view e.2 (v₁ ++ v₂)) (l₁ ++ e :: l₂) =
      (ordersOf view (l₁ ++ e :: l₂)).filter (·.id ≠ x.2.id) := by
  have hsplit : ordersOf view (l₁ ++ e :: l₂) =
      (ordersOf view l₁ ++ v₁.map (·.2)) ++ x.2 :: (v₂.map (·.2) ++ ordersOf view l₂) := by
    rw [ordersOf_append, ordersOf_cons, hv]; simp
  have hidb : ((ordersOf view (l₁ ++ e :: l₂)).map (·.id)).Nodup := by
    unfold ordersOf
    rw [List.map_map]
    exact hids
  rw [hsplit] at hidb ⊢
  rw [filter_key_ne hidb, ordersOf_update l₁ hnd]
  simp

omit [DecidableRel lt] in
/-- Taking out an order, with its level when nothing else rests there, is a removal from the side. -/
theorem takeOut_spec {x : Slot × OrderData} {e : Entry} (h : s.Shows (book.entries ++ other) view)
    (hi : s.Indexed (shown view (book.entries ++ other))) (hne : ∀ e ∈ book.entries, view e.2 ≠ [])
    (he : e ∈ book.entries) (hx : x ∈ view e.2) :
    ∃ index s₁ lv s₂ s₃ book' view', s.index.erase x.2.id = some (true, index) ∧
      ({ s with index } : Store).unlink e.2 x.1 = some s₁ ∧ s₁.levels e.2 = some lv ∧ s₁.release x.1 = some s₂ ∧
      (if lv.empty then s₂.eraseLevel book e.1 else (s₂, book)) = (s₃, book') ∧
      s₃.Shows (book'.entries ++ other) view' ∧ s₃.Indexed (shown view' (book'.entries ++ other)) ∧
      (∀ e ∈ book'.entries, view' e.2 ≠ []) ∧ SameOn other view view' ∧
      ordersOf view' book'.entries = (ordersOf view book.entries).filter (·.id ≠ x.2.id) ∧ s₃.trades = s.trades := by
  obtain ⟨l₁, l₂, hb⟩ := List.append_of_mem he
  obtain ⟨v₁, v₂, hv⟩ := List.append_of_mem hx
  have hea : e ∈ book.entries ++ other := List.mem_append_left _ he
  have hlook := (hi.lookup x.2.id (some x.1)).2 ⟨x, mem_shown.2 ⟨e, hea, hx⟩, rfl, rfl⟩
  obtain ⟨index, hr, hw, hl, -, hsz⟩ := hi.index.erase_spec x.2.id
  rw [hlook] at hr hsz
  have h₀ : ({ s with index } : Store).Shows (book.entries ++ other) view := h.frame h.pool rfl rfl fun _ _ _ _ => rfl
  obtain ⟨s₁, lv, hr₁, hlv, hempty, h₁, hi₁, ht₁, hc₁, hd₁⟩ := h₀.unlink_spec hea hv
  obtain ⟨s₂, hr₂, h₂, hi₂, ht₂, hc₂, -⟩ := h₁.release_spec hd₁ (h₀.update_notMem hea hv)
  obtain ⟨hndb, hnd⟩ := h.nodup_split hb
  have hsame : SameOn other view (Function.update view e.2 (v₁ ++ v₂)) := fun e' he' =>
    Function.update_of_ne (addr_ne_of_split hnd (List.mem_append_right _ (List.mem_append_right _ he'))) _ _
  -- the orders shown before and after
  have hids := hi.ids
  rw [hb, List.append_assoc, List.cons_append, shown_append, shown_cons, hv, List.append_assoc, List.cons_append,
    ← List.append_assoc] at hi
  have hin : s₂.Indexed (shown (Function.update view e.2 (v₁ ++ v₂)) (book.entries ++ other)) := by
    rw [hb, List.append_assoc, List.cons_append, shown_update l₁ hnd, List.append_assoc, ← List.append_assoc]
    refine (hi.perm List.perm_middle).remove (hi₂ ▸ hi₁ ▸ hw) ?_ ?_ (hc₂.trans hc₁)
    · rw [hi₂, hi₁]; exact hl
    · rw [hi₂, hi₁]; exact hsz
  have hord : ordersOf (Function.update view e.2 (v₁ ++ v₂)) book.entries =
      (ordersOf view book.entries).filter (·.id ≠ x.2.id) := by
    rw [shown_append, List.map_append] at hids
    rw [hb] at hids ⊢
    exact ordersOf_without hndb hv (List.nodup_append.1 hids).1
  have hold : ∀ e' ∈ l₁ ++ l₂, Function.update view e.2 (v₁ ++ v₂) e'.2 ≠ [] := by
    intro e' he'
    rw [Function.update_of_ne (addr_ne_of_split hndb he')]
    refine hne e' ?_
    rw [hb]
    rcases List.mem_append.1 he' with hm | hm
    · exact List.mem_append_left _ hm
    · exact List.mem_append_right _ (List.mem_cons_of_mem _ hm)
  by_cases hv' : v₁ ++ v₂ = []
  · obtain ⟨s₃, book', hr₃, hb', h₃, hp₃, hi₃, ht₃⟩ := eraseLevel_spec l₁ h₂ hb
    have hshown : shown (Function.update view e.2 (v₁ ++ v₂)) book.entries =
        shown (Function.update view e.2 (v₁ ++ v₂)) book'.entries := by
      rw [hb, hb', shown_append, shown_append, shown_cons, Function.update_self, hv', List.nil_append]
    refine ⟨index, s₁, lv, s₂, s₃, book', _, hr, hr₁, hlv, hr₂, by rw [if_pos (hempty.2 hv'), hr₃], h₃, ?_,
      by rw [hb']; exact hold, hsame, ?_, by rw [ht₃, ht₂, ht₁]⟩
    · rw [shown_append, ← hshown, ← shown_append]
      exact hin.congr hi₃ (by rw [hp₃])
    · rw [← hord]; unfold ordersOf; rw [hshown]
  · refine ⟨index, s₁, lv, s₂, s₂, book, _, hr, hr₁, hlv, hr₂, if_neg (by rw [hempty]; exact hv'), h₂, hin, ?_, hsame,
      hord, by rw [ht₂, ht₁]⟩
    intro e' he'
    rw [hb] at he'
    rcases List.mem_append.1 he' with hm | hm
    · exact hold e' (List.mem_append_left _ hm)
    · rcases List.mem_cons.1 hm with rfl | hm
      · rwa [Function.update_self]
      · exact hold e' (List.mem_append_right _ hm)

end Store

namespace OrderBook.ShowsAs

variable {b : OrderBook} {r : ListBook} {view : View}

theorem resting_eq (h : b.ShowsAs r view) :
    r.resting = (shown view (b.bids.entries ++ b.asks.entries)).map (·.2) := by
  rw [ListBook.resting, ← h.bids, ← h.asks, ← ordersOf_append]; rfl

theorem ids_eq (h : b.ShowsAs r view) :
    r.ids = (shown view (b.bids.entries ++ b.asks.entries)).map (·.2.id) := by
  rw [ListBook.ids, h.resting_eq, List.map_map]; rfl

theorem ids_nodup (h : b.ShowsAs r view) : r.ids.Nodup := by rw [h.ids_eq]; exact h.indexed.ids

/-- The ids resting are those of the index. -/
theorem lookup_isSome (h : b.ShowsAs r view) (id : OrderId) : (b.index.lookup id).isSome = decide (id ∈ r.ids) := by
  rw [h.ids_eq]
  cases hl : b.index.lookup id with
  | none =>
    symm
    refine decide_eq_false fun hm => ?_
    obtain ⟨x, hx, rfl⟩ := List.mem_map.1 hm
    rw [(h.indexed.lookup x.2.id (some x.1)).2 ⟨x, hx, rfl, rfl⟩] at hl
    cases hl
  | some p =>
    symm
    obtain ⟨x, hx, -, rfl⟩ := (h.indexed.lookup id p).1 hl
    exact decide_eq_true (List.mem_map_of_mem hx)

/-- The store with the asks in front. -/
theorem swap (h : b.ShowsAs r view) : b.toStore.Shows (b.asks.entries ++ b.bids.entries) view ∧
    b.toStore.Indexed (shown view (b.asks.entries ++ b.bids.entries)) := by
  refine ⟨h.shows.perm List.perm_append_comm, h.indexed.perm ?_⟩
  rw [shown_append, shown_append]
  exact List.perm_append_comm

/-- A change of the bids, with the asks as they were. -/
theorem setBids (h : b.ShowsAs r view) {s : Store} {bids : SortedMap Price LevelPtr bidOrder} {view' : View}
    {q : List OrderData} {seq seq' : Sequence} {trades : List Trade}
    (hs : s.Shows (bids.entries ++ b.asks.entries) view')
    (hi : s.Indexed (shown view' (bids.entries ++ b.asks.entries))) (hne : ∀ e ∈ bids.entries, view' e.2 ≠ [])
    (hsame : SameOn b.asks.entries view view') (hq : ordersOf view' bids.entries = q) (hside : ∀ d ∈ q, d.side = .buy)
    (hseq : seq = seq') (ht : s.trades = trades) :
    ({ b with toStore := s, bids, nextSeq := seq } : OrderBook).ShowsAs
      { r with bids := q, trades, nextSeq := seq' } view' where
  shows := hs
  indexed := hi
  bidsFilled := hne
  asksFilled e he := by
    rw [hsame e he]
    exact h.asksFilled e he
  bids := hq
  asks := by
    unfold ordersOf
    rw [hsame.shown_eq]
    exact h.asks
  bidSide := hside
  askSide := h.askSide
  stp := h.stp
  nextSeq := hseq
  trades := ht

/-- A change of the asks, with the bids as they were. -/
theorem setAsks (h : b.ShowsAs r view) {s : Store} {asks : SortedMap Price LevelPtr askOrder} {view' : View}
    {q : List OrderData} {seq seq' : Sequence} {trades : List Trade}
    (hs : s.Shows (asks.entries ++ b.bids.entries) view')
    (hi : s.Indexed (shown view' (asks.entries ++ b.bids.entries))) (hne : ∀ e ∈ asks.entries, view' e.2 ≠ [])
    (hsame : SameOn b.bids.entries view view') (hq : ordersOf view' asks.entries = q) (hside : ∀ d ∈ q, d.side ≠ .buy)
    (hseq : seq = seq') (ht : s.trades = trades) :
    ({ b with toStore := s, asks, nextSeq := seq } : OrderBook).ShowsAs
      { r with asks := q, trades, nextSeq := seq' } view' where
  shows := hs.perm List.perm_append_comm
  indexed := by
    refine hi.perm ?_
    rw [shown_append, shown_append]
    exact List.perm_append_comm
  bidsFilled e he := by
    rw [hsame e he]
    exact h.bidsFilled e he
  asksFilled := hne
  bids := by
    unfold ordersOf
    rw [hsame.shown_eq]
    exact h.bids
  asks := hq
  bidSide := h.bidSide
  askSide := hside
  stp := h.stp
  nextSeq := hseq
  trades := ht

/-! ## submit -/

theorem refuses_eq (h : b.ShowsAs r view) (id : OrderId) (quantity : Quantity) :
    b.refuses id quantity = some (decide (quantity = 0 ∨ id ∈ r.ids)) := by
  unfold refuses
  by_cases hq : quantity = 0
  · simp [hq]
  · rw [if_neg hq, h.indexed.index.contains_eq, h.lookup_isSome]
    simp [hq]

/-- The walk over the opposite side. -/
theorem matchOpposite_spec (h : b.ShowsAs r view) (ht : b.trades = []) (taker : Taker) (quantity : Quantity) :
    ∃ b' view', b.matchOpposite taker quantity =
        some (b', (r.walk taker quantity).remaining, (r.walk taker quantity).stopped) ∧
      b'.ShowsAs (r.swept taker (r.walk taker quantity)) view' := by
  unfold matchOpposite ListBook.walk ListBook.opposite ListBook.swept ListBook.setOpposite
  by_cases hs : taker.side = .buy
  · simp only [if_pos hs]
    obtain ⟨m, view', hr, h1, h2, h3, h4, h5⟩ :=
      matchBook_spec b.stp taker h.swap.1 h.swap.2 h.asksFilled ht quantity
    rw [h.stp, h.asks] at h5
    refine ⟨_, view', by rw [hr, h5]; rfl, h.setAsks h1 h2 h4 h3 (by rw [h5]) (fun d hd => ?_) h.nextSeq (by rw [h5])⟩
    obtain ⟨o, ho, t, rfl⟩ := sweep_mem hd
    exact h.askSide o ho
  · simp only [if_neg hs]
    obtain ⟨m, view', hr, h1, h2, h3, h4, h5⟩ :=
      matchBook_spec b.stp taker h.shows h.indexed h.bidsFilled ht quantity
    rw [h.stp, h.bids] at h5
    refine ⟨_, view', by rw [hr, h5]; rfl, h.setBids h1 h2 h4 h3 (by rw [h5]) (fun d hd => ?_) h.nextSeq (by rw [h5])⟩
    obtain ⟨o, ho, t, rfl⟩ := sweep_mem hd
    exact h.bidSide o ho

/-- The remainder rests: behind the orders of its price, in the index and in the pool. -/
theorem rest_spec (h : b.ShowsAs r view) (taker : Taker) (remaining : Quantity) (hid : taker.id ∉ r.ids) :
    ∃ b' view', b.rest taker remaining = some b' ∧ b'.ShowsAs (r.rest taker remaining) view' := by
  obtain ⟨p, pool₁, pool₂, hr₁, hr₂, hsh, hd, hp, hc⟩ := h.shows.acquire_spec
    (Order.new taker.id taker.trader taker.side taker.limit remaining) b.nextSeq
  replace hd : dataOf pool₂.get p = some (r.newOrder taker remaining) := by rw [hd, h.nextSeq]; rfl
  have hid' : (r.newOrder taker remaining).id ∉ (shown view (b.bids.entries ++ b.asks.entries)).map (·.2.id) := by
    rwa [← h.ids_eq]
  have hnew : ∀ l : List OrderData, ∀ lt [DecidableRel lt], ∀ a ∈ insertOrder lt (r.newOrder taker remaining) l,
      a.side = taker.side ∨ a ∈ l := by
    intro l lt _ a ha
    rcases List.mem_cons.1 ((insertOrder_perm lt _ l).mem_iff.1 ha) with rfl | ha
    · exact .inl rfl
    · exact .inr ha
  unfold ListBook.rest
  by_cases hs : taker.side = .buy
  · obtain ⟨s, bids, view', hr₃, hsh', hne', hsame, hord, hperm, hi, ht, hc'⟩ := hsh.queue_spec h.bidsFilled hd hp
    replace hr₃ : Store.queueAt { b.toStore with pool := pool₂ } b.bids taker.limit p = some (s, bids) := hr₃
    obtain ⟨index, hr₄, hin⟩ := h.indexed.insert_spec (p := p) hi (hc'.trans hc) hid'
    replace hr₄ : s.index.insert taker.id (some p) = some index := hr₄
    refine ⟨{ b with toStore := { s with index }, bids, nextSeq := b.nextSeq + 1 }, view', ?_, ?_⟩
    · simp only [rest, Option.bind_eq_bind, hr₁, hr₂, Option.bind_some, if_pos hs, hr₃, Option.map_some, hr₄]
      rfl
    · simp only [if_pos hs]
      refine h.setBids (hsh'.frame hsh'.pool rfl rfl fun _ _ _ _ => rfl) (hin.perm ?_) hne' hsame
        (by rw [hord, h.bids]) (fun d hd => ?_) (by rw [← h.nextSeq]) (ht.trans h.trades)
      · rw [shown_append, shown_append, hsame.shown_eq, ← List.cons_append]
        exact (hperm.append_right _).symm
      · rcases hnew _ _ d hd with hd | hd
        · rw [hd, hs]
        · exact h.bidSide d hd
  · obtain ⟨s, asks, view', hr₃, hsh', hne', hsame, hord, hperm, hi, ht, hc'⟩ :=
      (hsh.perm List.perm_append_comm).queue_spec h.asksFilled hd
        (fun e he => hp e (List.perm_append_comm.mem_iff.1 he))
    replace hr₃ : Store.queueAt { b.toStore with pool := pool₂ } b.asks taker.limit p = some (s, asks) := hr₃
    obtain ⟨index, hr₄, hin⟩ := h.indexed.insert_spec (p := p) hi (hc'.trans hc) hid'
    replace hr₄ : s.index.insert taker.id (some p) = some index := hr₄
    refine ⟨{ b with toStore := { s with index }, asks, nextSeq := b.nextSeq + 1 }, view', ?_, ?_⟩
    · simp only [rest, Option.bind_eq_bind, hr₁, hr₂, Option.bind_some, if_neg hs, hr₃, Option.map_some, hr₄]
      rfl
    · simp only [if_neg hs]
      refine h.setAsks (hsh'.frame hsh'.pool rfl rfl fun _ _ _ _ => rfl) (hin.perm ?_) hne' hsame
        (by rw [hord, h.asks]) (fun d hd => ?_) (by rw [← h.nextSeq]) (ht.trans h.trades)
      · rw [shown_append, shown_append, hsame.shown_eq, ← List.cons_append]
        exact (List.perm_append_comm.cons _).trans (hperm.append_right _).symm
      · rcases hnew _ _ d hd with hd | hd
        · rw [hd]
          exact hs
        · exact h.askSide d hd

theorem clear_trades (h : b.ShowsAs r view) :
    ({ b with trades := [] } : OrderBook).ShowsAs { r with trades := [] } view :=
  ⟨h.shows.frame h.shows.pool rfl rfl fun _ _ _ _ => rfl, h.indexed.congr rfl rfl, h.bidsFilled, h.asksFilled, h.bids,
    h.asks, h.bidSide, h.askSide, h.stp, h.nextSeq, rfl⟩

end OrderBook.ShowsAs

namespace OrderBook

variable {b : OrderBook} {r : ListBook}

/-- `submit` returns what the reference book returns. -/
theorem submit_spec (h : b.Represents r) (id : OrderId) (trader : TraderId) (side : Side) (price : Price)
    (quantity : Quantity) :
    ∃ b', b.submit id trader side price quantity = some (b', (r.submit ⟨id, trader, side, price⟩ quantity).2) ∧
      b'.Represents (r.submit ⟨id, trader, side, price⟩ quantity).1 := by
  obtain ⟨view, h⟩ := h
  have h₀ := h.clear_trades
  have href : ({ b with trades := [] } : OrderBook).refuses id quantity = some (decide (quantity = 0 ∨ id ∈ r.ids)) :=
    h₀.refuses_eq id quantity
  unfold submit ListBook.submit
  by_cases hq : quantity = 0 ∨ id ∈ r.ids
  · refine ⟨{ b with trades := [] }, ?_, view, ?_⟩
    · simp only [Option.bind_eq_bind, href, hq, decide_true, Option.bind_some, if_true]
      rfl
    · rw [if_pos hq]; exact h₀
  · obtain ⟨b₁, view₁, hr₁, h₁⟩ := h₀.matchOpposite_spec rfl ⟨id, trader, side, price⟩ quantity
    replace h₁ : b₁.ShowsAs (r.swept ⟨id, trader, side, price⟩
      (r.walk ⟨id, trader, side, price⟩ quantity)) view₁ := h₁
    replace hr₁ : OrderBook.matchOpposite { b with trades := [] } ⟨id, trader, side, price⟩ quantity =
      some (b₁, (r.walk ⟨id, trader, side, price⟩ quantity).remaining,
        (r.walk ⟨id, trader, side, price⟩ quantity).stopped) := hr₁
    have ht : b₁.trades = (r.walk ⟨id, trader, side, price⟩ quantity).trades := by
      rw [h₁.trades, ListBook.swept_trades]
    simp only [Option.bind_eq_bind, href, hq, decide_false, Option.bind_some, if_false, hr₁, ht]
    cases (r.walk ⟨id, trader, side, price⟩ quantity).stopped with
    | true => exact ⟨b₁, rfl, view₁, h₁⟩
    | false =>
      by_cases hrem : (r.walk ⟨id, trader, side, price⟩ quantity).remaining > 0
      · obtain ⟨b₂, view₂, hr₂, h₂⟩ := h₁.rest_spec ⟨id, trader, side, price⟩
          (r.walk ⟨id, trader, side, price⟩ quantity).remaining
          fun hm => hq (.inr (ListBook.swept_ids hm))
        simp only [if_pos hrem, hr₂]
        exact ⟨b₂, rfl, view₂, h₂⟩
      · simp only [if_neg hrem]
        exact ⟨b₁, rfl, view₁, h₁⟩

/-! ## cancel -/

/-- An id that does not rest is not found, and the book stays as it is. -/
theorem cancel_absent (h : b.Represents r) {id : OrderId} (hid : id ∉ r.ids) : b.cancel id = some (b, false) := by
  obtain ⟨view, h⟩ := h
  obtain ⟨i, hfind, hval⟩ := h.indexed.index.find_lookup id
  have hnone : b.index.lookup id = none := by
    rw [← Option.not_isSome_iff_eq_none, h.lookup_isSome]; simpa using hid
  rw [hnone, Option.map_eq_none_iff] at hval
  subst hval
  exact Option.bind_eq_some_iff.2 ⟨none, hfind, rfl⟩

/-- The calls that `cancel` makes for an id that rests. -/
theorem cancel_found {id : OrderId} {i : Nat} {slot : Slot} {found : Bool} {index : FlatHashMap OrderId (Option Slot)}
    {o : Order} {addr : LevelPtr} {level level₁ : PriceLevel} {s₁ s₂ : Store} (hfind : b.index.find id = some (some i))
    (hslot : b.index.values i = some slot) (herase : b.index.erase id = some (found, index))
    (ho : b.pool.get slot = some o) (hlevel : o.level = some addr) (hlv : b.levels addr = some level)
    (hunlink : ({ b.toStore with index } : Store).unlink addr slot = some s₁) (hlv₁ : s₁.levels addr = some level₁)
    (hrelease : s₁.release slot = some s₂) :
    b.cancel id = some
      (if o.side = .buy then
        let (s, bids) := if level₁.empty then s₂.eraseLevel b.bids level.price else (s₂, b.bids)
        ({ b with toStore := s, bids }, true)
      else
        let (s, asks) := if level₁.empty then s₂.eraseLevel b.asks level.price else (s₂, b.asks)
        ({ b with toStore := s, asks }, true)) := by
  refine Option.bind_eq_some_iff.2 ⟨_, hfind, ?_⟩
  refine Option.bind_eq_some_iff.2 ⟨_, hslot, ?_⟩
  refine Option.bind_eq_some_iff.2 ⟨_, herase, ?_⟩
  refine Option.bind_eq_some_iff.2 ⟨_, ho, ?_⟩
  refine Option.bind_eq_some_iff.2 ⟨_, hlevel, ?_⟩
  refine Option.bind_eq_some_iff.2 ⟨_, hlv, ?_⟩
  refine Option.bind_eq_some_iff.2 ⟨_, hunlink, ?_⟩
  refine Option.bind_eq_some_iff.2 ⟨_, hlv₁, ?_⟩
  refine Option.bind_eq_some_iff.2 ⟨_, hrelease, ?_⟩
  by_cases hs : o.side = .buy
  · cases level₁.empty <;> simp [hs]
  · cases level₁.empty <;> simp [hs]

/-- `cancel` returns what the reference book returns. -/
theorem cancel_spec (h : b.Represents r) (id : OrderId) :
    ∃ b', b.cancel id = some (b', (r.cancel id).2) ∧ b'.Represents (r.cancel id).1 := by
  by_cases hid : id ∈ r.ids
  · obtain ⟨view, h⟩ := h
    obtain ⟨i, hfind, hval⟩ := h.indexed.index.find_lookup id
    unfold ListBook.cancel
    have hm := hid
    rw [h.ids_eq] at hm
    obtain ⟨x, hx, rfl⟩ := List.mem_map.1 hm
    rw [(h.indexed.lookup x.2.id (some x.1)).2 ⟨x, hx, rfl, rfl⟩] at hval
    obtain ⟨slot, rfl, hslot⟩ := Option.map_eq_some_iff.1 hval
    obtain ⟨e, he, hxe⟩ := mem_shown.1 hx
    obtain ⟨o, ho, hlevel, hod⟩ := h.shows.live he hxe
    obtain ⟨lv, hlv, hprice, -⟩ := h.shows.level e he
    have hside : o.side = x.2.side := by rw [← hod]
    have hids := h.ids_nodup
    rw [ListBook.ids, ListBook.resting, List.map_append] at hids
    have hdisj := (List.nodup_append.1 hids).2.2
    rw [if_pos hid]
    rcases List.mem_append.1 he with heb | hea
    · -- a bid
      have hbid : x.2 ∈ r.bids := by rw [← h.bids]; exact List.mem_map_of_mem (mem_shown.2 ⟨e, heb, hxe⟩)
      have hs : x.2.side = .buy := h.bidSide x.2 hbid
      have hasks : r.asks.filter (·.id ≠ x.2.id) = r.asks := filter_key_of_notMem fun hm =>
        hdisj x.2.id (List.mem_map_of_mem hbid) x.2.id hm rfl
      obtain ⟨index, s₁, lv₁, s₂, s₃, bids, view', hr₀, hr₁, hlv₁, hr₂, hr₃, h', hi', hne', hsame, hord, ht⟩ :=
        Store.takeOut_spec h.shows h.indexed h.bidsFilled heb hxe
      rw [hasks]
      have hcancel := cancel_found hfind hslot hr₀ ho hlevel hlv hr₁ hlv₁ hr₂
      rw [hside, if_pos hs, hprice, hr₃] at hcancel
      exact ⟨{ b with toStore := s₃, bids }, hcancel, view', h.setBids h' hi' hne' hsame (by rw [hord, h.bids])
        (fun d hd => h.bidSide d (List.mem_filter.1 hd).1) h.nextSeq (ht.trans h.trades)⟩
    · -- an ask
      have hask : x.2 ∈ r.asks := by rw [← h.asks]; exact List.mem_map_of_mem (mem_shown.2 ⟨e, hea, hxe⟩)
      have hs : ¬ x.2.side = .buy := h.askSide x.2 hask
      have hbids : r.bids.filter (·.id ≠ x.2.id) = r.bids := filter_key_of_notMem fun hm =>
        hdisj x.2.id hm x.2.id (List.mem_map_of_mem hask) rfl
      obtain ⟨index, s₁, lv₁, s₂, s₃, asks, view', hr₀, hr₁, hlv₁, hr₂, hr₃, h', hi', hne', hsame, hord, ht⟩ :=
        Store.takeOut_spec h.swap.1 h.swap.2 h.asksFilled hea hxe
      rw [hbids]
      have hcancel := cancel_found hfind hslot hr₀ ho hlevel hlv hr₁ hlv₁ hr₂
      rw [hside, if_neg hs, hprice, hr₃] at hcancel
      exact ⟨{ b with toStore := s₃, asks }, hcancel, view', h.setAsks h' hi' hne' hsame (by rw [hord, h.asks])
        (fun d hd => h.askSide d (List.mem_filter.1 hd).1) h.nextSeq (ht.trans h.trades)⟩
  · unfold ListBook.cancel
    rw [if_neg hid]
    exact ⟨b, cancel_absent h hid, h⟩

/-! ## Queries -/

section Queries

variable {lt : Price → Price → Prop} {s : Store} {view : View} {entries : List Entry} {e : Entry}
  {queue : List OrderData}

/-- The best price of a side without empty levels. -/
theorem best_spec (h : s.Shows entries view) (hne : ∀ e ∈ entries, view e.2 ≠ []) :
    entries.head?.map (·.1) = (ordersOf view entries).head?.map (·.price) := by
  cases entries with
  | nil => rfl
  | cons e l =>
    obtain ⟨x, v, hv⟩ := List.exists_cons_of_ne_nil (hne e (List.mem_cons_self ..))
    have hx := (h.data e (List.mem_cons_self ..) x (by rw [hv]; exact List.mem_cons_self ..)).2
    rw [ordersOf_cons, hv]
    simp [hx]

theorem mem_ordersOf {d : OrderData} : d ∈ ordersOf view entries ↔ ∃ e ∈ entries, ∃ x ∈ view e.2, x.2 = d := by
  simp only [ordersOf, List.mem_map, mem_shown]
  constructor
  · rintro ⟨x, ⟨e, he, hx⟩, rfl⟩; exact ⟨e, he, x, hx, rfl⟩
  · rintro ⟨e, he, x, hx, rfl⟩; exact ⟨x, ⟨e, he, hx⟩, rfl⟩

/-- The levels of a side are at the prices of its orders. -/
theorem mem_prices (h : s.Shows entries view) (hne : ∀ e ∈ entries, view e.2 ≠ []) {p : Price} :
    p ∈ entries.map (·.1) ↔ p ∈ (ordersOf view entries).map (·.price) := by
  constructor
  · intro hp
    obtain ⟨e, he, rfl⟩ := List.mem_map.1 hp
    obtain ⟨x, v, hv⟩ := List.exists_cons_of_ne_nil (hne e he)
    have hx : x ∈ view e.2 := by rw [hv]; exact List.mem_cons_self ..
    rw [← (h.data e he x hx).2]
    exact List.mem_map_of_mem (mem_ordersOf.2 ⟨e, he, x, hx, rfl⟩)
  · intro hp
    obtain ⟨d, hd, rfl⟩ := List.mem_map.1 hp
    obtain ⟨e, he, x, hx, rfl⟩ := mem_ordersOf.1 hd
    rw [(h.data e he x hx).2]
    exact List.mem_map_of_mem he

/-- The number of levels is the number of different prices. -/
theorem levels_spec (h : s.Shows entries view) (hne : ∀ e ∈ entries, view e.2 ≠ []) (hk : (entries.map (·.1)).Nodup) :
    ListBook.levelCount (ordersOf view entries) = entries.length := by
  have hperm : ((ordersOf view entries).map (·.price)).dedup.Perm (entries.map (·.1)) := by
    rw [List.perm_ext_iff_of_nodup (List.nodup_dedup _) hk]
    intro p
    rw [List.mem_dedup, mem_prices h hne]
  rw [ListBook.levelCount, hperm.length_eq, List.length_map]

/-- A level's aggregate is the sum of what remains at its price. -/
theorem levelQuantity_spec {book : SortedMap Price LevelPtr lt} {other : List Entry} [Std.Irrefl lt]
    (h : s.Shows (book.entries ++ other) view) (price : Price) :
    levelQuantity s book price = some (ListBook.quantityOn (ordersOf view book.entries) price) := by
  have hdata : ∀ e ∈ book.entries, ∀ x ∈ view e.2, x.2.price = e.1 :=
    fun e he x hx => (h.data e (List.mem_append_left _ he) x hx).2
  unfold levelQuantity ListBook.quantityOn
  cases hf : book.find? price with
  | none =>
    have hnil : (ordersOf view book.entries).filter (·.price = price) = [] := by
      refine List.filter_eq_nil_iff.2 fun d hd => ?_
      obtain ⟨e, he, x, hx, rfl⟩ := mem_ordersOf.1 hd
      simpa [hdata e he x hx] using SortedMap.find?_none hf e he
    rw [hnil]; rfl
  | some addr =>
    obtain ⟨l₁, l₂, hb⟩ := SortedMap.find?_some hf
    obtain ⟨h1, h2⟩ := book.split_lt hb
    have he : (price, addr) ∈ book.entries := by rw [hb]; exact List.mem_append_right _ (List.mem_cons_self ..)
    obtain ⟨lv, hlv, -, hrep⟩ := h.level _ (List.mem_append_left _ he)
    have hout : ∀ l, (∀ e ∈ l, e ∈ book.entries ∧ e.1 ≠ price) →
        (ordersOf view l).filter (·.price = price) = [] := by
      intro l hl
      refine List.filter_eq_nil_iff.2 fun d hd => ?_
      obtain ⟨e, he, x, hx, rfl⟩ := mem_ordersOf.1 hd
      simpa [hdata e (hl e he).1 x hx] using (hl e he).2
    have hin : ((view addr).map (·.2)).filter (·.price = price) = (view addr).map (·.2) := by
      refine List.filter_eq_self.2 fun d hd => ?_
      obtain ⟨x, hx, rfl⟩ := List.mem_map.1 hd
      simpa using hdata _ he x hx
    have hsum : (ordersOf view book.entries).filter (·.price = price) = (view addr).map (·.2) := by
      rw [hb, ordersOf_append, ordersOf_cons, List.filter_append, List.filter_append, hin, hout l₁, hout l₂]
      · simp
      · intro e he'
        refine ⟨by rw [hb]; exact List.mem_append_right _ (List.mem_cons_of_mem _ he'), fun hep => ?_⟩
        exact Std.Irrefl.irrefl _ (hep ▸ h2 e he')
      · intro e he'
        refine ⟨by rw [hb]; exact List.mem_append_left _ he', fun hep => ?_⟩
        exact Std.Irrefl.irrefl _ (hep ▸ h1 e he')
    rw [hsum]
    simp only [hlv, Option.map_some, hrep.total, List.map_map]
    congr 2
    refine List.map_congr_left fun x hx => ?_
    obtain ⟨o, ho, -, hod⟩ := h.live (List.mem_append_left _ he) hx
    simp only [Function.comp, remainingOf_some ho, ← hod]

/-- The records of one level, through the memory. -/
theorem snapshotLevel (h : s.Shows entries view) (he : e ∈ entries) (side : Side) {v : List (Slot × OrderData)}
    (hv : ∀ x ∈ v, x ∈ view e.2) :
    ((v.map (·.1)).filterMap s.pool.get).map (fun o =>
        ({ side, price := e.1, id := o.id, remaining := o.remaining, sequence := o.sequence } : OrderSnapshot)) =
      ListBook.snapshotOf side (v.map (·.2)) := by
  induction v with
  | nil => rfl
  | cons x v ih =>
    have hx := hv x (List.mem_cons_self ..)
    obtain ⟨o, ho, -, hod⟩ := h.live he hx
    have hprice := (h.data e he x hx).2
    have htail := ih fun y hy => hv y (List.mem_cons_of_mem _ hy)
    unfold ListBook.snapshotOf at htail ⊢
    simp only [List.map_cons, List.filterMap_cons, ho, htail]
    rw [hprice, ← hod]

/-- `for_each` lists the orders of every level, in the order of the view. -/
theorem snapshotSide_spec (side : Side) (h : s.Shows entries view) {l : List Entry} (hl : ∀ e ∈ l, e ∈ entries) :
    snapshotSide s side l = some (ListBook.snapshotOf side (ordersOf view l)) := by
  induction l with
  | nil => rfl
  | cons e l ih =>
    have he := hl e (List.mem_cons_self ..)
    obtain ⟨lv, hlv, -, hrep⟩ := h.level e he
    rw [snapshotSide, ordersOf_cons, ih fun e' he' => hl e' (List.mem_cons_of_mem _ he')]
    simp only [hlv, PriceLevel.forEach_eq hrep, Option.bind_eq_bind, Option.bind_some,
      snapshotLevel h he side fun _ hx => hx]
    simp [ListBook.snapshotOf]

end Queries

/-- Every query shows what the reference book shows. -/
theorem observe_spec (h : b.Represents r) : b.observe = r.observe := by
  obtain ⟨view, h⟩ := h
  have hbids := h.shows.sublist (List.sublist_append_left b.bids.entries b.asks.entries)
  have hasks := h.shows.sublist (List.sublist_append_right b.bids.entries b.asks.entries)
  unfold observe ListBook.observe
  congr 1
  · exact h.trades
  · rw [bestBid, SortedMap.begin?, ListBook.bestBid, ← h.bids, best_spec hbids h.bidsFilled]
  · rw [bestAsk, SortedMap.begin?, ListBook.bestAsk, ← h.asks, best_spec hasks h.asksFilled]
  · rw [← h.bids, levels_spec hbids h.bidsFilled b.bids.keys_nodup]; rfl
  · rw [← h.asks, levels_spec hasks h.asksFilled b.asks.keys_nodup]; rfl
  · rw [orderCount, h.indexed.size, h.resting_eq, List.length_map]
  · funext side price
    unfold quantityAt ListBook.own
    split
    · rw [levelQuantity_spec h.shows, h.bids]
    · rw [levelQuantity_spec h.swap.1, h.asks]
  · rw [snapshot, snapshotSide_spec .buy hbids fun _ he => he, snapshotSide_spec .sell hasks fun _ he => he, h.bids,
      h.asks]
    rfl

/-! ## The refinement -/

/-- The constructor builds an empty book, for every capacity. -/
theorem create_spec (stp : SelfTradePolicy) (poolCapacity : UInt64) :
    ∃ b, create stp poolCapacity = some b ∧ b.Represents (ListBook.create stp) := by
  have h16 : (16 : UInt64).toNat ≤ 2 ^ 63 := by decide
  obtain ⟨m, hr, hw, hl, hs⟩ := @FlatHashMap.ofCapacity_spec (Option Slot) _ _ h16
  obtain ⟨index, hr', hw', hl', hs', -⟩ := hw.reserve_spec poolCapacity
  obtain ⟨hpool, hget⟩ := MemoryPool.ofCapacity_wf (T := Order) poolCapacity.toNat
  refine ⟨{ stp, pool := .ofCapacity poolCapacity.toNat, levels := fun _ => none, nextLevel := 0, index, trades := [],
            bids := .empty, asks := .empty, nextSeq := 1 }, by simp [create, hr, hr'], fun _ => [],
    ⟨⟨hpool, List.nodup_nil, by simp [SortedMap.empty], by simp [SortedMap.empty], by simp [SortedMap.empty]⟩,
      ⟨hw', List.nodup_nil, hs'.trans hs, rfl, fun id r => ?_⟩, by simp [SortedMap.empty], by simp [SortedMap.empty],
      rfl, rfl, by simp [ListBook.create], by simp [ListBook.create], rfl, rfl, rfl⟩⟩
  show index.lookup id = some r ↔ _
  rw [hl', hl]
  simp [SortedMap.empty, shown]

theorem call_refines : Machine.Refines call ListBook.call Represents := by
  intro b r c h
  cases c with
  | submit id trader side price quantity =>
    obtain ⟨b', hr, h'⟩ := submit_spec h id trader side price quantity
    exact ⟨b', by rw [call, hr]; rfl, h'⟩
  | cancel id =>
    obtain ⟨b', hr, h'⟩ := cancel_spec h id
    exact ⟨b', by rw [call, hr]; rfl, h'⟩

theorem step_refines : Machine.Refines step ListBook.step Represents := by
  intro b r c h
  obtain ⟨b', hr, h'⟩ := call_refines b r c h
  refine ⟨b', ?_, h'⟩
  rw [step, hr]
  simp only [Option.map_some, observe_spec h']
  rfl

/-- **The book is observationally the reference book**: from a fresh book of any policy and pool
capacity every sequence of calls returns, each call with the result, and afterwards the queries
with the answers, of the reference book. -/
theorem run_eq_listBook (stp : SelfTradePolicy) (poolCapacity : UInt64) (calls : List BookCall) :
    ∃ b₀ b, create stp poolCapacity = some b₀ ∧ b₀.observe = (ListBook.create stp).observe ∧
      Machine.run step b₀ calls = some (b, (Machine.runT ListBook.step (ListBook.create stp) calls).2) := by
  obtain ⟨b₀, hr, h₀⟩ := create_spec stp poolCapacity
  obtain ⟨b, hrun, -⟩ := step_refines.run h₀ calls
  exact ⟨b₀, b, hr, observe_spec h₀, hrun⟩

end OrderBook

end Obe
