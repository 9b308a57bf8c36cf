/-
The data structures of the concrete book in every reachable state: each level's list read both
ways, its count and aggregate, the back-pointers, the index, the pool and the snapshot.
-/
import OrderBookEngine.Book.Invariant

namespace Obe

/-- The side of a submitted order is one of the two named ones. -/
def BookCall.SideNamed : BookCall → Prop
  | .submit _ _ side _ _ => side = .buy ∨ side = .sell
  | .cancel _ => True

namespace ListBook

/-- Every resting order has a named side. -/
def SidesNamed (b : ListBook) : Prop := ∀ o ∈ b.resting, o.side = .buy ∨ o.side = .sell

theorem step_sides {b : ListBook} (h : b.SidesNamed) {c : BookCall} (hc : c.SideNamed) : (b.step c).1.SidesNamed := by
  have hshrink : ∀ {b'}, Shrunk b b' → b'.SidesNamed := fun hs => mem_of_keys (fun _ => Iff.rfl) hs.resting h
  cases c with
  | submit id trader side price quantity =>
    have hsw := hshrink (swept_shrunk b ⟨id, trader, side, price⟩ quantity)
    show (b.submit ⟨id, trader, side, price⟩ quantity).1.SidesNamed
    rcases submit_cases b ⟨id, trader, side, price⟩ quantity with ⟨-, he⟩ | ⟨-, ⟨-, he⟩ | ⟨-, -, he⟩ | ⟨-, -, he⟩⟩
    · rw [he]; exact h
    · rw [he]; exact hsw
    · rw [he]
      intro o ho
      rcases List.mem_cons.1 ((rest_resting_perm _ _ _).mem_iff.1 ho) with rfl | ho
      · exact hc
      · exact hsw o ho
    · rw [he]; exact hsw
  | cancel id => exact hshrink (cancel_shrunk b id)

theorem run_sides {b : ListBook} (h : b.SidesNamed) (calls : List BookCall) (hc : ∀ c ∈ calls, c.SideNamed) :
    (Machine.runT step b calls).1.SidesNamed := by
  induction calls generalizing b with
  | nil => exact h
  | cons c calls ih =>
    exact ih (step_sides h (hc c (List.mem_cons_self ..))) fun c' hc' => hc c' (List.mem_cons_of_mem _ hc')

end ListBook

namespace OrderBook

/-- The addresses met on the forward walk of a level. -/
def queueOf (b : OrderBook) (addr : LevelPtr) : List Slot :=
  ((b.levels addr).bind fun level => walk (nextOf b.pool.get) level.count level.head).getD []

/-- The orders met on the forward walk of a level. -/
def ordersAt (b : OrderBook) (addr : LevelPtr) : List Order := (b.queueOf addr).filterMap b.pool.get

/-- The level of a map entry, whose orders are of a side that satisfies `onSide`. -/
structure LevelSound (b : OrderBook) (onSide : Side → Prop) (e : Entry) (level : PriceLevel) : Prop where
  stored : b.levels e.2 = some level
  notEmpty : level.empty = false
  key : level.price = e.1
  forward : walk (nextOf b.pool.get) level.count level.head = some (b.queueOf e.2)
  backward : walk (prevOf b.pool.get) level.count level.tail = some (b.queueOf e.2).reverse
  distinct : (b.queueOf e.2).Nodup
  count : level.count = (b.queueOf e.2).length
  member : ∀ p ∈ b.queueOf e.2, ∃ o, b.pool.get p = some o ∧ o.level = some e.2 ∧ o.price = level.price ∧
    onSide o.side ∧ 0 < o.remaining
  total : level.totalQty = ((b.ordersAt e.2).map (·.remaining)).sum

/-- An order rests at `p`. -/
def RestsAt (b : OrderBook) (p : Slot) (o : Order) : Prop :=
  ∃ e ∈ b.bids.entries ++ b.asks.entries, p ∈ b.queueOf e.2 ∧ b.pool.get p = some o

structure Sound (b : OrderBook) : Prop where
  bids : ∀ e ∈ b.bids.entries, ∃ level, b.LevelSound (· = .buy) e level
  asks : ∀ e ∈ b.asks.entries, ∃ level, b.LevelSound (· ≠ .buy) e level
  index : ∀ id r, b.index.lookup id = some r ↔ ∃ p o, b.RestsAt p o ∧ r = some p ∧ o.id = id
  once : ∀ p q o o', b.RestsAt p o → b.RestsAt q o' → o.id = o'.id → p = q
  live : b.orderCount = b.pool.liveCount
  listed : ∃ l, b.snapshot = some l ∧ l.length = b.orderCount

namespace ShowsAs

variable {b : OrderBook} {r : ListBook} {view : View} {e : Entry}

theorem queueOf_eq (h : b.ShowsAs r view) (he : e ∈ b.bids.entries ++ b.asks.entries) :
    b.queueOf e.2 = (view e.2).map (·.1) := by
  obtain ⟨lv, hlv, -, hrep⟩ := h.shows.level e he
  unfold queueOf
  rw [hlv, Option.bind_some, hrep.dll.walk_next (Nat.le_of_eq hrep.count.symm), Option.getD_some]

theorem ordersAt_data (h : b.ShowsAs r view) (he : e ∈ b.bids.entries ++ b.asks.entries) :
    (b.ordersAt e.2).map (·.toOrderData) = (view e.2).map (·.2) := by
  have hall : ∀ v : List (Slot × OrderData), (∀ x ∈ v, x ∈ view e.2) →
      ((v.map (·.1)).filterMap b.pool.get).map (·.toOrderData) = v.map (·.2) := by
    intro v hv
    induction v with
    | nil => rfl
    | cons x v ih =>
      obtain ⟨o, ho, -, hod⟩ := h.shows.live he (hv x (List.mem_cons_self ..))
      simp only [List.map_cons, List.filterMap_cons, ho, ih fun y hy => hv y (List.mem_cons_of_mem _ hy), hod]
  unfold ordersAt
  rw [h.queueOf_eq he]
  exact hall _ fun _ hx => hx

theorem restsAt_iff (h : b.ShowsAs r view) {p : Slot} {d : OrderData} :
    (∃ o, b.RestsAt p o ∧ o.toOrderData = d) ↔ (p, d) ∈ shown view (b.bids.entries ++ b.asks.entries) := by
  rw [mem_shown]
  constructor
  · rintro ⟨o, ⟨e, he, hp, ho⟩, rfl⟩
    rw [h.queueOf_eq he] at hp
    obtain ⟨x, hx, rfl⟩ := List.mem_map.1 hp
    obtain ⟨o', ho', -, hod⟩ := h.shows.live he hx
    rw [ho] at ho'; cases ho'
    exact ⟨e, he, by rw [hod]; exact hx⟩
  · rintro ⟨e, he, hx⟩
    obtain ⟨o, ho, -, hod⟩ := h.shows.live he hx
    exact ⟨o, ⟨e, he, by rw [h.queueOf_eq he]; exact List.mem_map_of_mem hx, ho⟩, hod⟩

theorem levelSound (h : b.ShowsAs r view) (hv : r.Valid) (he : e ∈ b.bids.entries ++ b.asks.entries)
    {onSide : Side → Prop} (hside : ∀ x ∈ view e.2, onSide x.2.side) (hne : view e.2 ≠ []) :
    ∃ level, b.LevelSound onSide e level := by
  obtain ⟨lv, hlv, hprice, hrep⟩ := h.shows.level e he
  have hq := h.queueOf_eq he
  refine ⟨lv, hlv, ?_, hprice, ?_, ?_, ?_, ?_, fun p hp => ?_, ?_⟩
  · rw [← Bool.not_eq_true, hrep.empty_iff, List.map_eq_nil_iff]; exact hne
  · rw [hq]; exact hrep.dll.walk_next (Nat.le_of_eq hrep.count.symm)
  · rw [hq]; exact hrep.dll.walk_prev (Nat.le_of_eq hrep.count.symm)
  · rw [hq]; exact hrep.dll.nodup
  · rw [hq]; exact hrep.count
  · rw [hq] at hp
    obtain ⟨x, hx, rfl⟩ := List.mem_map.1 hp
    obtain ⟨o, ho, hl, hod⟩ := h.shows.live he hx
    have hres : x.2 ∈ r.resting := by
      rw [h.resting_eq]; exact List.mem_map_of_mem (mem_shown.2 ⟨e, he, hx⟩)
    refine ⟨o, ho, hl, ?_, ?_, ?_⟩
    · rw [hprice, ← (h.shows.data e he x hx).2, ← hod]
    · rw [show o.side = x.2.side by rw [← hod]]; exact hside x hx
    · rw [show o.remaining = x.2.remaining by rw [← hod]]; exact hv.positive x.2 hres
  · have hd := congrArg (List.map OrderData.remaining) (h.ordersAt_data he)
    rw [List.map_map, List.map_map] at hd
    rw [hrep.total]
    show _ = ((b.ordersAt e.2).map (OrderData.remaining ∘ Order.toOrderData)).sum
    rw [hd, List.map_map]
    congr 1
    refine List.map_congr_left fun x hx => ?_
    obtain ⟨o, ho, -, hod⟩ := h.shows.live he hx
    simp only [Function.comp, remainingOf_some ho, ← hod]

theorem sound (h : b.ShowsAs r view) (hv : r.Valid) : b.Sound := by
  refine ⟨fun e he => ?_, fun e he => ?_, fun id p => ?_, fun p q o o' hp hq hid => ?_, ?_, ?_⟩
  · refine h.levelSound hv (List.mem_append_left _ he) (fun x hx => h.bidSide x.2 ?_) (h.bidsFilled e he)
    rw [← h.bids]; exact mem_ordersOf.2 ⟨e, he, x, hx, rfl⟩
  · refine h.levelSound hv (List.mem_append_right _ he) (fun x hx => h.askSide x.2 ?_) (h.asksFilled e he)
    rw [← h.asks]; exact mem_ordersOf.2 ⟨e, he, x, hx, rfl⟩
  · rw [h.indexed.lookup]
    constructor
    · rintro ⟨x, hx, rfl, rfl⟩
      obtain ⟨o, ho, hod⟩ := h.restsAt_iff.2 hx
      exact ⟨x.1, o, ho, rfl, by rw [← hod]⟩
    · rintro ⟨p, o, ho, rfl, rfl⟩
      exact ⟨(p, o.toOrderData), h.restsAt_iff.1 ⟨o, ho, rfl⟩, rfl, rfl⟩
  · have hx := (h.indexed.lookup o.id (some p)).2 ⟨_, h.restsAt_iff.1 ⟨o, hp, rfl⟩, rfl, rfl⟩
    have hy := (h.indexed.lookup o.id (some q)).2 ⟨_, h.restsAt_iff.1 ⟨o', hq, rfl⟩, rfl, hid⟩
    rw [hx] at hy
    cases hy; rfl
  · rw [orderCount, h.indexed.size, h.indexed.live]
  · have hobs := observe_spec ⟨view, h⟩
    have hs : b.snapshot = some r.snapshot := congrArg Observation.snapshot hobs
    have hc : b.orderCount = r.resting.length := congrArg Observation.orderCount hobs
    refine ⟨r.snapshot, hs, ?_⟩
    rw [hc, ListBook.snapshot, ListBook.resting]
    simp [ListBook.snapshotOf]

/-- Along a level, in the order of arrival. -/
theorem ordersAt_inTime (h : b.ShowsAs r view) {l : List OrderData} {entries : List Entry} (he : e ∈ entries)
    (hsub : ∀ e ∈ entries, e ∈ b.bids.entries ++ b.asks.entries) (hl : ordersOf view entries = l)
    (ht : ListBook.InTime l) : (b.ordersAt e.2).Pairwise fun x y => x.sequence < y.sequence := by
  have hea := hsub e he
  obtain ⟨l₁, l₂, rfl⟩ := List.append_of_mem he
  rw [← hl, ordersOf_append, ordersOf_cons] at ht
  have hlevel : ((view e.2).map (·.2)).Pairwise fun x y => x.price = y.price → x.sequence < y.sequence :=
    (List.pairwise_append.1 (List.pairwise_append.1 ht).2.1).1
  rw [← h.ordersAt_data hea, List.pairwise_map] at hlevel
  refine hlevel.imp_of_mem fun {x y} hx hy hxy => hxy ?_
  have hprice : ∀ x ∈ b.ordersAt e.2, x.price = e.1 := by
    intro x hx
    have hm : x.toOrderData ∈ (b.ordersAt e.2).map (·.toOrderData) := List.mem_map_of_mem hx
    rw [h.ordersAt_data hea] at hm
    obtain ⟨z, hz, he⟩ := List.mem_map.1 hm
    rw [← he]; exact (h.shows.data e hea z hz).2
  rw [hprice x hx, hprice y hy]

end ShowsAs

/-! ## Reachable states -/

/-- **Every reachable state is sound.** The asks hold sales when every submitted side is one of the
two names, and arrival is the order of sequence numbers until their counter wraps. -/
theorem reachable_sound (stp : SelfTradePolicy) (poolCapacity : UInt64) (calls : List BookCall) :
    ∃ b₀ b outs, create stp poolCapacity = some b₀ ∧ Machine.run step b₀ calls = some (b, outs) ∧ b.Sound ∧
      ((∀ c ∈ calls, c.SideNamed) → ∀ e ∈ b.asks.entries, ∀ o ∈ b.ordersAt e.2, o.side = .sell) ∧
      (restCount (outs.map (·.1)) + 1 < 2 ^ 64 → ∀ e ∈ b.bids.entries ++ b.asks.entries,
        ((b.ordersAt e.2).Pairwise fun x y => x.sequence < y.sequence) ∧
        ∀ o ∈ b.ordersAt e.2, o.sequence < b.nextSeq) := by
  obtain ⟨b₀, hr, h₀⟩ := create_spec stp poolCapacity
  obtain ⟨b, hrun, view, h⟩ := step_refines.run h₀ calls
  obtain ⟨hv, hn⟩ := ListBook.run_valid (ListBook.create_numbered stp) (ListBook.create_valid stp) calls
  rw [Nat.zero_add] at hn
  have hmem : ∀ e ∈ b.bids.entries ++ b.asks.entries, ∀ o ∈ b.ordersAt e.2, ∃ x ∈ view e.2, x.2 = o.toOrderData := by
    intro e he o ho
    have hm : o.toOrderData ∈ (b.ordersAt e.2).map (·.toOrderData) := List.mem_map_of_mem ho
    rw [h.ordersAt_data he] at hm
    exact List.mem_map.1 hm
  refine ⟨b₀, b, _, hr, hrun, h.sound hv, fun hc e he o ho => ?_, fun hlt e he => ⟨?_, fun o ho => ?_⟩⟩
  · obtain ⟨x, hx, hxo⟩ := hmem e (List.mem_append_right _ he) o ho
    have hask : x.2 ∈ (Machine.runT ListBook.step (ListBook.create stp) calls).1.asks := by
      rw [← h.asks]; exact mem_ordersOf.2 ⟨e, he, x, hx, rfl⟩
    have hnamed := ListBook.run_sides (b := ListBook.create stp)
      (by simp [ListBook.SidesNamed, ListBook.create, ListBook.resting]) calls hc
      x.2 (List.mem_append_right _ hask)
    have hside : o.side = x.2.side := by rw [hxo]
    rw [hside]
    exact hnamed.resolve_left (hv.askSide x.2 hask)
  · rcases List.mem_append.1 he with hb | ha
    · exact h.ordersAt_inTime hb (fun _ he => List.mem_append_left _ he) h.bids (hn.bids hlt)
    · exact h.ordersAt_inTime ha (fun _ he => List.mem_append_right _ he) h.asks (hn.asks hlt)
  · obtain ⟨x, hx, hxo⟩ := hmem e he o ho
    have hlow := hn.below hlt x.2 (by rw [h.resting_eq]; exact List.mem_map_of_mem (mem_shown.2 ⟨e, he, hx⟩))
    rw [h.nextSeq]
    rwa [hxo] at hlow

end OrderBook

end Obe
