/-
Runs of the book seen as a list of events: each call with its result, the trades it produced and
the resting orders before and after it, in the order of the levels and their lists. The events of
the concrete book are those of the reference book.
-/
import OrderBookEngine.Book.Sound
import OrderBookEngine.Book.Walk

namespace Obe

/-- The resting orders of both sides, best price first and by arrival. -/
structure Sides where
  bids : List OrderData
  asks : List OrderData
  deriving DecidableEq, Repr

namespace Sides

def resting (s : Sides) : List OrderData := s.bids ++ s.asks

def find (s : Sides) (id : OrderId) : Option OrderData := s.resting.find? (·.id = id)

/-- The side an order on `side` rests on. -/
def own (s : Sides) (side : Side) : List OrderData := if side = .buy then s.bids else s.asks

/-- The side an order on `side` trades with. -/
def opposite (s : Sides) (side : Side) : List OrderData := if side = .buy then s.asks else s.bids

end Sides

structure Event where
  call : BookCall
  ret : BookRet
  trades : List Trade
  before : Sides
  after : Sides
  deriving DecidableEq, Repr

/-- The trades a call produced: `cancel` leaves those of an earlier `submit` in place. -/
def BookCall.produced : BookCall → List Trade → List Trade
  | .submit .., trades => trades
  | .cancel _, _ => []

def OrderBook.sides (b : OrderBook) : Sides :=
  { bids := b.bids.entries.flatMap fun e => (b.ordersAt e.2).map (·.toOrderData)
    asks := b.asks.entries.flatMap fun e => (b.ordersAt e.2).map (·.toOrderData) }

def OrderBook.eventStep (b : OrderBook) (c : BookCall) : Option (OrderBook × Event) :=
  (b.call c).map fun r => (r.1, ⟨c, r.2, c.produced r.1.trades, b.sides, r.1.sides⟩)

def ListBook.sides (b : ListBook) : Sides := ⟨b.bids, b.asks⟩

def ListBook.event (b : ListBook) (c : BookCall) : Event :=
  ⟨c, (b.call c).2, c.produced (b.call c).1.trades, b.sides, (b.call c).1.sides⟩

def ListBook.eventStep (b : ListBook) (c : BookCall) : ListBook × Event := ((b.call c).1, b.event c)

theorem OrderBook.sides_eq {b : OrderBook} {r : ListBook} (h : b.Represents r) : b.sides = r.sides := by
  obtain ⟨view, h⟩ := h
  have hside : ∀ entries : List Entry, (∀ e ∈ entries, e ∈ b.bids.entries ++ b.asks.entries) →
      (entries.flatMap fun e => (b.ordersAt e.2).map (·.toOrderData)) = ordersOf view entries := by
    intro entries he
    unfold ordersOf shown
    rw [List.map_flatMap, List.flatMap_def, List.flatMap_def,
      List.map_congr_left fun e hm => h.ordersAt_data (he e hm)]
  unfold sides ListBook.sides
  rw [hside _ fun e he => List.mem_append_left _ he, hside _ fun e he => List.mem_append_right _ he, h.bids, h.asks]

theorem OrderBook.event_refines : Machine.Refines OrderBook.eventStep ListBook.eventStep OrderBook.Represents := by
  intro b r c h
  obtain ⟨b', hr, h'⟩ := call_refines b r c h
  have ht : b'.trades = (r.call c).1.trades := by
    obtain ⟨view, hv⟩ := h'
    exact hv.trades
  refine ⟨b', ?_, h'⟩
  rw [eventStep, hr]
  simp only [Option.map_some, sides_eq h, sides_eq h', ht]
  rfl

/-- The events of every run from a fresh book are those of the reference book. -/
theorem OrderBook.run_events (stp : SelfTradePolicy) (poolCapacity : UInt64) (calls : List BookCall) :
    ∃ b₀ b, create stp poolCapacity = some b₀ ∧
      Machine.run eventStep b₀ calls = some (b, (Machine.runT ListBook.eventStep (.create stp) calls).2) ∧
      b.sides = (Machine.runT ListBook.eventStep (.create stp) calls).1.sides := by
  obtain ⟨b₀, hr, h₀⟩ := create_spec stp poolCapacity
  obtain ⟨b, hrun, h⟩ := event_refines.run h₀ calls
  exact ⟨b₀, b, hr, hrun, sides_eq h⟩

namespace ListBook

variable {b : ListBook} {taker : Taker} {id : OrderId} {quantity : Quantity} {n : Nat}

@[simp] theorem sides_own (b : ListBook) (side : Side) : b.sides.own side = b.own side := rfl

theorem find_eq_some (h : b.ids.Nodup) {o : OrderData} : b.sides.find id = some o ↔ o ∈ b.resting ∧ o.id = id := by
  constructor
  · intro hf
    exact ⟨List.mem_of_find?_eq_some hf, by simpa using List.find?_some hf⟩
  · rintro ⟨ho, rfl⟩
    cases hf : b.sides.find o.id with
    | none => simpa using List.find?_eq_none.1 hf o ho
    | some o' =>
      have hid : o'.id = o.id := by simpa using List.find?_some hf
      rw [List.inj_on_of_nodup_map h (List.mem_of_find?_eq_some hf) ho hid]

theorem find_eq_none : b.sides.find id = none ↔ id ∉ b.ids := by
  unfold Sides.find
  rw [List.find?_eq_none]
  constructor
  · intro h hm
    obtain ⟨o, ho, rfl⟩ := List.mem_map.1 hm
    simpa using h o ho
  · intro h o ho
    have : o.id ≠ id := fun he => h (he ▸ List.mem_map_of_mem ho)
    simpa using this

/-- The reference book along a run of events. -/
theorem eventRun_valid (h : b.Valid) (calls : List BookCall) : (Machine.runT eventStep b calls).1.Valid :=
  Machine.runT_invariant (fun _ c hv => hv.step c) h calls

theorem eventRun_stp (b : ListBook) (calls : List BookCall) : (Machine.runT eventStep b calls).1.stp = b.stp :=
  Machine.runT_invariant (P := fun r => r.stp = b.stp)
    (fun r c h => (show (eventStep r c).1.stp = b.stp from (call_stp r c).trans h)) rfl calls

end ListBook

end Obe
