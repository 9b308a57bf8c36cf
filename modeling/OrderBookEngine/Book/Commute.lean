/-
A cancel commutes with a submit that leaves its order alone. An order that the walk does not trade
with, does not remove and does not stop at is behind the last maker or on the taker's own side, so the
walk without it is the same walk, wherever the order stands and whatever level it empties.
-/
import OrderBookEngine.Book.Cancel
import OrderBookEngine.Book.SelfTrade

namespace Obe

/-- The submission on `side` was cancelled in front of `o`, its trader's own order. -/
def Event.StopsAt (ev : Event) (side : Side) (o : OrderData) : Prop :=
  (∃ res, ev.ret = .submitted res ∧ res.status = .cancelledBySelfTrade) ∧ (ev.after.opposite side).head? = some o

/-- The submission on `side` does not trade with `o`, remove it unfilled or stop at it. -/
structure Event.Spares (ev : Event) (side : Side) (o : OrderData) : Prop where
  untraded : ∀ t ∈ ev.trades, t.makerId ≠ o.id
  kept : ¬ ev.RemovesUnfilled o
  passed : ¬ ev.StopsAt side o

/-- An order that no trade names, that still rests and is not in front of its side is spared. -/
theorem Event.Spares.of_rests {ev : Event} {side : Side} {o : OrderData}
    (huntraded : ∀ t ∈ ev.trades, t.makerId ≠ o.id) (hrests : ev.after.find o.id = some o)
    (hbehind : (ev.after.opposite side).head? ≠ some o) : ev.Spares side o := by
  refine ⟨huntraded, fun h => ?_, fun h => hbehind h.2⟩
  rw [h.2.1] at hrests
  cases hrests

/-! ## The walk without an order -/

section Walk

variable {stp : SelfTradePolicy} {taker : Taker} {quantity : Quantity} {o : OrderData} {queue : List OrderData}

/-- The same walk, with the order `id` not left. -/
def Sweep.without (r : Sweep) (id : OrderId) : Sweep := { r with queue := r.queue.filter (·.id ≠ id) }

/-- A walk that leaves an order as it is, and does not stop at it, does not see it. -/
theorem sweep_without (stp : SelfTradePolicy) (taker : Taker) (hnd : (queue.map (·.id)).Nodup)
    (hsorted : queue.Pairwise fun x y =>
      crosses taker.side taker.limit y.price = true → crosses taker.side taker.limit x.price = true)
    (ho : o ∈ queue) (hleft : o ∈ (sweep stp taker quantity queue).queue)
    (hstop : (sweep stp taker quantity queue).stopped = true →
      (sweep stp taker quantity queue).queue.head? ≠ some o) :
    sweep stp taker quantity (queue.filter (·.id ≠ o.id)) = (sweep stp taker quantity queue).without o.id := by
  induction queue generalizing quantity with
  | nil => cases ho
  | cons x queue ih =>
    rw [List.map_cons, List.nodup_cons] at hnd
    rw [List.pairwise_cons] at hsorted
    by_cases hxo : x = o
    · -- the order is in front: nothing in the tail may trade
      subst hxo
      have hout : x ∉ queue := fun hm => hnd.1 (List.mem_map_of_mem hm)
      have htail : (x :: queue).filter (·.id ≠ x.id) = queue := by
        rw [List.filter_cons_of_neg (by simp), filter_key_of_notMem hnd.1]
      rcases sweep_cases stp taker quantity x queue with ⟨hd, he⟩ | ⟨-, -, -, he⟩ | ⟨-, -, -, he⟩ | ⟨-, -, -, he⟩ |
        ⟨hd, -, hlt, he⟩
      · rw [he, htail, Sweep.without, htail]
        by_cases h0 : quantity = 0
        · rw [h0, sweep_zero]
        · refine ListBook.sweep_apart fun y hy => ?_
          have hx : crosses taker.side taker.limit x.price = false := by simpa [Taker.done, h0] using hd
          rw [← Bool.not_eq_true] at hx ⊢
          exact fun hc => hx (hsorted.1 y (List.mem_of_mem_head? hy) hc)
      · rw [he] at hleft
        exact absurd (sweep_id_mem (List.mem_map_of_mem hleft)) hnd.1
      · rw [he] at hstop
        exact absurd rfl (hstop rfl)
      · rw [he] at hleft
        exact absurd (sweep_id_mem (List.mem_map_of_mem hleft)) hnd.1
      · -- it gave up what was left of the taker, which is something
        rw [he] at hleft
        have hsame : x = x.reduce quantity := (List.mem_cons.1 hleft).resolve_right hout
        have hrem : x.remaining = x.remaining - quantity := congrArg OrderData.remaining hsame
        have h0 := (not_done_iff.1 hd).1
        grind
    · -- another order is in front, and keeps its place
      have hm : o ∈ queue := (List.mem_cons.1 ho).resolve_left (Ne.symm hxo)
      have hid : x.id ≠ o.id := fun he => hnd.1 (he ▸ List.mem_map_of_mem hm)
      have hkeep : (x :: queue).filter (·.id ≠ o.id) = x :: queue.filter (·.id ≠ o.id) :=
        List.filter_cons_of_pos (by simpa using hid)
      rw [hkeep]
      rcases sweep_cases stp taker quantity x queue with ⟨hd, he⟩ | ⟨hd, hs, hp, he⟩ | ⟨hd, hs, hp, he⟩ |
        ⟨hd, hs, hf, he⟩ | ⟨hd, hs, hlt, he⟩
      · rw [he, sweep_done hd, Sweep.without, hkeep]
      · rw [he] at hleft hstop ⊢
        rw [sweep_resting hd hs hp]
        exact ih hnd.2 hsorted.2 hm hleft hstop
      · rw [he, sweep_aggressing hd hs hp, Sweep.without, hkeep]
      · rw [he] at hleft hstop ⊢
        rw [sweep_fill hd hs hf, ih hnd.2 hsorted.2 hm hleft hstop]
        rfl
      · have hid' : (x.reduce quantity).id ≠ o.id := hid
        rw [he, sweep_exhaust hd hs hlt, Sweep.without]
        dsimp only
        rw [List.filter_cons_of_pos (by simpa using hid')]

end Walk

namespace ListBook

variable {b : ListBook} {taker : Taker} {quantity remaining : Quantity} {id : OrderId} {o : OrderData}

/-- Another order leaves the place of a new one as it is. -/
theorem insertOrder_filter {lt : Price → Price → Prop} [DecidableRel lt] [IsStrictTotalOrder Price lt]
    {d : OrderData} {l : List OrderData} {id : OrderId} (h : l.Pairwise fun x y => ¬ lt y.price x.price)
    (hne : d.id ≠ id) : (insertOrder lt d l).filter (·.id ≠ id) = insertOrder lt d (l.filter (·.id ≠ id)) := by
  obtain ⟨l₁, l₂, rfl, he, h1, h2⟩ := insertOrder_split d h
  rw [he, List.filter_append, List.filter_append, List.filter_cons_of_pos (by simpa using hne), insertOrder_append]
  · exact fun a ha => h1 a (List.mem_filter.1 ha).1
  · exact fun a ha => h2 a (List.mem_filter.1 ha).1

theorem opposite_cancel (b : ListBook) (id : OrderId) (side : Side) :
    (b.cancel id).1.opposite side = (b.opposite side).filter (·.id ≠ id) := by
  rw [cancel_eq]
  unfold opposite
  split <;> rfl

theorem swept_cancel (b : ListBook) (taker : Taker) (r : Sweep) (id : OrderId) :
    (b.cancel id).1.swept taker (r.without id) = ((b.swept taker r).cancel id).1 := by
  rw [cancel_eq, cancel_eq]
  unfold swept setOpposite
  split <;> rfl

theorem rest_cancel_comm (hv : b.Valid) (hne : taker.id ≠ id) :
    (b.cancel id).1.rest taker remaining = ((b.rest taker remaining).cancel id).1 := by
  have hbids := @insertOrder_filter bidOrder _ _ (b.newOrder taker remaining) b.bids id hv.bidSorted hne
  have hasks := @insertOrder_filter askOrder _ _ (b.newOrder taker remaining) b.asks id hv.askSorted hne
  rw [cancel_eq, cancel_eq]
  unfold rest
  dsimp only
  split
  · dsimp only
    rw [hbids]
    rfl
  · dsimp only
    rw [hasks]
    rfl

/-- What a walk spares, it leaves as it is. -/
theorem spared_left (hv : b.Valid) (ho : o ∈ b.resting) (hq : ¬ (quantity = 0 ∨ taker.id ∈ b.ids))
    (h : (b.submitEvent taker quantity).Spares taker.side o) :
    o ∈ (b.swept taker (b.walk taker quantity)).resting := by
  have htrades : (b.submitEvent taker quantity).trades = (b.walk taker quantity).trades := (submit_accepted hq).1
  have hmaker : asMaker o.id (b.walk taker quantity).trades = 0 := by
    rw [← htrades, asMaker, List.filter_eq_nil_iff.2 fun t ht => by simpa using h.untraded t ht]
    rfl
  rcases swept_account hv ho taker quantity with ⟨hgone, -⟩ | ⟨o', ho', hkey, hmk⟩
  · -- gone, and nothing of it was traded
    refine absurd ⟨ho, (find_submit_none hq ho).2 hgone, ?_⟩ h.kept
    rw [htrades, hmaker]
    exact UInt64.lt_iff_toNat_lt.1 (hv.positive o ho)
  · rw [hmaker, Nat.zero_add] at hmk
    obtain rfl : o' = o := by
      have hrem : o'.remaining = o.remaining := UInt64.toNat_inj.1 hmk.symm
      cases o
      cases o'
      simp only [OrderData.key, OrderData.mk.injEq] at hkey hrem ⊢
      grind
    exact ho'

theorem spared_rests (hv : b.Valid) (ho : o ∈ b.resting) (h : (b.submitEvent taker quantity).Spares taker.side o) :
    o ∈ (b.submit taker quantity).1.resting := by
  by_cases hq : quantity = 0 ∨ taker.id ∈ b.ids
  · rw [submit_refused hq]
    exact ho
  · exact (submit_accepted hq).2.1 o (spared_left hv ho hq h)

/-- A spared order is not in the walk, on whichever side it rests. -/
theorem walk_cancel (hv : b.Valid) (ho : o ∈ b.resting) (hq : ¬ (quantity = 0 ∨ taker.id ∈ b.ids))
    (h : (b.submitEvent taker quantity).Spares taker.side o) :
    (b.cancel o.id).1.walk taker quantity = (b.walk taker quantity).without o.id := by
  have hids := hv.sideIds taker.side
  have hstp : (b.cancel o.id).1.stp = b.stp := call_stp b (.cancel o.id)
  have hleft := spared_left hv ho hq h
  unfold walk at hleft ⊢
  rw [opposite_cancel, hstp]
  by_cases hopp : o ∈ b.opposite taker.side
  · refine sweep_without b.stp taker hids.2.1 (hv.crosses_mono taker.side taker.limit) hopp ?_ fun hs hhead => ?_
    · rw [mem_resting taker.side, swept_own, swept_opposite] at hleft
      exact hleft.resolve_left fun hown => hids.2.2 _ (List.mem_map_of_mem hown) _ (List.mem_map_of_mem hopp) rfl
    · refine h.passed ⟨⟨_, rfl, status_stopped_iff.2 ⟨hq, hs⟩⟩, ?_⟩
      show ((b.submit taker quantity).1.opposite taker.side).head? = some o
      rw [submit_opposite hq]
      exact hhead
  · have hout : o.id ∉ (b.opposite taker.side).map (·.id) := by
      have hown := ((mem_resting taker.side).1 ho).resolve_right hopp
      exact fun hm => hids.2.2 _ (List.mem_map_of_mem hown) _ hm rfl
    rw [filter_key_of_notMem hout, Sweep.without, filter_key_of_notMem fun hm => hout (sweep_id_mem hm)]

/-- **A cancel commutes with a submit that spares its order**: the book and the result are the same. -/
theorem submit_cancel_comm (hv : b.Valid) (ho : o ∈ b.resting) (hne : o.id ≠ taker.id)
    (h : (b.submitEvent taker quantity).Spares taker.side o) :
    (b.cancel o.id).1.submit taker quantity =
      (((b.submit taker quantity).1.cancel o.id).1, (b.submit taker quantity).2) := by
  have hcond : quantity = 0 ∨ taker.id ∈ (b.cancel o.id).1.ids ↔ quantity = 0 ∨ taker.id ∈ b.ids := by
    rw [mem_cancel_ids, and_iff_left hne.symm]
  by_cases hq : quantity = 0 ∨ taker.id ∈ b.ids
  · rw [submit_refused hq, submit_refused (hcond.2 hq)]
    simp only [cancel_eq]
  · have hwalk := walk_cancel hv ho hq h
    have hvalid : (b.swept taker (b.walk taker quantity)).Valid := hv.shrink (swept_shrunk b taker quantity)
    have hrest := @rest_cancel_comm _ taker (b.walk taker quantity).remaining o.id hvalid hne.symm
    unfold submit
    rw [if_neg hq, if_neg fun h' => hq (hcond.1 h')]
    dsimp only
    rw [hwalk, swept_cancel]
    show (if (b.walk taker quantity).stopped = true then _
      else if (b.walk taker quantity).remaining > 0 then _ else _) = _
    split
    · rfl
    · split
      · rw [← hrest]
        rfl
      · rfl

end ListBook

/-! ## The concrete book -/

/-- **A cancel commutes with every submit that spares its order.** In every reachable book, an order
that rests under another id than the submission's and is not traded with, removed or stopped at by it
can be cancelled before or after: the submission has the same result and the same trades, and the
books that come out cannot be told apart. -/
theorem OrderBook.cancel_submit_comm (stp : SelfTradePolicy) (poolCapacity : UInt64) (calls : List BookCall) :
    ∃ b₀ b evs, create stp poolCapacity = some b₀ ∧ Machine.run eventStep b₀ calls = some (b, evs) ∧
      ∀ id trader side price quantity, ∃ b₁ ev res,
        b.submit id trader side price quantity = some (b₁, res) ∧
        b.eventStep (.submit id trader side price quantity) = some (b₁, ev) ∧
        ∀ o ∈ b.sides.resting, o.id ≠ id → ev.Spares side o → ∃ b₂ b₃ b₄,
          b.cancel o.id = some (b₂, true) ∧ b₂.submit id trader side price quantity = some (b₃, res) ∧
          b₁.cancel o.id = some (b₄, true) ∧ b₃.trades = ev.trades ∧ b₃.snapshot = b₄.snapshot ∧
          b₃.observe = b₄.observe ∧
          ∀ further, (Machine.run step b₃ further).map (·.2) = (Machine.run step b₄ further).map (·.2) := by
  obtain ⟨b₀, hr, h₀⟩ := create_spec stp poolCapacity
  obtain ⟨b, hrun, h⟩ := event_refines.run h₀ calls
  have hv := ListBook.eventRun_valid (ListBook.create_valid stp) calls
  generalize (Machine.runT ListBook.eventStep (ListBook.create stp) calls).1 = r at h hv
  refine ⟨b₀, b, _, hr, hrun, fun id trader side price quantity => ?_⟩
  obtain ⟨b₁, hsubmit, h₁⟩ := submit_spec h id trader side price quantity
  obtain ⟨b₁', hstep, -⟩ := event_refines b r (.submit id trader side price quantity) h
  obtain rfl : b₁' = b₁ := by
    rw [eventStep, call, hsubmit] at hstep
    exact (congrArg Prod.fst (Option.some.inj hstep)).symm
  refine ⟨b₁', _, _, hsubmit, hstep, fun o ho hne hspares => ?_⟩
  rw [sides_eq h] at ho
  have hcomm := @ListBook.submit_cancel_comm r ⟨id, trader, side, price⟩ quantity o hv ho hne hspares
  obtain ⟨b₂, hcancel, h₂⟩ := cancel_spec h o.id
  obtain ⟨b₃, hthen, h₃⟩ := submit_spec h₂ id trader side price quantity
  obtain ⟨b₄, hafter, h₄⟩ := cancel_spec h₁ o.id
  have hrests := @ListBook.spared_rests r ⟨id, trader, side, price⟩ quantity o hv ho hspares
  have hfound : ∀ q : ListBook, o ∈ q.resting → (q.cancel o.id).2 = true := by
    intro q hq
    rw [ListBook.cancel_eq]
    exact decide_eq_true (List.mem_map_of_mem hq)
  rw [hfound _ ho] at hcancel
  rw [hfound _ hrests] at hafter
  -- both orders end in books that represent one reference book
  rw [hcomm] at hthen h₃
  refine ⟨b₂, b₃, b₄, hcancel, hthen, hafter, ?_, ?_, ?_, h₃.run_eq h₄⟩
  · have htrades := congrArg Observation.lastTrades (observe_spec h₃)
    rw [ListBook.cancel_eq] at htrades
    exact htrades
  · rw [h₃.snapshot_eq, h₄.snapshot_eq]
  · rw [observe_spec h₃, observe_spec h₄]

/-- The second of two sales, behind the one that a bid trades with. -/
theorem OrderBook.cancel_submit_comm_behind :
    ∃ b₀ b evs b₁ res b₂ b₃ b₄, create .cancelResting 4 = some b₀ ∧
      Machine.run eventStep b₀ [.submit 1 7 .sell 100 10, .submit 2 7 .sell 100 10] = some (b, evs) ∧
      b.submit 3 9 .buy 100 5 = some (b₁, res) ∧ b₁.trades.map (·.makerId) = [1] ∧ b.cancel 2 = some (b₂, true) ∧
      b₂.submit 3 9 .buy 100 5 = some (b₃, res) ∧ b₁.cancel 2 = some (b₄, true) ∧ b₃.trades = b₁.trades ∧
      b₃.snapshot = b₄.snapshot ∧ b₃.observe = b₄.observe ∧
      ∀ further, (Machine.run step b₃ further).map (·.2) = (Machine.run step b₄ further).map (·.2) := by
  let o : OrderData := ⟨2, 7, .sell, 100, 10, 10, 2⟩
  let calls : List BookCall := [.submit 1 7 .sell 100 10, .submit 2 7 .sell 100 10]
  obtain ⟨b₀, b, evs, hr, hrun, h⟩ := cancel_submit_comm .cancelResting 4 calls
  obtain ⟨b₁, ev, res, hsubmit, hstep, h⟩ := h 3 9 .buy 100 5
  -- what the bid trades with, and what it leaves
  have hall : ((create .cancelResting 4).bind fun b₀ => (Machine.run eventStep b₀ calls).bind fun r =>
      (r.1.eventStep (.submit 3 9 .buy 100 5)).map fun q => (r.1.sides.find 2, q.1.trades.map (·.makerId),
        decide (q.2.trades = q.1.trades), q.2.after.find 2, (q.2.after.opposite .buy).head?.map (·.id))) =
      some (some o, [1], true, some o, some 1) := by decide +kernel
  rw [hr, Option.bind_some, hrun, Option.bind_some, hstep, Option.map_some, Option.some.injEq] at hall
  simp only [Prod.mk.injEq, decide_eq_true_eq] at hall
  obtain ⟨hfound, hmakers, htrades, hrests, hhead⟩ := hall
  have huntraded : ∀ t ∈ ev.trades, t.makerId ≠ o.id := by
    intro t ht he
    have hm : t.makerId ∈ [1] := hmakers ▸ htrades ▸ List.mem_map_of_mem ht
    exact absurd (he ▸ hm) (by decide)
  have hbehind : (ev.after.opposite .buy).head? ≠ some o := by
    intro he
    rw [he] at hhead
    cases hhead
  obtain ⟨b₂, b₃, b₄, hcancel, hthen, hafter, ht, hsnapshot, hobserve, hfurther⟩ :=
    h o (List.mem_of_find?_eq_some hfound) (by decide) (.of_rests huntraded hrests hbehind)
  exact ⟨b₀, b, evs, b₁, res, b₂, b₃, b₄, hr, hrun, hsubmit, hmakers, hcancel, hthen, hafter, ht.trans htrades,
    hsnapshot, hobserve, hfurther⟩

end Obe
