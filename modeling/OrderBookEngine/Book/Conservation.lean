/-
Quantity is conserved. A ledger follows one accepted order through a run: its trades as taker, its
trades as maker in every later call while it rests, and what a cancellation discards. At every
point the ledger and what still rests make up the submitted quantity.
-/
import OrderBookEngine.Book.Events

namespace Obe

/-! ## The ledger of an order -/

def asTaker (id : OrderId) (trades : List Trade) : Nat := volume (trades.filter (·.takerId = id))

def asMaker (id : OrderId) (trades : List Trade) : Nat := volume (trades.filter (·.makerId = id))

/-- What an event discards of the resting order `id`: all of it by a `cancel`, and all of it when a
`CancelResting` book removes it in front of an order of its own trader. -/
def Event.discards (stp : SelfTradePolicy) (id : OrderId) (ev : Event) : Nat :=
  match ev.before.find id, ev.call with
  | none, _ => 0
  | some o, .cancel id' => if id' = id then o.remaining.toNat else 0
  | some o, .submit _ trader _ _ _ =>
    if stp = .cancelResting ∧ o.trader = trader ∧ ev.after.find id = none then o.remaining.toNat else 0

/-- A submission of nothing, or under an id that rests. -/
def Event.refused (ev : Event) (id : OrderId) (quantity : Quantity) : Bool :=
  quantity = 0 || (ev.before.find id).isSome

/-- The taker could still trade with the best opposite order, but it is its own. -/
def Event.stpStopped (stp : SelfTradePolicy) (ev : Event) (taker : Taker) (quantity : Quantity) : Bool :=
  stp = .cancelAggressing && volume ev.trades < quantity.toNat &&
    (ev.after.opposite taker.side).head?.any fun o =>
      o.trader = taker.trader && crosses taker.side taker.limit o.price

/-- The status that belongs to a result. -/
def SubmitResult.statusOf (res : SubmitResult) (refused stopped : Bool) : SubmitStatus :=
  if refused then .rejected
  else if stopped then .cancelledBySelfTrade
  else if res.resting = 0 then .fullyFilled
  else if res.filled = 0 then .rested
  else .partiallyFilled

/-- The result of a submission tells what happened to its quantity. -/
structure SubmitResult.Accounts (res : SubmitResult) (stp : SelfTradePolicy) (ev : Event) (taker : Taker)
    (quantity : Quantity) : Prop where
  filled : res.filled.toNat = volume ev.trades
  tradeCount : res.tradeCount = ev.trades.length
  positive : ∀ t ∈ ev.trades, 0 < t.quantity
  /-- The taker's remainder never underflows. -/
  bounded : volume ev.trades ≤ quantity.toNat
  /-- No maker's remainder underflows. -/
  covered : ∀ t ∈ ev.trades, ∃ o ∈ ev.before.opposite taker.side, o.id = t.makerId ∧ t.quantity ≤ o.remaining
  sum : res.status ≠ .cancelledBySelfTrade → res.status ≠ .rejected →
    res.filled.toNat + res.resting.toNat = quantity.toNat
  dropped : res.status = .cancelledBySelfTrade → res.resting = 0
  rests : res.status ≠ .rejected →
    (ev.after.find taker.id).map (·.remaining) = if res.resting = 0 then none else some res.resting
  status : res.status = res.statusOf (ev.refused taker.id quantity) (ev.stpStopped stp taker quantity)

structure Ledger where
  taker : Nat
  maker : Nat
  discarded : Nat
  /-- The order has not left the book. -/
  resting : Bool

namespace Ledger

/-- The entry of the submission; a stopped taker drops what it did not fill. -/
def opened (id : OrderId) (quantity : Quantity) (res : SubmitResult) (ev : Event) : Ledger :=
  { taker := asTaker id ev.trades
    maker := 0
    discarded := if res.status = .cancelledBySelfTrade then quantity.toNat - res.filled.toNat else 0
    resting := (ev.after.find id).isSome }

/-- A later event; once the order has left the book its ledger is closed. -/
def record (stp : SelfTradePolicy) (id : OrderId) (l : Ledger) (ev : Event) : Ledger :=
  if l.resting then
    { l with
      maker := l.maker + asMaker id ev.trades
      discarded := l.discarded + ev.discards stp id
      resting := (ev.after.find id).isSome }
  else l

/-- What remains of an order that may rest. -/
def remainder (s : Sides) (id : OrderId) : Nat := ((s.find id).map (·.remaining.toNat)).getD 0

def balance (l : Ledger) (s : Sides) (id : OrderId) : Nat :=
  l.taker + l.maker + l.discarded + if l.resting then remainder s id else 0

end Ledger

/-! ## One walk -/

section Walk

variable {stp : SelfTradePolicy} {taker : Taker} {remaining : Quantity} {o : OrderData} {gone kept l : List OrderData}
  {r : Sweep}

theorem asMaker_append (id : OrderId) (ts us : List Trade) :
    asMaker id (ts ++ us) = asMaker id ts + asMaker id us := by
  unfold asMaker
  rw [List.filter_append, volume_append]

theorem asMaker_fills_of_notMem {id : OrderId} (h : id ∉ l.map (·.id)) : asMaker id (fills taker l) = 0 := by
  have hnil : (fills taker l).filter (·.makerId = id) = [] := by
    refine List.filter_eq_nil_iff.2 fun t ht => ?_
    obtain ⟨o, ho, rfl⟩ := List.mem_map.1 ht
    have : o.id ≠ id := fun he => h (he ▸ List.mem_map_of_mem ho)
    simp [Taker.trade, this]
  rw [asMaker, hnil]; rfl

theorem asMaker_trade_of_ne {id : OrderId} (h : o.id ≠ id) (qty : Quantity) : asMaker id [taker.trade o qty] = 0 := by
  simp [asMaker, Taker.trade, h, volume]

theorem asMaker_trade (o : OrderData) (qty : Quantity) : asMaker o.id [taker.trade o qty] = qty.toNat := by
  simp [asMaker, Taker.trade, volume]

theorem asMaker_fills_of_mem (hnd : (l.map (·.id)).Nodup) (h : o ∈ l) :
    asMaker o.id (fills taker l) = o.remaining.toNat := by
  obtain ⟨l₁, l₂, rfl⟩ := List.append_of_mem h
  rw [List.map_append, List.map_cons, List.nodup_middle, List.nodup_cons] at hnd
  have hsplit : fills taker (l₁ ++ o :: l₂) = fills taker l₁ ++ ([taker.trade o o.remaining] ++ fills taker l₂) := by
    simp [fills]
  rw [hsplit, asMaker_append, asMaker_append, asMaker_trade,
    asMaker_fills_of_notMem fun hm => hnd.1 (List.mem_append_left _ hm),
    asMaker_fills_of_notMem fun hm => hnd.1 (List.mem_append_right _ hm), Nat.zero_add, Nat.add_zero]

theorem makers_ids_subset {id : OrderId} (h : id ∈ (makers stp taker l).map (·.id)) : id ∈ l.map (·.id) := by
  obtain ⟨o, ho, rfl⟩ := List.mem_map.1 h
  exact List.mem_map_of_mem (List.mem_filter.1 ho).1

/-- An order that is gone was traded in full, or was the taker's own. -/
theorem Walked.of_gone (h : Walked stp taker remaining gone kept r) (hnd : ((gone ++ kept).map (·.id)).Nodup)
    (ho : o ∈ gone) : o.id ∉ r.queue.map (·.id) ∧
      asMaker o.id r.trades = if selfTrade stp taker o then 0 else o.remaining.toNat := by
  rw [List.map_append, List.nodup_append] at hnd
  have hkept : o.id ∉ kept.map (·.id) := fun hm => hnd.2.2 _ (List.mem_map_of_mem ho) _ hm rfl
  have hfills : asMaker o.id (fills taker (makers stp taker gone)) =
      if selfTrade stp taker o then 0 else o.remaining.toNat := by
    have hnd' : ((makers stp taker gone).map (·.id)).Nodup := (List.filter_sublist.map _).nodup hnd.1
    cases hs : selfTrade stp taker o with
    | true =>
      refine asMaker_fills_of_notMem fun hm => ?_
      obtain ⟨o', ho', hid⟩ := List.mem_map.1 hm
      obtain ⟨hg, hs'⟩ := List.mem_filter.1 ho'
      rw [List.inj_on_of_nodup_map hnd.1 hg ho hid, hs] at hs'
      cases hs'
    | false => exact asMaker_fills_of_mem hnd' (List.mem_filter.2 ⟨ho, by simp [hs]⟩)
  rcases h.left with ⟨h1, h2, -⟩ | ⟨o', l, t, rfl, -, -, -, -, -, rfl⟩
  · rw [h1, h2]; exact ⟨hkept, hfills⟩
  · rw [List.map_cons, List.mem_cons, not_or] at hkept
    constructor
    · rw [List.map_cons, List.mem_cons, not_or]; exact hkept
    · rw [asMaker_append, hfills, asMaker_trade_of_ne (Ne.symm hkept.1), Nat.add_zero]

/-- An order that is kept gave up exactly what it traded. -/
theorem Walked.of_kept (h : Walked stp taker remaining gone kept r) (hnd : ((gone ++ kept).map (·.id)).Nodup)
    (ho : o ∈ kept) : ∃ o' ∈ r.queue, o'.key = o.key ∧
      o.remaining.toNat = asMaker o.id r.trades + o'.remaining.toNat := by
  rw [List.map_append, List.nodup_append] at hnd
  have hfills : asMaker o.id (fills taker (makers stp taker gone)) = 0 :=
    asMaker_fills_of_notMem fun hm => hnd.2.2 _ (makers_ids_subset hm) _ (List.mem_map_of_mem ho) rfl
  rcases h.left with ⟨h1, h2, -⟩ | ⟨x, l, t, rfl, -, -, -, ht, -, rfl⟩
  · exact ⟨o, by rw [h1]; exact ho, rfl, by rw [h2, hfills, Nat.zero_add]⟩
  · have hnd' := hnd.2.1
    rw [List.map_cons, List.nodup_cons] at hnd'
    rcases List.mem_cons.1 ho with rfl | ho
    · refine ⟨o.reduce t, List.mem_cons_self .., rfl, ?_⟩
      have hle : t ≤ o.remaining := by grind
      have hsub : (o.reduce t).remaining.toNat = o.remaining.toNat - t.toNat := UInt64.toNat_sub_of_le _ _ hle
      have := UInt64.le_iff_toNat_le.1 hle
      rw [asMaker_append, hfills, asMaker_trade, hsub]
      omega
    · have hne : x.id ≠ o.id := fun he => hnd'.1 (he ▸ List.mem_map_of_mem ho)
      exact ⟨o, List.mem_cons_of_mem _ ho, rfl, by rw [asMaker_append, hfills, asMaker_trade_of_ne hne, Nat.zero_add]⟩

end Walk

namespace ListBook

variable {b : ListBook} {taker : Taker} {id : OrderId} {quantity : Quantity} {o : OrderData}

/-! ## One call, for an order that rests -/

theorem remainder_of_mem (hv : b.Valid) (ho : o ∈ b.resting) : Ledger.remainder b.sides o.id = o.remaining.toNat := by
  rw [Ledger.remainder, (find_eq_some hv.ids).2 ⟨ho, rfl⟩]; rfl

theorem remainder_of_notMem (h : id ∉ b.ids) : Ledger.remainder b.sides id = 0 := by
  rw [Ledger.remainder, find_eq_none.2 h]; rfl

/-- The trades of a walk are with the opposite side. -/
theorem walk_asMaker_of_notMem (b : ListBook) (taker : Taker) (quantity : Quantity)
    (h : id ∉ (b.opposite taker.side).map (·.id)) : asMaker id (b.walk taker quantity).trades = 0 := by
  obtain ⟨gone, kept, hq, hw⟩ := sweep_walked b.stp taker quantity (b.opposite taker.side)
  rw [hq, List.map_append, List.mem_append, not_or] at h
  have hfills : asMaker id (fills taker (makers b.stp taker gone)) = 0 :=
    asMaker_fills_of_notMem fun hm => h.1 (makers_ids_subset hm)
  unfold walk
  rcases hw.left with ⟨-, h2, -⟩ | ⟨x, l, t, rfl, -, -, -, -, -, h2⟩
  · rw [h2, hfills]
  · rw [h2]
    have hne : x.id ≠ id := fun he => h.2 (he ▸ List.mem_map_of_mem (List.mem_cons_self ..))
    show asMaker id (_ ++ [_]) = 0
    rw [asMaker_append, hfills, asMaker_trade_of_ne hne]

/-- What a walk does to one resting order. -/
theorem swept_account (hv : b.Valid) (ho : o ∈ b.resting) (taker : Taker) (quantity : Quantity) :
    (o.id ∉ (b.swept taker (b.walk taker quantity)).ids ∧
      asMaker o.id (b.walk taker quantity).trades =
        if b.stp = .cancelResting ∧ o.trader = taker.trader then 0 else o.remaining.toNat) ∨
    ∃ o' ∈ (b.swept taker (b.walk taker quantity)).resting, o'.key = o.key ∧
      o.remaining.toNat = asMaker o.id (b.walk taker quantity).trades + o'.remaining.toNat := by
  have hids := hv.sideIds taker.side
  rcases (mem_resting taker.side).1 ho with hown | hopp
  · refine .inr ⟨o, (mem_resting taker.side).2 (.inl (by rwa [swept_own])), rfl, ?_⟩
    rw [walk_asMaker_of_notMem b taker quantity fun hm => hids.2.2 _ (List.mem_map_of_mem hown) _ hm rfl,
      Nat.zero_add]
  · obtain ⟨gone, kept, hq, hw⟩ := sweep_walked b.stp taker quantity (b.opposite taker.side)
    have hnd : ((gone ++ kept).map (·.id)).Nodup := by rw [← hq]; exact hids.2.1
    rw [hq] at hopp
    rcases List.mem_append.1 hopp with hg | hk
    · obtain ⟨hout, hmk⟩ := hw.of_gone hnd hg
      refine .inl ⟨fun hm => ?_, ?_⟩
      · obtain ⟨x, hx, hid⟩ := List.mem_map.1 hm
        rcases (mem_resting taker.side).1 hx with hx | hx
        · rw [swept_own] at hx
          exact hids.2.2 _ (List.mem_map_of_mem hx) _ (List.mem_map_of_mem (hq ▸ List.mem_append_left _ hg)) hid
        · rw [swept_opposite] at hx
          exact hout (hid ▸ List.mem_map_of_mem hx)
      · rw [walk, hmk]
        cases hs : selfTrade b.stp taker o with
        | true =>
          have hp := hw.own o hg hs
          have htr : o.trader = taker.trader := by
            simp only [selfTrade, Bool.and_eq_true, decide_eq_true_eq] at hs
            exact hs.2
          rw [if_pos rfl, if_pos ⟨hp, htr⟩]
        | false =>
          have hno : ¬ (b.stp = .cancelResting ∧ o.trader = taker.trader) := by
            rintro ⟨hp, htr⟩
            simp [selfTrade, hp, htr] at hs
          rw [if_neg (by simp), if_neg hno]
    · obtain ⟨o', ho', hkey, hmk⟩ := hw.of_kept hnd hk
      exact .inr ⟨o', (mem_resting taker.side).2 (.inr (by rw [swept_opposite]; exact ho')), hkey, hmk⟩

/-- One `cancel` accounts for everything that remained of a resting order. -/
theorem cancel_account (hv : b.Valid) (ho : o ∈ b.resting) (id' : OrderId) :
    o.remaining.toNat = asMaker o.id (b.event (.cancel id')).trades + (b.event (.cancel id')).discards b.stp o.id +
      Ledger.remainder (b.event (.cancel id')).after o.id := by
  have hv' : (b.cancel id').1.Valid := hv.shrink (cancel_shrunk b id')
  have htrades : asMaker o.id (b.event (.cancel id')).trades = 0 := rfl
  have hdisc : (b.event (.cancel id')).discards b.stp o.id = if id' = o.id then o.remaining.toNat else 0 := by
    have hbefore : (b.event (.cancel id')).before.find o.id = some o := (find_eq_some hv.ids).2 ⟨ho, rfl⟩
    unfold Event.discards
    rw [hbefore]; rfl
  rw [htrades, hdisc, Nat.zero_add]
  show _ = _ + Ledger.remainder (b.cancel id').1.sides o.id
  by_cases hid : id' = o.id
  · have hout : o.id ∉ (b.cancel id').1.ids := by
      intro hm
      obtain ⟨x, hx, hxid⟩ := List.mem_map.1 hm
      exact (mem_cancel.1 hx).2 (hxid.trans hid.symm)
    rw [if_pos hid, remainder_of_notMem hout, Nat.add_zero]
  · rw [if_neg hid, remainder_of_mem hv' (mem_cancel.2 ⟨ho, Ne.symm hid⟩), Nat.zero_add]

/-- One `submit` accounts for everything that remained of a resting order. -/
theorem submit_account (hv : b.Valid) (ho : o ∈ b.resting) (id' : OrderId) (trader : TraderId) (side : Side)
    (price : Price) (quantity : Quantity) :
    o.remaining.toNat = asMaker o.id (b.event (.submit id' trader side price quantity)).trades +
      (b.event (.submit id' trader side price quantity)).discards b.stp o.id +
      Ledger.remainder (b.event (.submit id' trader side price quantity)).after o.id := by
  have hv' : (b.submit ⟨id', trader, side, price⟩ quantity).1.Valid := hv.submit _ _
  have hdisc : (b.event (.submit id' trader side price quantity)).discards b.stp o.id =
      if b.stp = .cancelResting ∧ o.trader = trader ∧
        (b.submit ⟨id', trader, side, price⟩ quantity).1.sides.find o.id = none then o.remaining.toNat else 0 := by
    have hbefore : (b.event (.submit id' trader side price quantity)).before.find o.id = some o :=
      (find_eq_some hv.ids).2 ⟨ho, rfl⟩
    unfold Event.discards
    rw [hbefore]; rfl
  rw [hdisc]
  show _ = asMaker o.id (b.submit ⟨id', trader, side, price⟩ quantity).1.trades + _ +
    Ledger.remainder (b.submit ⟨id', trader, side, price⟩ quantity).1.sides o.id
  by_cases hq : quantity = 0 ∨ id' ∈ b.ids
  · -- refused: nothing changes
    have he : b.submit ⟨id', trader, side, price⟩ quantity = _ := submit_refused hq
    have hfind : (b.submit ⟨id', trader, side, price⟩ quantity).1.sides.find o.id ≠ none := by
      rw [he]; exact fun hn => find_eq_none.1 hn (List.mem_map_of_mem ho)
    rw [if_neg fun hc => hfind hc.2.2, he]
    show _ = 0 + 0 + Ledger.remainder b.sides o.id
    rw [remainder_of_mem hv ho, Nat.zero_add]
  · obtain ⟨ht, hkeep, hnew⟩ := @submit_accepted b ⟨id', trader, side, price⟩ quantity hq
    have hne : o.id ≠ id' := fun he => hq (.inr (he ▸ List.mem_map_of_mem ho))
    rw [ht]
    rcases swept_account hv ho ⟨id', trader, side, price⟩ quantity with ⟨hout, hmk⟩ | ⟨o', ho', hkey, hmk⟩
    · -- the order has left the book
      have hgone : o.id ∉ (b.submit ⟨id', trader, side, price⟩ quantity).1.ids := by
        intro hm
        obtain ⟨x, hx, hxid⟩ := List.mem_map.1 hm
        rcases hnew x hx with hx | hx
        · exact hne (hxid ▸ hx)
        · exact hout (hxid ▸ List.mem_map_of_mem hx)
      rw [remainder_of_notMem hgone, hmk, find_eq_none.2 hgone]
      by_cases hc : b.stp = .cancelResting ∧ o.trader = trader
      · rw [if_pos hc, if_pos ⟨hc.1, hc.2, rfl⟩, Nat.zero_add, Nat.add_zero]
      · rw [if_neg hc, if_neg fun h => hc ⟨h.1, h.2.1⟩, Nat.add_zero]
    · -- the order still rests
      have hid : o'.id = o.id := id_of_key hkey
      have hrem := remainder_of_mem hv' (hkeep o' ho')
      rw [hid] at hrem
      have hfind : (b.submit ⟨id', trader, side, price⟩ quantity).1.sides.find o.id ≠ none :=
        fun hn => find_eq_none.1 hn (hid ▸ List.mem_map_of_mem (hkeep o' ho'))
      rw [if_neg fun hc => hfind hc.2.2, hrem, Nat.add_zero]
      exact hmk

theorem event_account (hv : b.Valid) (ho : o ∈ b.resting) (c : BookCall) :
    o.remaining.toNat = asMaker o.id (b.event c).trades + (b.event c).discards b.stp o.id +
      Ledger.remainder (b.event c).after o.id := by
  cases c with
  | cancel id' => exact cancel_account hv ho id'
  | submit id' trader side price quantity => exact submit_account hv ho id' trader side price quantity

/-! ## The submission -/

section Submission

/-- The walk stops exactly in front of an own order that the taker could still trade with. -/
theorem walk_stopped_iff (hv : b.Valid) (taker : Taker) (quantity : Quantity) :
    (b.walk taker quantity).stopped = true ↔ b.stp = .cancelAggressing ∧ (b.walk taker quantity).remaining ≠ 0 ∧
      ∃ o, (b.walk taker quantity).queue.head? = some o ∧ o.trader = taker.trader ∧
        crosses taker.side taker.limit o.price = true := by
  constructor
  · unfold walk
    generalize b.opposite taker.side = queue
    induction queue generalizing quantity with
    | nil => intro h; cases h
    | cons o queue ih =>
      rcases sweep_cases b.stp taker quantity o queue with
        ⟨-, h⟩ | ⟨-, -, -, h⟩ | ⟨hd, hs, hp, h⟩ | ⟨-, -, -, h⟩ | ⟨-, -, -, h⟩
      · rw [h]; intro h; cases h
      · rw [h]; exact ih quantity
      · obtain ⟨h0, hc⟩ := not_done_iff.1 hd
        simp only [selfTrade, Bool.and_eq_true, decide_eq_true_eq] at hs
        rw [h]
        refine fun _ => ⟨?_, h0, o, rfl, hs.2, hc⟩
        cases hstp : b.stp with
        | none => exact absurd hstp hs.1
        | cancelResting => exact absurd hstp hp
        | cancelAggressing => rfl
      · rw [h]; exact ih _
      · rw [h]; intro h; cases h
  · rintro ⟨-, hrem, o, ho, -, hc⟩
    cases hs : (b.walk taker quantity).stopped with
    | true => rfl
    | false =>
      have := sweep_rests (hv.crosses_mono taker.side taker.limit) hrem hs o (List.mem_of_head? ho)
      rw [hc] at this; cases this

theorem asTaker_walk (b : ListBook) (taker : Taker) (quantity : Quantity) :
    asTaker taker.id (b.walk taker quantity).trades = volume (b.walk taker quantity).trades := by
  obtain ⟨gone, kept, -, hw⟩ := sweep_walked b.stp taker quantity (b.opposite taker.side)
  have hall : ∀ t ∈ (b.walk taker quantity).trades, t.takerId = taker.id := by
    intro t ht
    unfold walk at ht
    rcases hw.left with ⟨-, h2, -⟩ | ⟨o, l, q, -, -, -, -, -, -, h2⟩
    · rw [h2] at ht
      obtain ⟨o, -, rfl⟩ := List.mem_map.1 ht
      rfl
    · rw [h2] at ht
      rcases List.mem_append.1 ht with ht | ht
      · obtain ⟨o, -, rfl⟩ := List.mem_map.1 ht
        rfl
      · obtain rfl : t = taker.trade o q := by simpa using ht
        rfl
  unfold asTaker
  rw [List.filter_eq_self.2 fun t ht => by simpa using hall t ht]

/-- The remainder never exceeds the quantity: what a walk subtracts is there. -/
theorem walk_volume (b : ListBook) (taker : Taker) (quantity : Quantity) :
    (b.walk taker quantity).remaining ≤ quantity ∧
      quantity.toNat = volume (b.walk taker quantity).trades + (b.walk taker quantity).remaining.toNat ∧
      (quantity - (b.walk taker quantity).remaining).toNat = volume (b.walk taker quantity).trades := by
  obtain ⟨gone, kept, -, hw⟩ := sweep_walked b.stp taker quantity (b.opposite taker.side)
  have hvol : quantity.toNat = volume (b.walk taker quantity).trades + (b.walk taker quantity).remaining.toNat :=
    hw.volume
  have hle : (b.walk taker quantity).remaining ≤ quantity := by
    rw [UInt64.le_iff_toNat_le]; omega
  refine ⟨hle, hvol, ?_⟩
  rw [UInt64.toNat_sub_of_le _ _ hle]
  omega

theorem submit_opposite (hq : ¬ (quantity = 0 ∨ taker.id ∈ b.ids)) :
    (b.submit taker quantity).1.opposite taker.side = (b.walk taker quantity).queue := by
  rcases submit_cases b taker quantity with ⟨h, -⟩ | ⟨-, ⟨-, he⟩ | ⟨-, -, he⟩ | ⟨-, -, he⟩⟩
  · exact absurd h hq
  · rw [he, swept_opposite]
  · rw [he, rest_opposite, swept_opposite]
  · rw [he, swept_opposite]

/-- The event of a submission. -/
abbrev submitEvent (b : ListBook) (taker : Taker) (quantity : Quantity) : Event :=
  b.event (.submit taker.id taker.trader taker.side taker.limit quantity)

theorem refused_eq (b : ListBook) (taker : Taker) (quantity : Quantity) :
    (b.submitEvent taker quantity).refused taker.id quantity = decide (quantity = 0 ∨ taker.id ∈ b.ids) := by
  have hfind : (b.sides.find taker.id).isSome = decide (taker.id ∈ b.ids) := by
    rw [Bool.eq_iff_iff, Option.isSome_iff_ne_none, decide_eq_true_eq, ne_eq, find_eq_none, not_not]
  show (decide (quantity = 0) || (b.sides.find taker.id).isSome) = _
  rw [hfind]
  exact (Bool.decide_or _ _).symm

theorem stpStopped_eq (hv : b.Valid) (hq : ¬ (quantity = 0 ∨ taker.id ∈ b.ids)) :
    (b.submitEvent taker quantity).stpStopped b.stp taker quantity = (b.walk taker quantity).stopped := by
  have htrades : (b.submitEvent taker quantity).trades = (b.walk taker quantity).trades := (submit_accepted hq).1
  have hopp : (b.submitEvent taker quantity).after.opposite taker.side = (b.walk taker quantity).queue :=
    submit_opposite hq
  obtain ⟨-, hvol, -⟩ := walk_volume b taker quantity
  have hlt : volume (b.walk taker quantity).trades < quantity.toNat ↔ (b.walk taker quantity).remaining ≠ 0 := by
    rw [ne_eq, ← UInt64.toNat_inj, UInt64.toNat_zero]
    omega
  rw [Bool.eq_iff_iff, walk_stopped_iff hv, Event.stpStopped, htrades, hopp]
  simp only [Bool.and_eq_true, decide_eq_true_eq, hlt, Option.any_eq_true, and_assoc]

theorem refused_accounts (hq : quantity = 0 ∨ taker.id ∈ b.ids) :
    (b.submit taker quantity).2.Accounts b.stp (b.submitEvent taker quantity) taker quantity := by
  have he := submit_refused hq
  have hev : (b.submitEvent taker quantity).trades = [] := by
    show (b.submit taker quantity).1.trades = []
    rw [he]
  have href : (b.submitEvent taker quantity).refused taker.id quantity = true := by
    rw [refused_eq]; exact decide_eq_true hq
  rw [he]
  constructor
  case sum => exact fun _ h => absurd rfl h
  case dropped => nofun
  case rests => exact fun h => absurd rfl h
  case status =>
    rw [href]
    rfl
  -- there are no trades
  all_goals
    rw [hev]
    simp [volume, SubmitResult.new]

/-- What an accepted submission traded, with whom. -/
theorem accepted_trades (hv : b.Valid) (hq : ¬ (quantity = 0 ∨ taker.id ∈ b.ids)) :
    volume (b.submitEvent taker quantity).trades ≤ quantity.toNat ∧
      ∀ t ∈ (b.submitEvent taker quantity).trades, 0 < t.quantity ∧
        ∃ o ∈ (b.submitEvent taker quantity).before.opposite taker.side, o.id = t.makerId ∧
          t.quantity ≤ o.remaining := by
  have htrades : (b.submitEvent taker quantity).trades = (b.walk taker quantity).trades := (submit_accepted hq).1
  obtain ⟨gone, kept, hside, hw⟩ := sweep_walked b.stp taker quantity (b.opposite taker.side)
  obtain ⟨-, hvol, -⟩ := walk_volume b taker quantity
  have hpos : ∀ o ∈ gone ++ kept, 0 < o.remaining := fun o ho =>
    hv.positive o ((mem_resting taker.side).2 (.inr (hside ▸ ho)))
  rw [htrades]
  refine ⟨by omega, fun t ht => ?_⟩
  obtain ⟨o, ho, het, -, -, h0, hle⟩ := hw.trade hpos ht
  exact ⟨h0, o, by rw [← hside] at ho; exact ho, by rw [het]; rfl, hle⟩

/-- The result of every submission accounts for its quantity. -/
theorem submit_accounts (hv : b.Valid) (taker : Taker) (quantity : Quantity) :
    (b.submit taker quantity).2.Accounts b.stp (b.submitEvent taker quantity) taker quantity := by
  by_cases hq : quantity = 0 ∨ taker.id ∈ b.ids
  · exact refused_accounts hq
  have href : (b.submitEvent taker quantity).refused taker.id quantity = false := by
    rw [refused_eq]; exact decide_eq_false hq
  have hstop := stpStopped_eq hv hq
  have htrades : (b.submitEvent taker quantity).trades = (b.walk taker quantity).trades := (submit_accepted hq).1
  obtain ⟨-, hvol, hsub⟩ := walk_volume b taker quantity
  obtain ⟨hbound, htrade⟩ := accepted_trades hv hq
  have hout : taker.id ∉ (b.swept taker (b.walk taker quantity)).ids := fun hm => hq (.inr (swept_ids hm))
  have hafter : (b.submitEvent taker quantity).after = (b.submit taker quantity).1.sides := rfl
  have hv' := hv.submit taker quantity
  rcases submit_cases b taker quantity with ⟨h, -⟩ | ⟨-, ⟨hs, he⟩ | ⟨hs, hr, he⟩ | ⟨hs, hr, he⟩⟩
  · exact absurd h hq
  · rw [hs] at hstop
    rw [he] at hafter ⊢
    constructor
    case filled =>
      rw [htrades]
      exact hsub
    case tradeCount => rw [htrades]
    case positive => exact fun t ht => (htrade t ht).1
    case bounded => exact hbound
    case covered => exact fun t ht => (htrade t ht).2
    case sum => exact fun h => absurd rfl h
    case dropped => exact fun _ => rfl
    case rests =>
      intro _
      rw [hafter, find_eq_none.2 hout]
      rfl
    case status =>
      rw [href, hstop]
      rfl
  · rw [hs] at hstop
    have hr0 : (b.walk taker quantity).remaining ≠ 0 := UInt64.pos_iff_ne_zero.1 hr
    rw [he] at hafter hv' ⊢
    constructor
    case filled =>
      rw [htrades]
      exact hsub
    case tradeCount => rw [htrades]
    case positive => exact fun t ht => (htrade t ht).1
    case bounded => exact hbound
    case covered => exact fun t ht => (htrade t ht).2
    case sum =>
      intro _ _
      show (quantity - _).toNat + _ = _
      rw [hsub]; exact hvol.symm
    case dropped =>
      dsimp only
      split <;> intro h <;> cases h
    case rests =>
      intro _
      have hperm := rest_resting_perm (b.swept taker (b.walk taker quantity)) taker (b.walk taker quantity).remaining
      have hfind := (find_eq_some hv'.ids).2 ⟨hperm.mem_iff.2 (List.mem_cons_self ..), rfl⟩
      simp only [hafter, hr0, if_false]
      exact congrArg (Option.map (·.remaining)) hfind
    case status =>
      rw [href, hstop]
      unfold SubmitResult.statusOf
      simp only [Bool.false_eq_true, if_false, hr0]
      split <;> split <;> grind
  · rw [hs] at hstop
    have hq0 : quantity.toNat = volume (b.walk taker quantity).trades := by rw [hvol, hr]; rfl
    rw [he] at hafter ⊢
    constructor
    case filled =>
      rw [htrades]
      exact hq0
    case tradeCount => rw [htrades]
    case positive => exact fun t ht => (htrade t ht).1
    case bounded => exact hbound
    case covered => exact fun t ht => (htrade t ht).2
    case sum => exact fun _ _ => rfl
    case dropped => exact fun _ => rfl
    case rests =>
      intro _
      rw [hafter, find_eq_none.2 hout]
      rfl
    case status =>
      rw [href, hstop]
      rfl

end Submission

/-! ## The ledger of a run -/

section Run

variable {l : Ledger}

theorem remainder_of_find_none {s : Sides} (h : s.find id = none) : Ledger.remainder s id = 0 := by
  rw [Ledger.remainder, h]; rfl

theorem remainder_of_isSome (s : Sides) (id : OrderId) :
    (if (s.find id).isSome then Ledger.remainder s id else 0) = Ledger.remainder s id := by
  cases h : s.find id with
  | none => rw [remainder_of_find_none h]; rfl
  | some o => rfl

/-- The ledger balances, and an order it holds open rests. -/
def Balanced (b : ListBook) (id : OrderId) (quantity : Quantity) (l : Ledger) : Prop :=
  l.balance b.sides id = quantity.toNat ∧ (l.resting = true → id ∈ b.ids)

theorem opened_balanced (hv : b.Valid) (taker : Taker) (quantity : Quantity)
    (hacc : (b.submit taker quantity).2.status ≠ .rejected) :
    Balanced (b.submit taker quantity).1 taker.id quantity
      (Ledger.opened taker.id quantity (b.submit taker quantity).2 (b.submitEvent taker quantity)) := by
  have ha := submit_accounts hv taker quantity
  have hq : ¬ (quantity = 0 ∨ taker.id ∈ b.ids) := fun hq => hacc (by rw [submit_refused hq])
  have htaker : asTaker taker.id (b.submitEvent taker quantity).trades =
    volume (b.submitEvent taker quantity).trades := by
    have htrades : (b.submitEvent taker quantity).trades = (b.walk taker quantity).trades := (submit_accepted hq).1
    rw [htrades]; exact asTaker_walk b taker quantity
  have hrem : Ledger.remainder (b.submitEvent taker quantity).after taker.id =
    (b.submit taker quantity).2.resting.toNat := by
    have hr := congrArg (Option.map UInt64.toNat) (ha.rests hacc)
    rw [Option.map_map] at hr
    unfold Ledger.remainder
    show (Option.map (UInt64.toNat ∘ OrderData.remaining) _).getD 0 = _
    rw [hr]
    split
    · rename_i h0; rw [h0]; rfl
    · rfl
  refine ⟨?_, fun h => ?_⟩
  · show asTaker taker.id (b.submitEvent taker quantity).trades + 0 + _ +
      (if ((b.submitEvent taker quantity).after.find taker.id).isSome then
        Ledger.remainder (b.submitEvent taker quantity).after taker.id else 0) = _
    rw [remainder_of_isSome, hrem, htaker]
    have hfilled := ha.filled
    have hbound := ha.bounded
    by_cases hs : (b.submit taker quantity).2.status = .cancelledBySelfTrade
    · have h0 := ha.dropped hs
      simp only [Ledger.opened, if_pos hs, h0, UInt64.toNat_zero]
      omega
    · have := ha.sum hs hacc
      simp only [Ledger.opened, if_neg hs]
      omega
  · have hsome : ((b.submit taker quantity).1.sides.find taker.id).isSome = true := h
    by_contra hid
    rw [find_eq_none.2 hid] at hsome
    cases hsome

theorem record_balanced (hv : b.Valid) (h : b.Balanced id quantity l) (c : BookCall) :
    (b.call c).1.Balanced id quantity (Ledger.record b.stp id l (b.event c)) := by
  obtain ⟨hbal, hin⟩ := h
  cases hl : l.resting with
  | false =>
    unfold Ledger.record Balanced
    rw [if_neg (by simp [hl])]
    unfold Ledger.balance at hbal ⊢
    rw [hl] at hbal ⊢
    exact ⟨hbal, fun h => by cases h⟩
  | true =>
    obtain ⟨o, ho, rfl⟩ := List.mem_map.1 (hin hl)
    have hacc := event_account hv ho c
    have hrem := remainder_of_mem hv ho
    unfold Ledger.record
    rw [if_pos hl]
    refine ⟨?_, fun hsome => ?_⟩
    · unfold Ledger.balance at hbal ⊢
      rw [if_pos hl, hrem] at hbal
      have hif : (if ((b.event c).after.find o.id).isSome then Ledger.remainder (b.call c).1.sides o.id else 0) =
          Ledger.remainder (b.event c).after o.id := remainder_of_isSome _ _
      dsimp only
      rw [hif]
      omega
    · by_contra hid
      have hnone : (b.event c).after.find o.id = none := find_eq_none.2 hid
      simp only [hnone] at hsome
      cases hsome

/-- The ledger of an order balances after every later call. -/
theorem run_balanced (hv : b.Valid) (h : b.Balanced id quantity l) (calls : List BookCall) :
    (Machine.runT eventStep b calls).1.Balanced id quantity
      ((Machine.runT eventStep b calls).2.foldl (Ledger.record b.stp id) l) := by
  induction calls generalizing b l with
  | nil => exact h
  | cons c calls ih =>
    have := ih (hv.step c) (record_balanced hv h c)
    rw [show (b.step c).1 = (b.call c).1 from rfl, call_stp] at this
    exact this

end Run

end ListBook

/-! ## Conservation over whole runs -/

/-- **Quantity is conserved.** In every run from a fresh book each submission's result accounts for
its quantity, and for every accepted order what it traded as taker and as maker, what was discarded
of it and what still rests at the end are the quantity submitted. What `match` and `fill` subtract
from an order is never more than there is; the totals of the levels, from which `on_fill` and `unlink`
subtract, are those of `Book/Depth`. -/
theorem OrderBook.run_conserves (stp : SelfTradePolicy) (poolCapacity : UInt64) (calls : List BookCall) :
    ∃ b₀ b evs, create stp poolCapacity = some b₀ ∧ Machine.run eventStep b₀ calls = some (b, evs) ∧
      (∀ pre ev post, evs = pre ++ ev :: post → ∀ id trader side price quantity,
        ev.call = .submit id trader side price quantity → ∃ res, ev.ret = .submitted res ∧
          res.Accounts stp ev ⟨id, trader, side, price⟩ quantity ∧
          (res.status ≠ .rejected →
            (post.foldl (Ledger.record stp id) (Ledger.opened id quantity res ev)).balance b.sides id =
              quantity.toNat)) ∧
      (∀ remaining maker, tradedWith remaining maker ≤ remaining ∧ tradedWith remaining maker ≤ maker.remaining) ∧
      (∀ (o : Order) (qty : Quantity), (o.fill qty).2 ≤ o.remaining) := by
  obtain ⟨b₀, b, hr, hrun, hsides⟩ := run_events stp poolCapacity calls
  refine ⟨b₀, b, _, hr, hrun, fun pre ev post hsplit id trader side price quantity hcall => ?_, tradedWith_le,
    fun o qty => (o.fill_le qty).1⟩
  obtain ⟨before, c, later, rfl, rfl, rfl, rfl⟩ := Machine.runT_split hsplit
  have hv := ListBook.eventRun_valid (ListBook.create_valid stp) before
  have hstp : (Machine.runT ListBook.eventStep (ListBook.create stp) before).1.stp = stp :=
    ListBook.eventRun_stp (.create stp) before
  have hend : (Machine.runT ListBook.eventStep (ListBook.create stp) (before ++ c :: later)).1 =
      (Machine.runT ListBook.eventStep
        (ListBook.eventStep (Machine.runT ListBook.eventStep (ListBook.create stp) before).1 c).1 later).1 := by
    rw [Machine.runT_append]; rfl
  rw [hsides, hend]
  generalize (Machine.runT ListBook.eventStep (ListBook.create stp) before).1 = r at hv hstp
  subst hstp
  obtain rfl : c = .submit id trader side price quantity := hcall
  refine ⟨(r.submit ⟨id, trader, side, price⟩ quantity).2, rfl, ListBook.submit_accounts hv _ _, fun hacc => ?_⟩
  have hrun := ListBook.run_balanced (hv.submit ⟨id, trader, side, price⟩ quantity)
    (ListBook.opened_balanced hv ⟨id, trader, side, price⟩ quantity hacc) later
  have hkeep : (r.submit ⟨id, trader, side, price⟩ quantity).1.stp = r.stp :=
    ListBook.call_stp r (.submit id trader side price quantity)
  rw [hkeep] at hrun
  exact hrun.1

end Obe
