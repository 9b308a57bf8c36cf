/-
`Order::quantity()`, the "original size". Every resting order goes back to one submission of the
run. The order object is built when the remainder rests, so its size is the submitted quantity less
what the taker traded: the submitted quantity itself exactly when the taker traded with nobody.
-/
import OrderBookEngine.Book.Conservation
import Mathlib.Algebra.Order.BigOperators.Group.List
import Mathlib.Algebra.Order.Group.Nat

namespace Obe

/-- The event is the accepted submission of an order that has rested ever since. -/
structure Event.Submits (ev : Event) (taker : Taker) (quantity : Quantity) (res : SubmitResult) (later : List Event) :
    Prop where
  call : ev.call = .submit taker.id taker.trader taker.side taker.limit quantity
  ret : ev.ret = .submitted res
  accepted : res.status ≠ .rejected
  rests : ∀ e ∈ ev :: later, (e.after.find taker.id).isSome = true

/-- Among the opposite orders within the taker's limit there is none it trades with. -/
def Event.Unmatched (ev : Event) (stp : SelfTradePolicy) (taker : Taker) : Prop :=
  ∀ x ∈ ev.before.opposite taker.side, crosses taker.side taker.limit x.price = true → selfTrade stp taker x = true

/-- What was traded under an order, as taker and as maker. -/
def Ledger.traded (l : Ledger) : Nat := l.taker + l.maker

/-- The recorded size is the submitted one, and less the remainder it is what was traded. -/
def OrderData.SizedBy (o : OrderData) (quantity : Quantity) (l : Ledger) : Prop :=
  o.quantity = quantity ∧ (o.quantity - o.remaining).toNat = l.traded

namespace ListBook

variable {b : ListBook} {taker : Taker} {quantity : Quantity} {o o' : OrderData} {id : OrderId} {l : Ledger}

/-! ## One call -/

/-- A call changes nothing of an order that stays but its remainder. -/
theorem call_key (hv : b.Valid) (ho : o ∈ b.resting) (c : BookCall) (ho' : o' ∈ (b.call c).1.resting)
    (hid : o'.id = o.id) : o'.key = o.key := by
  have hsame : ∀ x ∈ b.resting, x.id = o.id → x = o := fun x hx he => List.inj_on_of_nodup_map hv.ids hx ho he
  cases c with
  | cancel id => rw [hsame o' (mem_cancel.1 ho').1 hid]
  | submit id trader side price quantity =>
    change o' ∈ (b.submit ⟨id, trader, side, price⟩ quantity).1.resting at ho'
    by_cases hq : quantity = 0 ∨ id ∈ b.ids
    · rw [@submit_refused b ⟨id, trader, side, price⟩ quantity hq] at ho'
      rw [hsame o' ho' hid]
    · obtain ⟨-, -, hnew⟩ := @submit_accepted b ⟨id, trader, side, price⟩ quantity hq
      rcases hnew o' ho' with he | hx
      · have he' : o.id = id := hid.symm.trans he
        exact absurd (.inr (he' ▸ List.mem_map_of_mem (f := (·.id)) ho)) hq
      · rcases (mem_resting side).1 hx with hx | hx
        · rw [swept_own b ⟨id, trader, side, price⟩] at hx
          rw [hsame o' ((mem_resting side).2 (.inl hx)) hid]
        · rw [swept_opposite b ⟨id, trader, side, price⟩] at hx
          obtain ⟨x, hopp, t, rfl⟩ := sweep_mem hx
          rw [← hsame x ((mem_resting side).2 (.inr hopp)) hid]
          rfl

/-- A submission that rests ended its walk with a remainder. -/
theorem rested_of_mem (hid : taker.id ∉ b.ids) (h : taker.id ∈ (b.submit taker quantity).1.ids) :
    quantity ≠ 0 ∧ (b.walk taker quantity).stopped = false ∧ 0 < (b.walk taker quantity).remaining ∧
      (b.submit taker quantity).1 =
        (b.swept taker (b.walk taker quantity)).rest taker (b.walk taker quantity).remaining ∧
      (b.submit taker quantity).2.filled = quantity - (b.walk taker quantity).remaining := by
  rcases submit_cases b taker quantity with ⟨-, he⟩ | ⟨⟨hq, -⟩, ⟨-, he⟩ | ⟨hs, hr, he⟩ | ⟨-, -, he⟩⟩
  · rw [he] at h
    exact absurd h hid
  · rw [he] at h
    exact absurd (swept_ids h) hid
  · rw [he]
    exact ⟨hq, hs, hr, rfl, rfl⟩
  · rw [he] at h
    exact absurd (swept_ids h) hid

/-- The order that rests is as large as the remainder. -/
theorem rested_quantity (hid : taker.id ∉ b.ids) (ho : o ∈ (b.submit taker quantity).1.resting)
    (he : o.id = taker.id) :
    o.quantity = (b.walk taker quantity).remaining := by
  have hmem : taker.id ∈ (b.submit taker quantity).1.ids := he ▸ List.mem_map_of_mem (f := (·.id)) ho
  obtain ⟨-, -, -, hb, -⟩ := rested_of_mem hid hmem
  rw [hb] at ho
  rcases List.mem_cons.1 ((rest_resting_perm _ _ _).mem_iff.1 ho) with rfl | ho
  · rfl
  · exact absurd (swept_ids (List.mem_map.2 ⟨o, ho, he⟩)) hid

/-- A submission that rests has traded nothing exactly when no opposite order was there to trade with. -/
theorem volume_zero_iff (hv : b.Valid) (hid : taker.id ∉ b.ids) (h : taker.id ∈ (b.submit taker quantity).1.ids) :
    volume (b.walk taker quantity).trades = 0 ↔
      ∀ x ∈ b.opposite taker.side, crosses taker.side taker.limit x.price = true → selfTrade b.stp taker x = true := by
  obtain ⟨-, hs, hr, -⟩ := rested_of_mem hid h
  have hr0 := UInt64.pos_iff_ne_zero.1 hr
  obtain ⟨gone, kept, hq, hw⟩ := sweep_walked b.stp taker quantity (b.opposite taker.side)
  have hkept := sweep_rests (hv.crosses_mono taker.side taker.limit) hr0 hs
  rcases hw.left with ⟨hqueue, htrades, -⟩ | ⟨x, l, t, -, -, -, -, -, -, he⟩
  · rw [hqueue] at hkept
    have hvol : volume (b.walk taker quantity).trades = openQuantity (makers b.stp taker gone) := by
      unfold walk
      rw [htrades, volume_fills]
    have hpos : ∀ x ∈ gone, 0 < x.remaining := fun x hx =>
      hv.positive x ((mem_resting taker.side).2 (.inr (hq ▸ List.mem_append_left _ hx)))
    rw [hvol, hq]
    constructor
    · intro hzero x hx hc
      rcases List.mem_append.1 hx with hx | hx
      · by_contra hno
        have hmem : x ∈ makers b.stp taker gone := List.mem_filter.2 ⟨hx, by simpa using hno⟩
        have hle : x.remaining.toNat ≤ openQuantity (makers b.stp taker gone) :=
          List.le_sum_of_mem (List.mem_map_of_mem (f := fun o : OrderData => o.remaining.toNat) hmem)
        have hx0 : 0 < x.remaining.toNat := UInt64.lt_iff_toNat_lt.1 (hpos x hx)
        omega
      · rw [hkept x hx] at hc
        cases hc
    · intro hall
      have hnil : makers b.stp taker gone = [] := by
        refine List.filter_eq_nil_iff.2 fun x hx => ?_
        simpa using hall x (List.mem_append_left _ hx) (hw.crossed x hx)
      rw [hnil]
      rfl
  · -- a taker that is used up by its last maker leaves nothing to rest
    unfold walk at hr0
    rw [he] at hr0
    exact absurd rfl hr0

theorem isSome_find_iff : (b.sides.find id).isSome = true ↔ id ∈ b.ids := by
  rw [Option.isSome_iff_ne_none, ne_eq, find_eq_none, not_not]

/-- Only a submission brings an id into the book. -/
theorem call_new (hid : id ∉ b.ids) {c : BookCall} (h : id ∈ (b.call c).1.ids) :
    ∃ taker quantity, taker.id = id ∧ c = .submit taker.id taker.trader taker.side taker.limit quantity ∧
      (b.submit taker quantity).2.status ≠ .rejected := by
  cases c with
  | cancel i =>
    obtain ⟨x, hx, rfl⟩ := List.mem_map.1 h
    exact absurd (List.mem_map_of_mem (mem_cancel.1 hx).1) hid
  | submit i trader side price quantity =>
    change id ∈ (b.submit ⟨i, trader, side, price⟩ quantity).1.ids at h
    rcases submit_cases b ⟨i, trader, side, price⟩ quantity with ⟨-, he⟩ | ⟨-, ⟨-, he⟩ | ⟨-, -, he⟩ | ⟨-, -, he⟩⟩
    · rw [he] at h
      exact absurd h hid
    · rw [he] at h
      exact absurd (swept_ids h) hid
    · refine ⟨⟨i, trader, side, price⟩, quantity, ?_, rfl, ?_⟩
      · rw [he] at h
        obtain ⟨x, hx, rfl⟩ := List.mem_map.1 h
        rcases List.mem_cons.1 ((rest_resting_perm _ _ _).mem_iff.1 hx) with rfl | hx
        · rfl
        · exact absurd (swept_ids (List.mem_map_of_mem hx)) hid
      · rw [he]
        dsimp only
        split <;> simp
    · rw [he] at h
      exact absurd (swept_ids h) hid

/-! ## The submission of an order -/

/-- An order at the end of a run has rested from its start, or from a submission in it. -/
theorem run_origin (b : ListBook) (calls : List BookCall) (h : id ∈ (Machine.runT eventStep b calls).1.ids) :
    (id ∈ b.ids ∧ ∀ e ∈ (Machine.runT eventStep b calls).2, (e.after.find id).isSome = true) ∨
    ∃ pre ev post taker quantity res, (Machine.runT eventStep b calls).2 = pre ++ ev :: post ∧ taker.id = id ∧
      ev.Submits taker quantity res post := by
  induction calls generalizing b with
  | nil => exact .inl ⟨h, nofun⟩
  | cons c calls ih =>
    rcases ih (b.call c).1 h with ⟨hin, hall⟩ | ⟨pre, ev, post, taker, quantity, res, hsplit, hid, hsub⟩
    · have hrest : ∀ e ∈ b.event c :: (Machine.runT eventStep (b.call c).1 calls).2,
          (e.after.find id).isSome = true := by
        intro e he
        rcases List.mem_cons.1 he with rfl | he
        · exact isSome_find_iff.2 hin
        · exact hall e he
      by_cases hb : id ∈ b.ids
      · exact .inl ⟨hb, hrest⟩
      · obtain ⟨taker, quantity, rfl, rfl, hacc⟩ := call_new hb hin
        exact .inr ⟨[], _, _, taker, quantity, _, rfl, rfl, rfl, rfl, hacc, hrest⟩
    · exact .inr ⟨b.event c :: pre, ev, post, taker, quantity, res, congrArg (b.event c :: ·) hsplit, hid, hsub⟩

/-! ## The size along a run -/

/-- Nothing of the order has been discarded, and its size is the submitted quantity less what it traded as
taker. -/
structure Sized (b : ListBook) (id : OrderId) (quantity : Quantity) (l : Ledger) : Prop where
  discarded : l.discarded = 0
  resting : l.resting = true
  size : ∀ o ∈ b.resting, o.id = id → o.quantity.toNat + l.taker = quantity.toNat

theorem opened_taker (hq : ¬ (quantity = 0 ∨ taker.id ∈ b.ids)) :
    asTaker taker.id (b.submitEvent taker quantity).trades = volume (b.walk taker quantity).trades := by
  have htrades : (b.submitEvent taker quantity).trades = (b.walk taker quantity).trades := (submit_accepted hq).1
  rw [htrades, asTaker_walk]

theorem opened_sized (hacc : (b.submit taker quantity).2.status ≠ .rejected)
    (hrest : taker.id ∈ (b.submit taker quantity).1.ids) : Sized (b.submit taker quantity).1 taker.id quantity
      (Ledger.opened taker.id quantity (b.submit taker quantity).2 (b.submitEvent taker quantity)) := by
  have hq : ¬ (quantity = 0 ∨ taker.id ∈ b.ids) := fun hq => hacc (by rw [submit_refused hq])
  have hid : taker.id ∉ b.ids := fun h => hq (.inr h)
  refine ⟨?_, isSome_find_iff.2 hrest, fun o ho he => ?_⟩
  · obtain ⟨-, hs, -, hb, -⟩ := rested_of_mem hid hrest
    refine if_neg fun hst => ?_
    rcases submit_cases b taker quantity with ⟨h, -⟩ | ⟨-, ⟨hs', -⟩ | ⟨-, -, h⟩ | ⟨-, -, h⟩⟩
    · exact hq h
    · rw [hs] at hs'
      cases hs'
    · rw [h] at hst
      dsimp only at hst
      split at hst <;> cases hst
    · rw [h] at hst
      cases hst
  · obtain ⟨-, hvol, -⟩ := walk_volume b taker quantity
    rw [rested_quantity hid ho he]
    show _ + asTaker taker.id (b.submitEvent taker quantity).trades = _
    rw [opened_taker hq]
    omega

theorem record_sized (hv : b.Valid) (h : b.Sized id quantity l) (hin : id ∈ b.ids) (c : BookCall)
    (hstay : ((b.event c).after.find id).isSome = true) :
    (b.call c).1.Sized id quantity (Ledger.record b.stp id l (b.event c)) := by
  obtain ⟨o, ho, rfl⟩ := List.mem_map.1 hin
  have hafter := Option.isSome_iff_ne_none.1 hstay
  have hbefore : (b.event c).before.find o.id = some o := (find_eq_some hv.ids).2 ⟨ho, rfl⟩
  have hdisc : (b.event c).discards b.stp o.id = 0 := by
    unfold Event.discards
    rw [hbefore]
    cases c with
    | submit i trader side price quantity => exact if_neg fun hc => hafter hc.2.2
    | cancel i =>
      refine if_neg fun hi => hafter (find_eq_none.2 fun hm => ?_)
      obtain ⟨x, hx, hxid⟩ := List.mem_map.1 hm
      exact (mem_cancel.1 hx).2 (hxid.trans hi.symm)
  unfold Ledger.record
  rw [if_pos h.resting]
  refine ⟨?_, hstay, fun o' ho' hid => ?_⟩
  · show l.discarded + _ = 0
    rw [h.discarded, hdisc]
  · have hkey := call_key hv ho c ho' hid
    have hquantity : o'.quantity = o.quantity := by
      have : o'.key.quantity = o.key.quantity := by rw [hkey]
      exact this
    rw [hquantity]
    exact h.size o ho rfl

theorem run_sized (hv : b.Valid) (h : b.Sized id quantity l) (hin : id ∈ b.ids) (calls : List BookCall)
    (hstay : ∀ e ∈ (Machine.runT eventStep b calls).2, (e.after.find id).isSome = true) :
    (Machine.runT eventStep b calls).1.Sized id quantity
      ((Machine.runT eventStep b calls).2.foldl (Ledger.record b.stp id) l) := by
  induction calls generalizing b l with
  | nil => exact h
  | cons c calls ih =>
    have hone := hstay (b.event c) (List.mem_cons_self ..)
    have := ih (hv.step c) (record_sized hv h hin c hone) (isSome_find_iff.1 hone)
      fun e he => hstay e (List.mem_cons_of_mem _ he)
    rw [show (b.step c).1 = (b.call c).1 from rfl, call_stp] at this
    exact this

/-- Recording leaves what was traded as taker. -/
theorem foldl_record_taker (stp : SelfTradePolicy) (id : OrderId) (evs : List Event) (l : Ledger) :
    (evs.foldl (Ledger.record stp id) l).taker = l.taker := by
  induction evs generalizing l with
  | nil => rfl
  | cons ev evs ih =>
    rw [List.foldl_cons, ih]
    unfold Ledger.record
    split <;> rfl

/-- The size of an order with a ledger that balances. -/
theorem Sized.iff (hs : b.Sized id quantity l) (hb : b.Balanced id quantity l) (hv : b.Valid) (ho : o ∈ b.resting)
    (hid : o.id = id) : o.SizedBy quantity l ↔ l.taker = 0 := by
  subst hid
  have hsize := hs.size o ho rfl
  have hbal := hb.1
  unfold Ledger.balance at hbal
  rw [hs.resting, if_pos rfl, remainder_of_mem hv ho, hs.discarded] at hbal
  have hle : o.remaining ≤ o.quantity := by
    rw [UInt64.le_iff_toNat_le]
    omega
  unfold OrderData.SizedBy Ledger.traded
  rw [UInt64.toNat_sub_of_le _ _ hle, ← UInt64.toNat_inj]
  omega

end ListBook

/-- **The recorded size of a resting order.** After every run each resting order has a submission it has
rested since, and its recorded size is the submitted quantity, and less its remainder what was
traded under it, exactly when that submission met no opposite order it trades with. -/
theorem OrderBook.quantity_submitted_iff (stp : SelfTradePolicy) (poolCapacity : UInt64) (calls : List BookCall) :
    ∃ b₀ b evs, create stp poolCapacity = some b₀ ∧ Machine.run eventStep b₀ calls = some (b, evs) ∧
      ∀ o ∈ b.sides.resting,
        (∃ pre ev post taker quantity res, evs = pre ++ ev :: post ∧ taker.id = o.id ∧
          ev.Submits taker quantity res post) ∧
        ∀ pre ev post taker quantity res, evs = pre ++ ev :: post → taker.id = o.id →
          ev.Submits taker quantity res post →
          (o.SizedBy quantity (post.foldl (Ledger.record stp o.id) (Ledger.opened o.id quantity res ev)) ↔
            ev.Unmatched stp taker) := by
  obtain ⟨b₀, b, hr, hrun, hsides⟩ := run_events stp poolCapacity calls
  have hv := ListBook.eventRun_valid (ListBook.create_valid stp) calls
  refine ⟨b₀, b, _, hr, hrun, fun o ho => ?_⟩
  rw [hsides] at ho
  constructor
  · rcases ListBook.run_origin (.create stp) calls (List.mem_map_of_mem ho) with ⟨h, -⟩ | h
    · exact absurd h (by simp [ListBook.create, ListBook.ids, ListBook.resting])
    · exact h
  · intro pre ev post taker quantity res hsplit hid hsub
    obtain ⟨before, c, later, rfl, rfl, rfl, rfl⟩ := Machine.runT_split hsplit
    have hvb := ListBook.eventRun_valid (ListBook.create_valid stp) before
    have hstp : (Machine.runT ListBook.eventStep (ListBook.create stp) before).1.stp = stp :=
      ListBook.eventRun_stp (.create stp) before
    rw [Machine.runT_append] at ho hv
    generalize (Machine.runT ListBook.eventStep (ListBook.create stp) before).1 = r at hvb hstp ho hv hsub
    subst hstp
    obtain rfl : c = .submit taker.id taker.trader taker.side taker.limit quantity := hsub.call
    have hres : (r.submit taker quantity).2 = res := by
      have := hsub.ret
      simpa [ListBook.eventStep, ListBook.event, ListBook.call] using this
    subst hres
    have hacc := hsub.accepted
    have hq : ¬ (quantity = 0 ∨ taker.id ∈ r.ids) := fun hq => hacc (by rw [ListBook.submit_refused hq])
    have hrest : taker.id ∈ (r.submit taker quantity).1.ids :=
      ListBook.isSome_find_iff.1 (hsub.rests _ (List.mem_cons_self ..))
    have hkeep : (r.submit taker quantity).1.stp = r.stp :=
      ListBook.call_stp r (.submit taker.id taker.trader taker.side taker.limit quantity)
    have hsized := ListBook.run_sized (hvb.submit taker quantity) (ListBook.opened_sized hacc hrest) hrest later
      fun e he => hsub.rests e (List.mem_cons_of_mem _ he)
    have hbal := ListBook.run_balanced (hvb.submit taker quantity) (ListBook.opened_balanced hvb taker quantity hacc)
      later
    rw [hkeep] at hsized hbal
    rw [← hid]
    refine (ListBook.Sized.iff hsized hbal hv ho hid.symm).trans ?_
    rw [ListBook.foldl_record_taker]
    show asTaker taker.id (r.submitEvent taker quantity).trades = 0 ↔ _
    rw [ListBook.opened_taker hq]
    exact ListBook.volume_zero_iff hvb (fun h => hq (.inr h)) hrest

/-- A buy of 10 that meets a sell of 4 rests with a recorded size of 6. -/
theorem OrderBook.size_after_fill :
    ¬ ∀ (calls : List BookCall) (b₀ b : OrderBook) (evs : List Event), create .none 4 = some b₀ →
      Machine.run eventStep b₀ calls = some (b, evs) → ∀ o ∈ b.sides.resting, ∀ pre ev post taker quantity res,
        evs = pre ++ ev :: post → taker.id = o.id → ev.Submits taker quantity res post → o.quantity = quantity := by
  intro h
  obtain ⟨b₀, b, hr, hrun, hsides⟩ := run_events .none 4 [.submit 1 1 .sell 100 4, .submit 2 2 .buy 100 10]
  have hrests : (⟨2, 2, .buy, 100, 6, 6, 2⟩ : OrderData) ∈ b.sides.resting := by
    rw [hsides]
    decide
  have hsize := h _ b₀ b _ hr hrun _ hrests [_] _ [] ⟨2, 2, .buy, 100⟩ 10 ⟨.partiallyFilled, 4, 6, 1⟩ rfl rfl
    ⟨rfl, by decide, by decide, by decide⟩
  exact absurd hsize (by decide)

end Obe
