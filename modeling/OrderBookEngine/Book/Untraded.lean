/-
An order that is cancelled untraded leaves no trace. When an order rests without touching the other
side, and until its cancel no call trades with it, takes it out, is stopped by it or names it, the run
without the order and its cancel has the replies of the run with them. Sequences apart, the books that
come out are the same.
-/
import OrderBookEngine.Book.Commute
import OrderBookEngine.Book.Snapshot

namespace Obe

def Event.reply (ev : Event) : BookRet × List Trade := (ev.ret, ev.trades)

/-- The submission rested something and left the other side as it was. -/
structure Event.RestsApart (ev : Event) (side : Side) : Prop where
  rested : ∃ res, ev.ret = .submitted res ∧ 0 < res.resting
  opposite : ev.after.opposite side = ev.before.opposite side

/-- The call is of another order, and spares this one. -/
def Event.Avoids (ev : Event) (o : OrderData) : Prop :=
  match ev.call with
  | .submit id _ side _ _ => o.id ≠ id ∧ ev.Spares side o
  | .cancel id => o.id ≠ id

/-- An entry without its number. -/
def OrderSnapshot.unnumbered (s : OrderSnapshot) : OrderSnapshot := { s with sequence := 0 }

namespace ListBook

variable {b b' : ListBook} {taker : Taker} {quantity : Quantity} {o : OrderData}

/-! ## Books with one face -/

/-- What a run of replies does to the face of a book. -/
theorem face_run (h : b.face = b'.face) (calls : List BookCall) :
    (Machine.runT reply b calls).1.face = (Machine.runT reply b' calls).1.face := by
  have hrun : ∀ b : ListBook, (Machine.runT faceReply b.face calls).1 = (Machine.runT reply b calls).1.face := by
    intro b
    have := Machine.runT_map (f := face) (g := id) (k := id) faceReply_face b calls
    rw [List.map_id] at this
    rw [this]
  rw [← hrun b, ← hrun b', h]

theorem unnumbered_of_face (h : b.face = b'.face) :
    b.snapshot.map OrderSnapshot.unnumbered = b'.snapshot.map OrderSnapshot.unnumbered := by
  -- the number apart, an entry is read off the face of its order
  have hside : ∀ (side : Side) (l : List OrderData), (snapshotOf side l).map OrderSnapshot.unnumbered =
      snapshotOf side (l.map OrderData.face) := by
    intro side l
    unfold snapshotOf
    rw [List.map_map, List.map_map]
    rfl
  unfold snapshot
  rw [List.map_append, List.map_append, hside, hside, hside, hside]
  exact congrArg₂ (fun x y => snapshotOf .buy x ++ snapshotOf .sell y) (congrArg bids h) (congrArg asks h)

theorem traders_of_face (h : b.face = b'.face) : b.resting.map (·.trader) = b'.resting.map (·.trader) := by
  have hside : ∀ l : List OrderData, l.map (·.trader) = (l.map OrderData.face).map (·.trader) := by
    intro l
    rw [List.map_map]
    rfl
  unfold resting
  rw [List.map_append, List.map_append, hside b.bids, hside b.asks, hside b'.bids, hside b'.asks]
  exact congrArg₂ (fun x y : List OrderData => x.map (·.trader) ++ y.map (·.trader)) (congrArg bids h) (congrArg asks h)

theorem reply_run (b : ListBook) (calls : List BookCall) : Machine.runT reply b calls =
    ((Machine.runT eventStep b calls).1, (Machine.runT eventStep b calls).2.map Event.reply) := by
  have hstep : ∀ (b : ListBook) c, (id b).reply (id c) = (id (b.eventStep c).1, (b.eventStep c).2.reply) := fun _ _ => rfl
  have := Machine.runT_map hstep b calls
  rwa [List.map_id] at this

/-! ## The order on its way to the cancel -/

/-- The step lemma: the cancel goes behind a call that avoids its order. -/
theorem reply_cancel_comm (hv : b.Valid) (ho : o ∈ b.resting) (c : BookCall) (h : (b.event c).Avoids o) :
    o ∈ (b.call c).1.resting ∧
      (b.cancel o.id).1.reply c = (((b.call c).1.cancel o.id).1, (b.reply c).2) := by
  cases c with
  | submit id trader side price quantity =>
    obtain ⟨hne, hs⟩ := h
    have hcomm := @submit_cancel_comm b ⟨id, trader, side, price⟩ quantity o hv ho hne hs
    refine ⟨@spared_rests b ⟨id, trader, side, price⟩ quantity o hv ho hs, ?_⟩
    unfold reply call
    dsimp only
    rw [hcomm]
    simp only [cancel_eq, BookCall.produced]
  | cancel id =>
    have hne : o.id ≠ id := h
    refine ⟨mem_cancel.2 ⟨ho, hne⟩, ?_⟩
    unfold reply call
    dsimp only
    rw [cancel_comm, cancel_found b hne]
    rfl

/-- The run lemma. -/
theorem run_cancel_comm (hv : b.Valid) (ho : o ∈ b.resting) (calls : List BookCall)
    (h : ∀ ev ∈ (Machine.runT eventStep b calls).2, ev.Avoids o) :
    o ∈ (Machine.runT reply b calls).1.resting ∧ Machine.runT reply (b.cancel o.id).1 calls =
      (((Machine.runT reply b calls).1.cancel o.id).1, (Machine.runT reply b calls).2) := by
  induction calls generalizing b with
  | nil => exact ⟨ho, rfl⟩
  | cons c calls ih =>
    obtain ⟨ho', hstep⟩ := reply_cancel_comm hv ho c (h _ (List.mem_cons_self ..))
    obtain ⟨hrests, hrun⟩ := ih (hv.step c) ho' fun ev hev => h ev (List.mem_cons_of_mem _ hev)
    refine ⟨hrests, ?_⟩
    have hrun : Machine.runT reply ((b.call c).1.cancel o.id).1 calls = _ := hrun
    rw [Machine.runT_cons, Machine.runT_cons, hstep]
    dsimp only
    rw [hrun]
    rfl

/-- The submission that rested the order, and its cancel. -/
theorem rests_apart (b : ListBook) (taker : Taker) (quantity : Quantity)
    (h : (b.submitEvent taker quantity).RestsApart taker.side) :
    taker.id ∈ (b.submit taker quantity).1.ids ∧ ((b.submit taker quantity).1.cancel taker.id).1.face = b.face := by
  obtain ⟨⟨res, hret, hpos⟩, hopp⟩ := h
  obtain rfl : (b.submit taker quantity).2 = res := BookRet.submitted.inj hret
  have hopp : (b.submit taker quantity).1.opposite taker.side = b.opposite taker.side := hopp
  rcases submit_cases b taker quantity with ⟨-, he⟩ | ⟨⟨hq, hid⟩, ⟨-, he⟩ | ⟨-, -, he⟩ | ⟨-, -, he⟩⟩
  · rw [he] at hpos
    exact absurd hpos (UInt64.lt_irrefl 0)
  · rw [he] at hpos
    exact absurd hpos (UInt64.lt_irrefl 0)
  · rw [he] at hopp ⊢
    rw [rest_opposite, swept_opposite] at hopp
    have hout : taker.id ∉ (b.swept taker (b.walk taker quantity)).ids := fun hm => hid (swept_ids hm)
    have hcancel := rest_cancel _ taker (b.walk taker quantity).remaining hout
    -- a walk that leaves the side as it was changes the trades only
    have hswept : b.swept taker (b.walk taker quantity) = { b with trades := (b.walk taker quantity).trades } := by
      unfold swept setOpposite opposite at *
      rw [hopp]
      split <;> rfl
    constructor
    · by_contra hm
      rw [cancel_eq, decide_eq_false hm] at hcancel
      cases congrArg Prod.snd hcancel
    · dsimp only
      rw [hcancel, hswept]
      rfl
  · rw [he] at hpos
    exact absurd hpos (UInt64.lt_irrefl 0)

/-- The run without the order, from where it was submitted on. -/
theorem run_without (hv : b.Valid) (middle after : List BookCall)
    (hrests : (b.submitEvent taker quantity).RestsApart taker.side)
    (ho : (b.submit taker quantity).1.sides.find taker.id = some o)
    (h : ∀ ev ∈ (Machine.runT eventStep (b.submit taker quantity).1 middle).2, ev.Avoids o) :
    let r := Machine.runT reply (b.submit taker quantity).1 middle
    taker.id ∈ r.1.ids ∧
      (Machine.runT reply b (middle ++ after)).2 = r.2 ++ (Machine.runT reply (r.1.cancel taker.id).1 after).2 ∧
      (Machine.runT reply b (middle ++ after)).1.face = (Machine.runT reply (r.1.cancel taker.id).1 after).1.face := by
  obtain ⟨-, hface⟩ := b.rests_apart taker quantity hrests
  have hv' : (b.submit taker quantity).1.Valid := hv.submit taker quantity
  obtain ⟨hm, hid⟩ := (find_eq_some hv'.ids).1 ho
  obtain ⟨hstays, hcomm⟩ := run_cancel_comm hv' hm middle h
  rw [hid] at hcomm
  have hreplies := replies_of_face hface (middle ++ after)
  have hbooks := face_run hface (middle ++ after)
  rw [Machine.runT_append, hcomm] at hreplies hbooks
  exact ⟨hid ▸ List.mem_map_of_mem hstays, hreplies.symm, hbooks.symm⟩

end ListBook

/-- **An order that is cancelled untraded leaves no trace.** In every run in which an order rests without
touching the other side and is cancelled later, and no call in between trades with it, takes it out, is
stopped by it or names it: its cancel finds it, the run without the two calls has the replies of all the
others, and the books that come out show the same but for the sequences. -/
theorem OrderBook.untraded_leaves_no_trace (stp : SelfTradePolicy) (poolCapacity : UInt64) (before : List BookCall)
    (id : OrderId) (trader : TraderId) (side : Side) (price : Price) (quantity : Quantity)
    (middle after : List BookCall) :
    ∃ b₀ b e₁ ev e₂ ev' e₃, create stp poolCapacity = some b₀ ∧
      Machine.run eventStep b₀ (before ++ .submit id trader side price quantity :: (middle ++ .cancel id :: after)) =
        some (b, e₁ ++ ev :: (e₂ ++ ev' :: e₃)) ∧ e₁.length = before.length ∧ e₂.length = middle.length ∧
      ∀ o, ev.RestsApart side → ev.after.find id = some o → (∀ e ∈ e₂, e.Avoids o) →
        ev'.ret = .cancelled true ∧ ∃ b' entries entries',
          Machine.run reply b₀ (before ++ (middle ++ after)) = some (b', (e₁ ++ (e₂ ++ e₃)).map Event.reply) ∧
          b.snapshot = some entries ∧ b'.snapshot = some entries' ∧
          entries.map OrderSnapshot.unnumbered = entries'.map OrderSnapshot.unnumbered ∧ b.traders = b'.traders := by
  obtain ⟨b₀, hr, h₀⟩ := create_spec stp poolCapacity
  obtain ⟨b, hrun, h⟩ := event_refines.run h₀
    (before ++ .submit id trader side price quantity :: (middle ++ .cancel id :: after))
  obtain ⟨b', hrun', h'⟩ := reply_refines.run h₀ (before ++ (middle ++ after))
  have hv := ListBook.eventRun_valid (ListBook.create_valid stp) before
  have hlen := Machine.runT_length ListBook.eventStep (ListBook.create stp) before
  rw [Machine.runT_append, ListBook.reply_run _ before] at hrun' h'
  rw [Machine.runT_append, Machine.runT_cons, Machine.runT_append, Machine.runT_cons] at hrun h
  generalize Machine.runT ListBook.eventStep (ListBook.create stp) before = start at *
  obtain ⟨r, e₁⟩ := start
  refine ⟨b₀, b, e₁, _, _, _, _, hr, hrun, hlen, Machine.runT_length .., fun o hrests ho havoids => ?_⟩
  obtain ⟨hfound, hreplies, hface⟩ := @ListBook.run_without r ⟨id, trader, side, price⟩ quantity o hv middle after
    hrests ho havoids
  rw [ListBook.reply_run _ middle] at hfound hreplies hface
  rw [ListBook.reply_run _ after] at hreplies hface
  refine ⟨congrArg BookRet.cancelled ?_, b', _, _, ?_, h.snapshot_eq, h'.snapshot_eq, ?_, ?_⟩
  · rw [ListBook.cancel_eq]
    exact decide_eq_true hfound
  · rw [hrun', hreplies, List.map_append, List.map_append]
    rfl
  · exact ListBook.unnumbered_of_face hface.symm
  · rw [h.traders, h'.traders]
    exact ListBook.traders_of_face hface.symm

/-- A bid behind a better one, which a sale trades with before the cancel and another sale after it. -/
theorem OrderBook.untraded_leaves_no_trace_behind :
    ∃ b₀ b e₁ ev e₂ ev' e₃ b' entries entries', create .cancelResting 4 = some b₀ ∧
      Machine.run eventStep b₀ [.submit 1 7 .buy 100 8, .submit 2 8 .buy 99 5, .submit 3 9 .sell 99 5, .cancel 2,
        .submit 4 9 .sell 99 6] = some (b, e₁ ++ ev :: (e₂ ++ ev' :: e₃)) ∧
      (e₂.flatMap (·.trades)).map (·.makerId) = [1] ∧ ev'.ret = .cancelled true ∧
      Machine.run reply b₀ [.submit 1 7 .buy 100 8, .submit 3 9 .sell 99 5, .submit 4 9 .sell 99 6] =
        some (b', (e₁ ++ (e₂ ++ e₃)).map Event.reply) ∧
      b.snapshot = some entries ∧ b'.snapshot = some entries' ∧
      entries.map OrderSnapshot.unnumbered = entries'.map OrderSnapshot.unnumbered ∧ b.traders = b'.traders := by
  let o : OrderData := ⟨2, 8, .buy, 99, 5, 5, 2⟩
  let calls : List BookCall := [.submit 1 7 .buy 100 8, .submit 2 8 .buy 99 5, .submit 3 9 .sell 99 5, .cancel 2,
    .submit 4 9 .sell 99 6]
  obtain ⟨b₀, b, e₁, ev, e₂, ev', e₃, hr, hrun, h1, h2, h⟩ := untraded_leaves_no_trace .cancelResting 4
    [.submit 1 7 .buy 100 8] 2 8 .buy 99 5 [.submit 3 9 .sell 99 5] [.submit 4 9 .sell 99 6]
  obtain ⟨x, rfl⟩ := List.length_eq_one_iff.1 h1
  obtain ⟨y, rfl⟩ := List.length_eq_one_iff.1 h2
  have hrun : Machine.run eventStep b₀ calls = some (b, x :: ev :: y :: ev' :: e₃) := hrun
  -- the submission of the order, and the sale before its cancel
  have hrests : ((create .cancelResting 4).bind fun b₀ => (Machine.run eventStep b₀ calls).bind fun r =>
      r.2[1]?.map fun e => (e.ret, e.after.asks, e.before.asks, e.after.find 2)) =
      some (.submitted ⟨.rested, 0, 5, 0⟩, [], [], some o) := by decide +kernel
  have hsale : ((create .cancelResting 4).bind fun b₀ => (Machine.run eventStep b₀ calls).bind fun r =>
      r.2[2]?.map fun e => (e.call, e.trades.map (·.makerId), e.after.find 2, e.after.bids.head?.map (·.id))) =
      some (.submit 3 9 .sell 99 5, [1], some o, some 1) := by decide +kernel
  rw [hr, Option.bind_some, hrun] at hrests hsale
  simp only [Option.bind_some, List.getElem?_cons_succ, List.getElem?_cons_zero, Option.map_some, Option.some.injEq,
    Prod.mk.injEq] at hrests hsale
  obtain ⟨hret, hafter, hbefore, hfound⟩ := hrests
  obtain ⟨hcall, hmakers, hstays, hhead⟩ := hsale
  have hapart : ev.RestsApart .buy := ⟨⟨_, hret, by decide⟩, hafter.trans hbefore.symm⟩
  have havoids : y.Avoids o := by
    unfold Event.Avoids
    rw [hcall]
    refine ⟨by decide, .of_rests (fun t ht he => ?_) hstays fun he => ?_⟩
    · have hm : t.makerId ∈ [1] := hmakers ▸ List.mem_map_of_mem ht
      exact absurd (he ▸ hm) (by decide)
    · have he : y.after.bids.head? = some o := he
      rw [he] at hhead
      cases hhead
  obtain ⟨hcancelled, b', entries, entries', hrun', hs, hs', hentries, htraders⟩ :=
    h o hapart hfound (List.forall_mem_singleton.2 havoids)
  have hmakers : ([y].flatMap (·.trades)).map (·.makerId) = [1] := by
    rw [List.flatMap_singleton]
    exact hmakers
  exact ⟨b₀, b, [x], ev, [y], ev', e₃, b', entries, entries', hr, hrun, hmakers, hcancelled, hrun', hs, hs', hentries,
    htraders⟩

end Obe
