/-
Price-time priority. An order that stands in front of another on its side leaves the book before
the other one trades, and no call changes the places of the orders that stay. Until the sequence
counter wraps, the places are those of the better price and then the smaller sequence number.
-/
import OrderBookEngine.Book.Conservation

namespace Obe

/-! ## Priority -/

/-- `p` is traded before `q` on `side`. -/
def betterPrice (side : Side) (p q : Price) : Prop := if side = .buy then bidOrder p q else askOrder p q

/-- The orders of a side without their remainders, in their places. -/
def Sides.keys (s : Sides) (side : Side) : List OrderData := (s.own side).map OrderData.key

def BookCall.trader : BookCall → Option TraderId
  | .submit _ trader _ _ _ => some trader
  | .cancel _ => none

/-- When `y` trades as maker, `x` is no longer in the book: the call itself has filled it in an
earlier trade or removed it as the taker's own, or it had left before. -/
def Event.LeavesFirst (ev : Event) (stp : SelfTradePolicy) (side : Side) (x y : OrderData) : Prop :=
  y.key ∈ ev.before.keys side → ∀ pre t post, ev.trades = pre ++ t :: post → t.makerId = y.id →
    x.key ∉ ev.after.keys side ∧
    ∀ x' ∈ ev.before.own side, x'.key = x.key →
      (∃ t' ∈ pre, t'.makerId = x.id ∧ t'.quantity = x'.remaining) ∨
      (stp = .cancelResting ∧ ev.call.trader = some x.trader)

/-- The trades of one submission, and what it leaves on the opposite side. -/
structure Event.Fair (ev : Event) (taker : Taker) (res : SubmitResult) : Prop where
  sorted : ev.trades.Pairwise fun t u => if taker.side = .buy then t.price ≤ u.price else u.price ≤ t.price
  priced : ∀ t ∈ ev.trades, ∃ o ∈ ev.before.opposite taker.side, o.id = t.makerId ∧ o.price = t.price ∧
    crosses taker.side taker.limit t.price = true
  filled : ∀ t ∈ ev.trades.dropLast, ∃ o ∈ ev.before.opposite taker.side, o.id = t.makerId ∧
    o.remaining = t.quantity ∧ ∀ x ∈ ev.after.opposite taker.side, x.id ≠ o.id
  rested : res.resting ≠ 0 → ∀ o ∈ ev.after.opposite taker.side, crosses taker.side taker.limit o.price = false

/-! ## Places in a list -/

section Places

variable {α : Type _} {l l' : List α} {x y : α}

/-- One of two elements stands in front of the other. -/
theorem pair_sublist (hx : x ∈ l) (hy : y ∈ l) (hne : x ≠ y) : [x, y].Sublist l ∨ [y, x].Sublist l := by
  obtain ⟨l₁, l₂, rfl⟩ := List.append_of_mem hx
  rcases List.mem_append.1 hy with hy | hy
  · exact .inr ((List.singleton_sublist.2 hy).append (List.singleton_sublist.2 (List.mem_cons_self ..)))
  · rcases List.mem_cons.1 hy with rfl | hy
    · exact absurd rfl hne
    · exact .inl (((List.singleton_sublist.2 hy).cons_cons x).trans (List.sublist_append_right ..))

/-- A list without duplicates orders two elements one way only. -/
theorem not_pair_sublist (hnd : l.Nodup) (h : [x, y].Sublist l) : ¬ [y, x].Sublist l := by
  intro h'
  induction l with
  | nil => cases h
  | cons a l ih =>
    obtain ⟨ha, hnd⟩ := List.nodup_cons.1 hnd
    cases h with
    | cons _ h =>
      cases h' with
      | cons _ h' => exact ih hnd h h'
      | cons_cons _ h' => exact ha (h.mem (by simp))
    | cons_cons _ h =>
      cases h' with
      | cons _ h' => exact ha (h'.mem (by simp))
      | cons_cons _ h' => exact ha (List.singleton_sublist.1 h)

/-- Taking elements out keeps the places of those that stay. -/
theorem pair_sublist_of_sublist (hnd : l.Nodup) (hs : l'.Sublist l) (h : [x, y].Sublist l) (hx : x ∈ l')
    (hy : y ∈ l') : [x, y].Sublist l' := by
  have hne : x ≠ y := by
    rintro rfl
    exact not_pair_sublist hnd h h
  rcases pair_sublist hx hy hne with h' | h'
  · exact h'
  · exact absurd (h'.trans hs) (not_pair_sublist hnd h)

/-- What stands later in a sorted list is not before it. -/
theorem pair_sublist_of_sorted {R : α → α → Prop} (hs : l.Pairwise fun a b => ¬ R b a) (hx : x ∈ l) (hy : y ∈ l)
    (hne : x ≠ y) (hR : R x y) : [x, y].Sublist l := by
  rcases pair_sublist hx hy hne with h | h
  · exact h
  · have := hs.sublist h
    rw [List.pairwise_pair] at this
    exact absurd hR this

end Places

/-! ## One walk -/

section Walk

variable {stp : SelfTradePolicy} {taker : Taker} {remaining : Quantity} {queue : List OrderData}

/-- The makers of a walk are met in their places, each at its own price. -/
theorem sweep_makers (stp : SelfTradePolicy) (taker : Taker) (remaining : Quantity) (queue : List OrderData) :
    ((sweep stp taker remaining queue).trades.map fun t => (t.makerId, t.price)).Sublist
      (queue.map fun o => (o.id, o.price)) := by
  induction queue generalizing remaining with
  | nil => exact .refl _
  | cons o queue ih =>
    rcases sweep_cases stp taker remaining o queue with ⟨-, h⟩ | ⟨-, -, -, h⟩ | ⟨-, -, -, h⟩ | ⟨-, -, -, h⟩ |
      ⟨-, -, -, h⟩
    · rw [h]; exact List.nil_sublist _
    · rw [h]; exact (ih remaining).cons _
    · rw [h]; exact List.nil_sublist _
    · rw [h]; exact (ih (remaining - o.remaining)).cons_cons _
    · rw [h]; exact (List.nil_sublist _).cons_cons _

/-- An order in front of a maker was filled in an earlier trade, or removed as the taker's own. -/
theorem sweep_first (stp : SelfTradePolicy) (taker : Taker) (remaining : Quantity) {x y : OrderData} {t : Trade}
    {pre post : List Trade} (hnd : (queue.map (·.id)).Nodup) (hxy : [x, y].Sublist queue)
    (ht : (sweep stp taker remaining queue).trades = pre ++ t :: post) (hy : t.makerId = y.id) :
    x.id ∉ (sweep stp taker remaining queue).queue.map (·.id) ∧
      ((∃ t' ∈ pre, t'.makerId = x.id ∧ t'.quantity = x.remaining) ∨
        (stp = .cancelResting ∧ x.trader = taker.trader)) := by
  induction queue generalizing remaining pre with
  | nil => cases hxy
  | cons o queue ih =>
    rw [List.map_cons, List.nodup_cons] at hnd
    -- the maker stands behind the first order
    have hyo : o.id ≠ y.id := by
      have hyq : y ∈ queue := by
        cases hxy with
        | cons _ h => exact h.mem (by simp)
        | cons_cons _ h => exact List.singleton_sublist.1 h
      exact fun he => hnd.1 (he ▸ List.mem_map_of_mem hyq)
    rcases sweep_cases stp taker remaining o queue with
      ⟨-, h⟩ | ⟨-, hs, hp, h⟩ | ⟨-, -, -, h⟩ | ⟨-, -, -, h⟩ | ⟨-, -, -, h⟩
    · rw [h] at ht; simp at ht
    · rw [h] at ht ⊢
      cases hxy with
      | cons _ hxy => exact ih remaining hnd.2 hxy ht
      | cons_cons _ _ =>
        have htr : x.trader = taker.trader := by
          simp only [selfTrade, Bool.and_eq_true, decide_eq_true_eq] at hs
          exact hs.2
        exact ⟨fun hm => hnd.1 (sweep_id_mem hm), .inr ⟨hp, htr⟩⟩
    · rw [h] at ht; simp at ht
    · rw [h] at ht ⊢
      cases pre with
      | nil =>
        have ht' : taker.trade o o.remaining = t := (List.cons.inj ht).1
        exact absurd (by rw [← hy, ← ht']; rfl) hyo
      | cons t₀ pre =>
        obtain ⟨ht₀, ht'⟩ := List.cons.inj ht
        cases hxy with
        | cons _ hxy =>
          obtain ⟨hout, hfirst⟩ := ih (remaining - o.remaining) hnd.2 hxy ht'
          refine ⟨hout, hfirst.imp_left ?_⟩
          rintro ⟨t', ht', hq⟩
          exact ⟨t', List.mem_cons_of_mem _ ht', hq⟩
        | cons_cons _ _ =>
          exact ⟨fun hm => hnd.1 (sweep_id_mem hm), .inl ⟨t₀, List.mem_cons_self .., by rw [← ht₀]; exact ⟨rfl, rfl⟩⟩⟩
    · rw [h] at ht
      cases pre with
      | nil =>
        have ht' : taker.trade o remaining = t := (List.cons.inj ht).1
        exact absurd (by rw [← hy, ← ht']; rfl) hyo
      | cons t₀ pre => simp at ht

/-- Every maker but the last is consumed. -/
theorem Walked.filled {gone kept : List OrderData} {r : Sweep} (h : Walked stp taker remaining gone kept r)
    (hnd : ((gone ++ kept).map (·.id)).Nodup) {t : Trade} (ht : t ∈ r.trades.dropLast) :
    ∃ o ∈ gone, o.id = t.makerId ∧ o.remaining = t.quantity ∧ o.id ∉ r.queue.map (·.id) := by
  rw [List.map_append, List.nodup_append] at hnd
  have hfull : ∀ t ∈ fills taker (makers stp taker gone),
      ∃ o ∈ gone, o.id = t.makerId ∧ o.remaining = t.quantity ∧ o.id ∉ kept.map (·.id) := by
    intro t ht
    obtain ⟨o, ho, rfl⟩ := List.mem_map.1 ht
    have hg := (List.mem_filter.1 ho).1
    exact ⟨o, hg, rfl, rfl, fun hk => hnd.2.2 _ (List.mem_map_of_mem hg) _ hk rfl⟩
  rcases h.left with ⟨hq, htr, -⟩ | ⟨o, l, q, rfl, -, -, -, -, -, rfl⟩
  · rw [hq]
    exact hfull t (htr ▸ List.mem_of_mem_dropLast ht)
  · rw [List.dropLast_concat] at ht
    exact hfull t ht

end Walk

namespace ListBook

variable {b b' : ListBook} {taker : Taker} {quantity : Quantity} {x y : OrderData} {n : Nat}

/-! ## The places on a side -/

/-- The side named `side` is the taker's own or the one it trades with. -/
theorem own_or_opposite (side takerSide : Side) :
    (∀ b : ListBook, b.own side = b.own takerSide) ∨ (∀ b : ListBook, b.own side = b.opposite takerSide) := by
  unfold own opposite
  by_cases hs : side = .buy <;> by_cases ht : takerSide = .buy <;> simp [hs, ht]

theorem Valid.own_nodup (h : b.Valid) (side : Side) : ((b.own side).map (·.id)).Nodup := (h.sideIds side).1

theorem Valid.keys_nodup (h : b.Valid) (side : Side) : (b.sides.keys side).Nodup := by
  have hids : (b.own side).map (·.id) = (b.sides.keys side).map (·.id) := by
    unfold Sides.keys
    rw [sides_own, List.map_map]; rfl
  exact List.Nodup.of_map _ (hids ▸ h.own_nodup side)

theorem Valid.own_sorted (h : b.Valid) (side : Side) :
    (b.own side).Pairwise fun x y => ¬ betterPrice side y.price x.price := by
  unfold own betterPrice
  split
  · exact h.bidSorted
  · exact h.askSorted

theorem Numbered.own_inTime (h : b.Numbered n) (hn : n + 1 < 2 ^ 64) (side : Side) : InTime (b.own side) := by
  unfold own
  split
  · exact h.bids hn
  · exact h.asks hn

/-- Which of two orders on a side has priority, until the sequence counter wraps after `n` rested
orders. -/
def Prior (n : Nat) (side : Side) (x y : OrderData) : Prop :=
  betterPrice side x.price y.price ∨ n + 1 < 2 ^ 64 ∧ x.price = y.price ∧ x.sequence < y.sequence

theorem betterPrice_irrefl (side : Side) (p : Price) : ¬ betterPrice side p p := by
  unfold betterPrice
  split
  · exact Std.Irrefl.irrefl (r := bidOrder) p
  · exact Std.Irrefl.irrefl (r := askOrder) p

/-- The order with priority stands in front. -/
theorem Valid.ahead (h : b.Valid) (hn : b.Numbered n) {side : Side} (hx : x ∈ b.own side) (hy : y ∈ b.own side)
    (hxy : Prior n side x y) : [x, y].Sublist (b.own side) := by
  rcases hxy with hp | ⟨hlt, hp, hs⟩
  · have hne : x ≠ y := by
      rintro rfl
      exact betterPrice_irrefl side x.price hp
    exact pair_sublist_of_sorted (R := fun a b => betterPrice side a.price b.price) (h.own_sorted side) hx hy hne hp
  · have hne : x ≠ y := by
      rintro rfl
      exact UInt64.lt_irrefl _ hs
    refine pair_sublist_of_sorted (R := fun a b => a.price = b.price ∧ a.sequence < b.sequence) ?_ hx hy hne ⟨hp, hs⟩
    refine (hn.own_inTime hlt side).imp ?_
    rintro a b hab ⟨hba, hlt⟩
    exact UInt64.lt_asymm hlt (hab hba.symm)

theorem fields_of_key (h : x.key = y.key) : x.trader = y.trader ∧ x.price = y.price ∧ x.sequence = y.sequence := by
  unfold OrderData.key at h
  injection h
  exact ⟨‹_›, ‹_›, ‹_›⟩

theorem Prior.of_keys {side : Side} {x' y' : OrderData} (h : Prior n side x y) (hx : x'.key = x.key)
    (hy : y'.key = y.key) : Prior n side x' y' := by
  obtain ⟨-, hxp, hxs⟩ := fields_of_key hx
  obtain ⟨-, hyp, hys⟩ := fields_of_key hy
  unfold Prior at h ⊢
  rwa [hxp, hyp, hxs, hys]

/-! ## One call -/

/-- The makers of a submission rest on the opposite side. -/
theorem walk_maker (b : ListBook) (taker : Taker) (quantity : Quantity) {t : Trade}
    (ht : t ∈ (b.walk taker quantity).trades) :
    ∃ o ∈ b.opposite taker.side, o.id = t.makerId ∧ o.price = t.price := by
  have hm := (sweep_makers b.stp taker quantity (b.opposite taker.side)).mem (List.mem_map_of_mem ht)
  obtain ⟨o, ho, he⟩ := List.mem_map.1 hm
  exact ⟨o, ho, (Prod.mk.inj he).1, (Prod.mk.inj he).2⟩

/-- In one call an order with priority leaves the book before the other one trades. -/
theorem leavesFirst (hv : b.Valid) (hn : b.Numbered n) (c : BookCall) {side : Side} (hxy : Prior n side x y) :
    (b.event c).LeavesFirst b.stp side x y := by
  intro hy pre t post ht hmk
  cases c with
  | cancel id => simp [event, BookCall.produced] at ht
  | submit id trader ts price quantity =>
    have ht : (b.submit ⟨id, trader, ts, price⟩ quantity).1.trades = pre ++ t :: post := ht
    by_cases hq : quantity = 0 ∨ id ∈ b.ids
    · rw [submit_refused hq] at ht
      simp at ht
    · rw [(@submit_accepted b ⟨id, trader, ts, price⟩ quantity hq).1] at ht
      obtain ⟨y', hy', hyk⟩ := List.mem_map.1 hy
      have hyid : y'.id = y.id := id_of_key hyk
      obtain ⟨o, ho, hoid, -⟩ := walk_maker b ⟨id, trader, ts, price⟩ quantity
        (show t ∈ _ from ht ▸ List.mem_append_right _ (List.mem_cons_self ..))
      have hids := hv.sideIds ts
      -- the maker is the order `y`, so `side` is the side the taker trades with
      have hside : ∀ b : ListBook, b.own side = b.opposite ts := by
        rcases own_or_opposite side ts with h | h
        · have hown : y' ∈ b.own ts := by rw [← h]; exact hy'
          exact absurd (hyid.trans (hmk.symm.trans hoid.symm))
            (hids.2.2 _ (List.mem_map_of_mem hown) _ (List.mem_map_of_mem ho))
        · exact h
      have hfirst : ∀ x' ∈ b.own side, x'.key = x.key →
          x'.id ∉ (b.walk ⟨id, trader, ts, price⟩ quantity).queue.map (·.id) ∧
            ((∃ t' ∈ pre, t'.makerId = x'.id ∧ t'.quantity = x'.remaining) ∨
              (b.stp = .cancelResting ∧ x'.trader = trader)) := by
        intro x' hx' hxk
        have hahead := hv.ahead hn hx' hy' (hxy.of_keys hxk hyk)
        rw [hside] at hahead
        exact sweep_first b.stp ⟨id, trader, ts, price⟩ quantity hids.2.1 hahead ht (hmk.trans hyid.symm)
      constructor
      · intro hx
        obtain ⟨x', hx', hxk⟩ := List.mem_map.1 hx
        have hx' : x' ∈ (b.submit ⟨id, trader, ts, price⟩ quantity).1.own side := hx'
        rw [hside, @submit_opposite b ⟨id, trader, ts, price⟩ quantity hq] at hx'
        obtain ⟨o', ho', q, rfl⟩ := sweep_mem hx'
        have hin : o' ∈ b.own side := by rw [hside]; exact ho'
        exact (hfirst o' hin hxk).1 (List.mem_map_of_mem (f := (·.id)) hx')
      · intro x' hx' hxk
        have hxid : x'.id = x.id := id_of_key hxk
        obtain ⟨htr, -, -⟩ := fields_of_key hxk
        rcases (hfirst x' hx' hxk).2 with ⟨t', ht', hid, hqty⟩ | ⟨hp, htrader⟩
        · exact .inl ⟨t', ht', hid.trans hxid, hqty⟩
        · exact .inr ⟨hp, by rw [← htr, htrader]; rfl⟩

/-- Every submission trades fairly. -/
theorem submit_fair (hv : b.Valid) (taker : Taker) (quantity : Quantity) :
    (b.submitEvent taker quantity).Fair taker (b.submit taker quantity).2 := by
  by_cases hq : quantity = 0 ∨ taker.id ∈ b.ids
  · have htrades : (b.submitEvent taker quantity).trades = [] := by
      show (b.submit taker quantity).1.trades = []
      rw [submit_refused hq]
    rw [submit_refused hq]
    exact ⟨by rw [htrades]; exact .nil, by rw [htrades]; simp, by rw [htrades]; simp, fun h => absurd rfl h⟩
  · have htrades : (b.submitEvent taker quantity).trades = (b.walk taker quantity).trades := (submit_accepted hq).1
    have hafter : (b.submitEvent taker quantity).after.opposite taker.side = (b.walk taker quantity).queue :=
      submit_opposite hq
    obtain ⟨gone, kept, hside, hw⟩ := sweep_walked b.stp taker quantity (b.opposite taker.side)
    have hpos : ∀ o ∈ gone ++ kept, 0 < o.remaining := fun o ho =>
      hv.positive o ((mem_resting taker.side).2 (.inr (hside ▸ ho)))
    have hsorted := hv.crosses_mono taker.side taker.limit
    refine ⟨?_, fun t ht => ?_, fun t ht => ?_, fun hres o ho => ?_⟩
    · rw [htrades]
      have hprices : ((b.walk taker quantity).trades.map (·.price)).Sublist
          ((b.opposite taker.side).map (·.price)) := by
        have := (sweep_makers b.stp taker quantity (b.opposite taker.side)).map Prod.snd
        rwa [List.map_map, List.map_map] at this
      have hopp : ((b.opposite taker.side).map (·.price)).Pairwise fun p q =>
          if taker.side = .buy then p ≤ q else q ≤ p := by
        unfold opposite
        rw [List.pairwise_map]
        by_cases hs : taker.side = .buy
        · simp only [hs, if_true]
          exact hv.askSorted.imp fun h => Int64.not_lt.1 h
        · simp only [if_neg hs]
          exact hv.bidSorted.imp fun h => Int64.not_lt.1 h
      exact List.pairwise_map.1 (hopp.sublist hprices)
    · rw [htrades] at ht
      obtain ⟨o, ho, het, -, hc, -⟩ := hw.trade hpos ht
      have hid : t.makerId = o.id := congrArg Trade.makerId het
      have hprice : t.price = o.price := congrArg Trade.price het
      exact ⟨o, by rw [← hside] at ho; exact ho, hid.symm, hprice.symm, by rw [hprice]; exact hc⟩
    · rw [htrades] at ht
      obtain ⟨o, ho, hid, hrem, hout⟩ := hw.filled (hside ▸ (hv.sideIds taker.side).2.1) ht
      refine ⟨o, ?_, hid, hrem, fun x hx he => ?_⟩
      · show o ∈ b.opposite taker.side
        rw [hside]; exact List.mem_append_left _ ho
      · rw [hafter] at hx
        exact hout (he ▸ List.mem_map_of_mem hx)
    · rw [hafter] at ho
      rcases submit_cases b taker quantity with ⟨h, -⟩ | ⟨-, ⟨-, he⟩ | ⟨hs, hr, he⟩ | ⟨-, -, he⟩⟩
      · exact absurd h hq
      · rw [he] at hres; exact absurd rfl hres
      · exact sweep_rests hsorted (UInt64.pos_iff_ne_zero.1 hr) hs o ho
      · rw [he] at hres; exact absurd rfl hres

/-! ## The orders that stay -/

theorem Shrunk.keys (h : Shrunk b b') (side : Side) : (b'.sides.keys side).Sublist (b.sides.keys side) := by
  unfold Sides.keys Sides.own
  split
  · exact h.bids
  · exact h.asks

theorem insertOrder_sublist (lt : Price → Price → Prop) [DecidableRel lt] (d : OrderData) (l : List OrderData) :
    l.Sublist (insertOrder lt d l) := by
  induction l with
  | nil => exact List.nil_sublist _
  | cons a l ih =>
    rw [insertOrder]
    split
    · exact (List.Sublist.refl _).cons _
    · exact ih.cons_cons _

theorem rest_own (b : ListBook) (taker : Taker) (remaining : Quantity) :
    (b.own taker.side).Sublist ((b.rest taker remaining).own taker.side) := by
  unfold rest own
  by_cases hs : taker.side = .buy
  · simp only [hs, if_true]; exact insertOrder_sublist ..
  · simp only [if_neg hs]; exact insertOrder_sublist ..

/-- A call takes orders out of a side or puts one in, never both. -/
theorem call_keys (b : ListBook) (c : BookCall) (side : Side) :
    ((b.call c).1.sides.keys side).Sublist (b.sides.keys side) ∨
      (b.sides.keys side).Sublist ((b.call c).1.sides.keys side) := by
  cases c with
  | cancel id => exact .inl ((cancel_shrunk b id).keys side)
  | submit id trader ts price quantity =>
    have hsw := (swept_shrunk b ⟨id, trader, ts, price⟩ quantity).keys side
    show ((b.submit ⟨id, trader, ts, price⟩ quantity).1.sides.keys side).Sublist _ ∨
      List.Sublist _ ((b.submit ⟨id, trader, ts, price⟩ quantity).1.sides.keys side)
    rcases submit_cases b ⟨id, trader, ts, price⟩ quantity with ⟨-, he⟩ | ⟨-, ⟨-, he⟩ | ⟨-, -, he⟩ | ⟨-, -, he⟩⟩
    · rw [he]; exact .inl (.refl _)
    · rw [he]; exact .inl hsw
    · rw [he]
      rcases own_or_opposite side ts with h | h
      · refine .inr ?_
        unfold Sides.keys
        rw [sides_own, sides_own, h, h]
        rw [← swept_own b ⟨id, trader, ts, price⟩ (b.walk ⟨id, trader, ts, price⟩ quantity)]
        exact (rest_own _ ⟨id, trader, ts, price⟩ _).map _
      · refine .inl ?_
        unfold Sides.keys at hsw ⊢
        rw [sides_own, sides_own, h, h] at hsw ⊢
        rwa [rest_opposite _ ⟨id, trader, ts, price⟩]
    · rw [he]; exact .inl hsw

/-- No call changes the places of the orders that stay. -/
theorem call_places (hv : b.Valid) (c : BookCall) (side : Side) (h : [x, y].Sublist (b.sides.keys side))
    (hx : x ∈ (b.call c).1.sides.keys side) (hy : y ∈ (b.call c).1.sides.keys side) :
    [x, y].Sublist ((b.call c).1.sides.keys side) := by
  rcases call_keys b c side with hs | hs
  · exact pair_sublist_of_sublist (hv.keys_nodup side) hs h hx hy
  · exact h.trans hs

/-- Nor does any run. -/
theorem run_places (hv : b.Valid) (calls : List BookCall) (side : Side) (h : [x, y].Sublist (b.sides.keys side))
    (hstay : ∀ ev ∈ (Machine.runT eventStep b calls).2, x ∈ ev.after.keys side ∧ y ∈ ev.after.keys side) :
    [x, y].Sublist ((Machine.runT eventStep b calls).1.sides.keys side) := by
  induction calls generalizing b with
  | nil => exact h
  | cons c calls ih =>
    obtain ⟨hx, hy⟩ := hstay _ (List.mem_cons_self ..)
    exact ih (hv.step c) (call_places hv c side h hx hy) fun ev hev => hstay ev (List.mem_cons_of_mem _ hev)

theorem eventRun_numbered (hn : b.Numbered n) (hv : b.Valid) (calls : List BookCall) :
    (Machine.runT eventStep b calls).1.Numbered
      (n + restCount ((Machine.runT eventStep b calls).2.map (·.ret))) := by
  have hstep : ∀ (b : ListBook) c n, b.Valid ∧ b.Numbered n →
      (b.eventStep c).1.Valid ∧ (b.eventStep c).1.Numbered (n + (b.eventStep c).2.ret.rested) :=
    fun b c n h => ⟨h.1.step c, h.2.step h.1 c⟩
  have := Machine.runT_count (w := fun ev : Event => ev.ret.rested) hstep ⟨hv, hn⟩ calls
  unfold restCount
  rw [List.map_map]
  exact this.2

end ListBook

/-! ## Priority over whole runs -/

/-- **Price-time priority.** In every run, of two orders that rest on one side at the same time the
one with the better price, or of equal prices the one with the smaller sequence number, leaves the
book before the other trades; orders that stay keep their places; and each submission trades fairly.
Sequence numbers decide until their counter wraps. -/
theorem OrderBook.run_priority (stp : SelfTradePolicy) (poolCapacity : UInt64) (before mid : List BookCall)
    (c : BookCall) :
    ∃ b₀ b₁ b₂ b₃ evs evs' ev, create stp poolCapacity = some b₀ ∧ Machine.run eventStep b₀ before = some (b₁, evs) ∧
      Machine.run eventStep b₁ mid = some (b₂, evs') ∧ eventStep b₂ c = some (b₃, ev) ∧
      (∀ side, ∀ x ∈ b₁.sides.own side, ∀ y ∈ b₁.sides.own side,
        betterPrice side x.price y.price ∨ restCount ((evs ++ evs').map (·.ret)) + 1 < 2 ^ 64 ∧
          x.price = y.price ∧ x.sequence < y.sequence → ev.LeavesFirst stp side x y) ∧
      (∀ side x y, [x, y].Sublist (b₁.sides.keys side) →
        (∀ e ∈ evs', x ∈ e.after.keys side ∧ y ∈ e.after.keys side) → [x, y].Sublist (b₂.sides.keys side)) ∧
      (∀ id trader side price quantity, ev.call = .submit id trader side price quantity →
        ∃ res, ev.ret = .submitted res ∧ ev.Fair ⟨id, trader, side, price⟩ res) := by
  obtain ⟨b₀, hr, h₀⟩ := create_spec stp poolCapacity
  obtain ⟨b₁, hrun₁, h₁⟩ := event_refines.run h₀ before
  obtain ⟨b₂, hrun₂, h₂⟩ := event_refines.run h₁ mid
  obtain ⟨b₃, hstep, -⟩ := event_refines _ _ c h₂
  have hv₁ := ListBook.eventRun_valid (ListBook.create_valid stp) before
  have hn₁ := ListBook.eventRun_numbered (ListBook.create_numbered stp) (ListBook.create_valid stp) before
  have hv₂ := ListBook.eventRun_valid hv₁ mid
  have hn₂ := ListBook.eventRun_numbered hn₁ hv₁ mid
  have hstp₂ : (Machine.runT ListBook.eventStep (Machine.runT ListBook.eventStep (ListBook.create stp) before).1 mid).1.stp
      = stp := (ListBook.eventRun_stp _ mid).trans (ListBook.eventRun_stp _ before)
  refine ⟨b₀, b₁, b₂, b₃, _, _, _, hr, hrun₁, hrun₂, hstep, fun side x _ y _ hxy => ?_, fun side x y hxy hstay => ?_,
    fun id trader side price quantity hcall => ?_⟩
  · have hcount : restCount (((Machine.runT ListBook.eventStep (ListBook.create stp) before).2 ++
        (Machine.runT ListBook.eventStep (Machine.runT ListBook.eventStep (ListBook.create stp) before).1 mid).2).map (·.ret)) =
        0 + restCount ((Machine.runT ListBook.eventStep (ListBook.create stp) before).2.map (·.ret)) +
        restCount ((Machine.runT ListBook.eventStep
          (Machine.runT ListBook.eventStep (ListBook.create stp) before).1 mid).2.map (·.ret)) := by
      simp [restCount]
    rw [hcount] at hxy
    have := ListBook.leavesFirst hv₂ hn₂ c hxy
    rwa [hstp₂] at this
  · rw [sides_eq h₁] at hxy
    rw [sides_eq h₂]
    exact ListBook.run_places hv₁ mid side hxy hstay
  · obtain rfl : c = .submit id trader side price quantity := hcall
    exact ⟨_, rfl, ListBook.submit_fair hv₂ ⟨id, trader, side, price⟩ quantity⟩

/-! ## When the counter wraps -/

/-- `n` orders come and go, then two rest. -/
def wrapCalls (n : Nat) : List BookCall :=
  (List.replicate n [.submit 1 0 .buy 0 1, .cancel 1]).flatten ++ [.submit 1 0 .buy 0 1, .submit 2 0 .buy 0 1]

namespace ListBook

theorem comeAndGo (n : Nat) (s : Sequence) :
    (Machine.runT eventStep { create .none with nextSeq := s }
      (List.replicate n [BookCall.submit 1 0 .buy 0 1, .cancel 1]).flatten).1 =
      { create .none with nextSeq := s + UInt64.ofNat n } := by
  have hpair : ∀ s : Sequence, (Machine.runT eventStep { create .none with nextSeq := s }
      [BookCall.submit 1 0 .buy 0 1, .cancel 1]).1 = { create .none with nextSeq := s + 1 } := fun s => rfl
  induction n generalizing s with
  | zero => exact congrArg (fun s => { create .none with nextSeq := s }) (UInt64.add_zero s).symm
  | succ n ih =>
    have hnext : s + 1 + UInt64.ofNat n = s + UInt64.ofNat (n + 1) := by
      rw [UInt64.add_assoc, UInt64.add_comm 1, UInt64.ofNat_add n 1]; rfl
    rw [List.replicate_succ, List.flatten_cons, Machine.runT_append, hpair, ih, hnext]

end ListBook

/-- After `2 ^ 64 - 2` rested orders the next two get the last sequence number and `0`: the smaller
one belongs to the order that came later, and the other trades while it stays. -/
theorem OrderBook.sequence_wraps :
    ∃ b₀ b₁ b₂ evs ev, create .none 1 = some b₀ ∧ Machine.run eventStep b₀ (wrapCalls (2 ^ 64 - 2)) = some (b₁, evs) ∧
      eventStep b₁ (.submit 3 1 .sell 0 1) = some (b₂, ev) ∧
      ∃ x ∈ b₁.sides.own .buy, ∃ y ∈ b₁.sides.own .buy, x.price = y.price ∧ x.sequence < y.sequence ∧
        ¬ ev.LeavesFirst .none .buy x y := by
  have hrun : ∀ n s, 1 + UInt64.ofNat n = s →
      (Machine.runT ListBook.eventStep (ListBook.create .none) (wrapCalls n)).1 =
        (Machine.runT ListBook.eventStep { ListBook.create .none with nextSeq := s }
          [.submit 1 0 .buy 0 1, .submit 2 0 .buy 0 1]).1 := by
    rintro n s rfl
    rw [wrapCalls, Machine.runT_append]
    exact congrArg (fun b => (Machine.runT ListBook.eventStep b _).1) (ListBook.comeAndGo n 1)
  obtain ⟨b₀, hr, h₀⟩ := create_spec .none 1
  obtain ⟨b₁, hrun₁, h₁⟩ := event_refines.run h₀ (wrapCalls (2 ^ 64 - 2))
  rw [hrun (2 ^ 64 - 2) 18446744073709551615 (by decide)] at h₁
  obtain ⟨b₂, hstep, -⟩ := event_refines _ _ (.submit 3 1 .sell 0 1) h₁
  refine ⟨b₀, b₁, b₂, _, _, hr, hrun₁, hstep, ?_⟩
  rw [sides_eq h₁]
  refine ⟨⟨2, 0, .buy, 0, 1, 1, 0⟩, by decide, ⟨1, 0, .buy, 0, 1, 1, 18446744073709551615⟩, by decide, rfl,
    by decide, ?_⟩
  intro h
  obtain ⟨hout, -⟩ := h (by decide) [] ⟨0, 1, 3, 1, 1, 0, .sell⟩ [] (by decide) rfl
  exact hout (by decide)

end Obe
