/-
What holds of the reference book after every run: ids rest once, nothing rests without a
remainder, both sides are sorted by price and time, and the book is not crossed. A walk and a
cancel only take orders out or reduce them; a rested order joins its side behind its equals.
-/
import OrderBookEngine.Book.Refinement

namespace Obe

/-! ## What a walk keeps of the orders -/

/-- An order without its remainder: what a fill leaves alone. -/
def OrderData.key (o : OrderData) : OrderData := { o with remaining := 0 }

theorem id_of_key {o o' : OrderData} (h : o'.key = o.key) : o'.id = o.id := by
  have hid : o'.key.id = o.key.id := by rw [h]
  exact hid

/-- A walk takes orders out at the front. -/
theorem sweep_keys (stp : SelfTradePolicy) (taker : Taker) (remaining : Quantity) (queue : List OrderData) :
    (sweep stp taker remaining queue).queue.map OrderData.key <:+ queue.map OrderData.key := by
  obtain ⟨gone, kept, rfl, hk⟩ := sweep_queue stp taker remaining queue
  rw [List.map_append]
  rcases hk with hk | ⟨o, l, t, rfl, -, hk⟩
  · rw [hk]; exact List.suffix_append _ _
  · rw [hk]; exact List.suffix_append _ _

theorem sweep_positive {stp : SelfTradePolicy} {taker : Taker} {remaining : Quantity} {queue : List OrderData}
    (h : ∀ o ∈ queue, 0 < o.remaining) : ∀ o ∈ (sweep stp taker remaining queue).queue, 0 < o.remaining := by
  obtain ⟨gone, kept, rfl, hk⟩ := sweep_queue stp taker remaining queue
  intro d hd
  rcases hk with hk | ⟨o, l, t, rfl, ht, hk⟩
  · rw [hk] at hd; exact h d (List.mem_append_right _ hd)
  · rw [hk] at hd
    rcases List.mem_cons.1 hd with rfl | hd
    · simp only [OrderData.reduce]; grind
    · exact h d (List.mem_append_right _ (List.mem_cons_of_mem _ hd))

/-- When a remainder is left, no order still on the side could have traded with it. -/
theorem sweep_rests {stp : SelfTradePolicy} {taker : Taker} {remaining : Quantity} {queue : List OrderData}
    (hsorted : queue.Pairwise fun x y =>
      crosses taker.side taker.limit y.price = true → crosses taker.side taker.limit x.price = true)
    (hrem : (sweep stp taker remaining queue).remaining ≠ 0) (hs : (sweep stp taker remaining queue).stopped = false) :
    ∀ o ∈ (sweep stp taker remaining queue).queue, crosses taker.side taker.limit o.price = false := by
  induction queue generalizing remaining with
  | nil => simp
  | cons o queue ih =>
    rw [List.pairwise_cons] at hsorted
    rcases sweep_cases stp taker remaining o queue with ⟨hd, h⟩ | ⟨-, -, -, h⟩ | ⟨-, -, -, h⟩ | ⟨-, -, -, h⟩ |
      ⟨-, -, -, h⟩
    · rw [h] at hrem ⊢
      have hc : crosses taker.side taker.limit o.price = false := by simpa [Taker.done, hrem] using hd
      intro d hd
      rcases List.mem_cons.1 hd with rfl | hd
      · exact hc
      · by_contra hcd
        rw [hsorted.1 d hd (by simpa using hcd)] at hc
        cases hc
    · rw [h] at hrem hs ⊢; exact ih hsorted.2 hrem hs
    · rw [h] at hs; cases hs
    · rw [h] at hrem hs ⊢; exact ih hsorted.2 hrem hs
    · rw [h] at hrem; exact absurd rfl hrem

/-- How many orders a call rested. -/
def BookRet.rested : BookRet → Nat
  | .submitted res => if res.resting > 0 then 1 else 0
  | .cancelled _ => 0

/-- How many orders the calls of a run rested. -/
def restCount (rets : List BookRet) : Nat := (rets.map BookRet.rested).sum

namespace ListBook

/-! ## The invariant -/

structure Valid (b : ListBook) : Prop where
  ids : b.ids.Nodup
  positive : ∀ o ∈ b.resting, 0 < o.remaining
  bidSide : ∀ o ∈ b.bids, o.side = .buy
  askSide : ∀ o ∈ b.asks, o.side ≠ .buy
  bidSorted : b.bids.Pairwise fun x y => ¬ bidOrder y.price x.price
  askSorted : b.asks.Pairwise fun x y => ¬ askOrder y.price x.price
  uncrossed : ∀ x ∈ b.bids, ∀ y ∈ b.asks, x.price < y.price

theorem create_valid (stp : SelfTradePolicy) : (create stp).Valid :=
  ⟨List.nodup_nil, by simp [create, resting], by simp [create], by simp [create], .nil, .nil, by simp [create]⟩

/-- Ids rest once on each side and once altogether. -/
theorem Valid.sideIds {b : ListBook} (h : b.Valid) (side : Side) : ((b.own side).map (·.id)).Nodup ∧
    ((b.opposite side).map (·.id)).Nodup ∧
    ∀ i ∈ (b.own side).map (·.id), ∀ j ∈ (b.opposite side).map (·.id), i ≠ j := by
  have hids := h.ids
  unfold ListBook.ids at hids
  rwa [((b.resting_perm side).map _).nodup_iff, List.map_append, List.nodup_append] at hids

/-- The book `b'` came from `b` by taking orders out and reducing some. -/
structure Shrunk (b b' : ListBook) : Prop where
  bids : (b'.bids.map OrderData.key).Sublist (b.bids.map OrderData.key)
  asks : (b'.asks.map OrderData.key).Sublist (b.asks.map OrderData.key)
  positive : (∀ o ∈ b.resting, 0 < o.remaining) → ∀ o ∈ b'.resting, 0 < o.remaining

section Shrink

variable {b b' : ListBook} {l l' : List OrderData}

theorem mem_of_keys {P : OrderData → Prop} (hP : ∀ o, P o ↔ P o.key)
    (hs : (l'.map OrderData.key).Sublist (l.map OrderData.key)) (h : ∀ o ∈ l, P o) : ∀ o ∈ l', P o := by
  intro o ho
  obtain ⟨o', ho', he⟩ := List.mem_map.1 (hs.mem (List.mem_map_of_mem ho))
  rw [hP, ← he, ← hP]
  exact h o' ho'

theorem pairwise_of_keys {R : OrderData → OrderData → Prop} (hR : ∀ x y, R x y ↔ R x.key y.key)
    (hs : (l'.map OrderData.key).Sublist (l.map OrderData.key)) (h : l.Pairwise R) : l'.Pairwise R := by
  have hk : (l.map OrderData.key).Pairwise R := List.pairwise_map.2 (h.imp fun hxy => (hR _ _).1 hxy)
  exact (List.pairwise_map.1 (hk.sublist hs)).imp fun hxy => (hR _ _).2 hxy

theorem Shrunk.resting (h : Shrunk b b') : (b'.resting.map OrderData.key).Sublist (b.resting.map OrderData.key) := by
  unfold ListBook.resting
  rw [List.map_append, List.map_append]
  exact h.bids.append h.asks

theorem Valid.shrink (h : b.Valid) (hs : Shrunk b b') : b'.Valid := by
  refine ⟨?_, hs.positive h.positive, mem_of_keys (fun _ => Iff.rfl) hs.bids h.bidSide,
    mem_of_keys (fun _ => Iff.rfl) hs.asks h.askSide, pairwise_of_keys (fun _ _ => Iff.rfl) hs.bids h.bidSorted,
    pairwise_of_keys (fun _ _ => Iff.rfl) hs.asks h.askSorted, ?_⟩
  · have hids : ∀ b : ListBook, b.ids = (b.resting.map OrderData.key).map (·.id) := by
      intro b; rw [List.map_map]; rfl
    rw [hids]
    exact (hs.resting.map _).nodup (by rw [← hids]; exact h.ids)
  · intro x hx
    refine mem_of_keys (fun _ => Iff.rfl) hs.asks ?_
    intro y hy
    exact mem_of_keys (P := fun x => x.price < y.price) (fun _ => Iff.rfl) hs.bids
      (fun x hx => h.uncrossed x hx y hy) x hx

theorem swept_shrunk (b : ListBook) (taker : Taker) (quantity : Quantity) :
    Shrunk b (b.swept taker (b.walk taker quantity)) := by
  have hk := (sweep_keys b.stp taker quantity (b.opposite taker.side)).sublist
  refine ⟨?_, ?_, fun h o ho => ?_⟩
  · unfold swept setOpposite walk
    unfold opposite at hk ⊢
    split
    · exact .refl _
    · rename_i hs; rw [if_neg hs] at hk; exact hk
  · unfold swept setOpposite walk
    unfold opposite at hk ⊢
    split
    · rename_i hs; rw [if_pos hs] at hk; exact hk
    · exact .refl _
  · rw [mem_resting taker.side, swept_own, swept_opposite] at ho
    rcases ho with ho | ho
    · exact h o ((mem_resting taker.side).2 (.inl ho))
    · exact sweep_positive (fun o ho => h o ((mem_resting taker.side).2 (.inr ho))) o ho

theorem cancel_nextSeq (b : ListBook) (id : OrderId) : (b.cancel id).1.nextSeq = b.nextSeq := by
  unfold cancel; split <;> rfl

theorem cancel_shrunk (b : ListBook) (id : OrderId) : Shrunk b (b.cancel id).1 := by
  unfold cancel
  split
  · refine ⟨List.filter_sublist.map _, List.filter_sublist.map _, fun h o ho => h o ?_⟩
    rcases List.mem_append.1 ho with ho | ho
    · exact List.mem_append_left _ (List.mem_filter.1 ho).1
    · exact List.mem_append_right _ (List.mem_filter.1 ho).1
  · exact ⟨.refl _, .refl _, fun h => h⟩

end Shrink

section Rest

variable {b : ListBook} {taker : Taker} {quantity remaining : Quantity}

section Insert

variable {lt : Price → Price → Prop} [DecidableRel lt] [IsStrictTotalOrder Price lt] {l : List OrderData}

/-- An order inserted into a sorted side stands behind every order that is not worse. -/
theorem insertOrder_split (d : OrderData) (h : l.Pairwise fun x y => ¬ lt y.price x.price) :
    ∃ l₁ l₂, l = l₁ ++ l₂ ∧ insertOrder lt d l = l₁ ++ d :: l₂ ∧ (∀ a ∈ l₁, ¬ lt d.price a.price) ∧
      (∀ a ∈ l₂, lt d.price a.price) := by
  induction l with
  | nil => exact ⟨[], [], rfl, rfl, by simp, by simp⟩
  | cons a l ih =>
    rw [List.pairwise_cons] at h
    rw [insertOrder]
    split
    · rename_i hlt
      refine ⟨[], a :: l, rfl, rfl, by simp, fun x hx => ?_⟩
      rcases List.mem_cons.1 hx with rfl | hx
      · exact hlt
      · rcases trichotomous_of lt a.price x.price with hax | hax | hax
        · exact IsTrans.trans _ _ _ hlt hax
        · rwa [← hax]
        · exact absurd hax (h.1 x hx)
    · rename_i hlt
      obtain ⟨l₁, l₂, rfl, h2, h3, h4⟩ := ih h.2
      refine ⟨a :: l₁, l₂, rfl, by rw [h2]; rfl, ?_, h4⟩
      rintro x hx
      rcases List.mem_cons.1 hx with rfl | hx
      · exact hlt
      · exact h3 x hx

theorem insertOrder_sorted {d : OrderData} (h : l.Pairwise fun x y => ¬ lt y.price x.price) :
    (insertOrder lt d l).Pairwise fun x y => ¬ lt y.price x.price := by
  obtain ⟨l₁, l₂, rfl, he, h1, h2⟩ := insertOrder_split d h
  rw [List.pairwise_append] at h
  rw [he, List.pairwise_append, List.pairwise_cons]
  refine ⟨h.1, ⟨fun a ha hlt => Std.Irrefl.irrefl _ (IsTrans.trans _ _ _ (h2 a ha) hlt), h.2.1⟩, fun x hx y hy => ?_⟩
  rcases List.mem_cons.1 hy with rfl | hy
  · exact h1 x hx
  · exact h.2.2 x hx y hy

/-- Of equal prices, the one that arrived first stands in front. -/
def InTime (l : List OrderData) : Prop := l.Pairwise fun x y => x.price = y.price → x.sequence < y.sequence

theorem insertOrder_inTime {d : OrderData} (h : l.Pairwise fun x y => ¬ lt y.price x.price) (ht : InTime l)
    (hd : ∀ a ∈ l, a.sequence < d.sequence) : InTime (insertOrder lt d l) := by
  obtain ⟨l₁, l₂, rfl, he, h1, h2⟩ := insertOrder_split d h
  unfold InTime at ht ⊢
  rw [List.pairwise_append] at ht
  rw [he, List.pairwise_append, List.pairwise_cons]
  refine ⟨ht.1, ⟨fun a ha hp => ?_, ht.2.1⟩, fun x hx y hy => ?_⟩
  · have := h2 a ha
    rw [hp] at this
    exact absurd this (Std.Irrefl.irrefl _)
  · rcases List.mem_cons.1 hy with rfl | hy
    · exact fun _ => hd x (List.mem_append_left _ hx)
    · exact ht.2.2 x hx y hy

end Insert

theorem rest_resting_perm (b : ListBook) (taker : Taker) (remaining : Quantity) :
    (b.rest taker remaining).resting.Perm (b.newOrder taker remaining :: b.resting) := by
  unfold rest resting
  dsimp only
  split
  · exact (insertOrder_perm _ _ _).append_right _
  · exact ((insertOrder_perm _ _ _).append_left _).trans List.perm_middle

/-- Resting a remainder that no opposite order crosses. -/
theorem Valid.rest (h : b.Valid) (hid : taker.id ∉ b.ids) (hpos : 0 < remaining)
    (hc : ∀ o ∈ b.opposite taker.side, crosses taker.side taker.limit o.price = false) :
    (b.rest taker remaining).Valid := by
  have hperm := rest_resting_perm b taker remaining
  have hids : (b.rest taker remaining).ids.Nodup := by
    unfold ListBook.ids
    rw [(hperm.map _).nodup_iff, List.map_cons, List.nodup_cons]
    exact ⟨hid, h.ids⟩
  have hpositive : ∀ o ∈ (b.rest taker remaining).resting, 0 < o.remaining := by
    intro o ho
    rcases List.mem_cons.1 (hperm.mem_iff.1 ho) with rfl | ho
    · exact hpos
    · exact h.positive o ho
  revert hids hpositive
  unfold ListBook.rest
  unfold opposite at hc
  by_cases hs : taker.side = .buy
  · simp only [hs, if_true] at hc ⊢
    intro hids hpositive
    refine ⟨hids, hpositive, fun o ho => ?_, h.askSide, insertOrder_sorted h.bidSorted, h.askSorted,
      fun x hx y hy => ?_⟩
    · rcases List.mem_cons.1 ((insertOrder_perm _ _ _).mem_iff.1 ho) with rfl | ho
      · exact hs
      · exact h.bidSide o ho
    · rcases List.mem_cons.1 ((insertOrder_perm _ _ _).mem_iff.1 hx) with rfl | hx
      · have := hc y hy
        simp only [crosses, if_true, decide_eq_false_iff_not] at this
        show taker.limit < y.price
        grind
      · exact h.uncrossed x hx y hy
  · simp only [if_neg hs] at hc ⊢
    intro hids hpositive
    refine ⟨hids, hpositive, h.bidSide, fun o ho => ?_, h.bidSorted, insertOrder_sorted h.askSorted,
      fun x hx y hy => ?_⟩
    · rcases List.mem_cons.1 ((insertOrder_perm _ _ _).mem_iff.1 ho) with rfl | ho
      · exact hs
      · exact h.askSide o ho
    · rcases List.mem_cons.1 ((insertOrder_perm _ _ _).mem_iff.1 hy) with rfl | hy
      · have := hc x hx
        simp only [crosses, if_neg hs, decide_eq_false_iff_not] at this
        show x.price < taker.limit
        grind
      · exact h.uncrossed x hx y hy

/-- A taker that crosses an order crosses every better one. -/
theorem Valid.crosses_mono (h : b.Valid) (side : Side) (limit : Price) : (b.opposite side).Pairwise fun x y =>
    crosses side limit y.price = true → crosses side limit x.price = true := by
  unfold opposite
  split
  · rename_i hs
    refine h.askSorted.imp fun {x y} hxy => ?_
    simp only [crosses, if_pos hs, decide_eq_true_eq]
    grind
  · rename_i hs
    refine h.bidSorted.imp fun {x y} hxy => ?_
    simp only [crosses, if_neg hs, decide_eq_true_eq]
    grind

/-- What `submit` does to the book, and to the result. -/
theorem submit_cases (b : ListBook) (taker : Taker) (quantity : Quantity) :
    ((quantity = 0 ∨ taker.id ∈ b.ids) ∧
      b.submit taker quantity = ({ b with trades := [] }, { SubmitResult.new with status := .rejected })) ∨
    ((quantity ≠ 0 ∧ taker.id ∉ b.ids) ∧
      (((b.walk taker quantity).stopped = true ∧ b.submit taker quantity =
          (b.swept taker (b.walk taker quantity),
            ⟨.cancelledBySelfTrade, quantity - (b.walk taker quantity).remaining, 0,
              (b.walk taker quantity).trades.length⟩)) ∨
        ((b.walk taker quantity).stopped = false ∧ 0 < (b.walk taker quantity).remaining ∧ b.submit taker quantity =
          ((b.swept taker (b.walk taker quantity)).rest taker (b.walk taker quantity).remaining,
            ⟨if quantity - (b.walk taker quantity).remaining > 0 then .partiallyFilled else .rested,
              quantity - (b.walk taker quantity).remaining, (b.walk taker quantity).remaining,
              (b.walk taker quantity).trades.length⟩)) ∨
        ((b.walk taker quantity).stopped = false ∧ (b.walk taker quantity).remaining = 0 ∧ b.submit taker quantity =
          (b.swept taker (b.walk taker quantity), ⟨.fullyFilled, quantity, 0,
            (b.walk taker quantity).trades.length⟩)))) := by
  by_cases hq : quantity = 0 ∨ taker.id ∈ b.ids
  · exact .inl ⟨hq, by rw [submit, if_pos hq]⟩
  · refine .inr ⟨not_or.1 hq, ?_⟩
    cases hs : (b.walk taker quantity).stopped with
    | true => exact .inl ⟨rfl, by simp [submit, hq, hs, SubmitResult.new]⟩
    | false =>
      by_cases hr : (b.walk taker quantity).remaining = 0
      · exact .inr (.inr ⟨rfl, hr, by simp [submit, hq, hs, hr, SubmitResult.new]⟩)
      · have hpos : 0 < (b.walk taker quantity).remaining := UInt64.pos_iff_ne_zero.2 hr
        exact .inr (.inl ⟨rfl, hpos, by simp [submit, hq, hs, hpos]⟩)

theorem submit_refused (h : quantity = 0 ∨ taker.id ∈ b.ids) :
    b.submit taker quantity = ({ b with trades := [] }, { SubmitResult.new with status := .rejected }) := by
  rw [submit, if_pos h]

/-- Resting another order leaves an order as it is. -/
theorem mem_rest_of_mem {o : OrderData} (ho : o ∈ b.resting) (taker : Taker) (remaining : Quantity) :
    o ∈ (b.rest taker remaining).resting :=
  (rest_resting_perm b taker remaining).mem_iff.2 (List.mem_cons_of_mem _ ho)

/-- The books after an accepted order hold, of the others, what its walk left. -/
theorem submit_accepted (hq : ¬ (quantity = 0 ∨ taker.id ∈ b.ids)) :
    (b.submit taker quantity).1.trades = (b.walk taker quantity).trades ∧
      (∀ x ∈ (b.swept taker (b.walk taker quantity)).resting, x ∈ (b.submit taker quantity).1.resting) ∧
      (∀ x ∈ (b.submit taker quantity).1.resting, x.id = taker.id ∨
        x ∈ (b.swept taker (b.walk taker quantity)).resting) := by
  rcases submit_cases b taker quantity with ⟨h, -⟩ | ⟨-, ⟨-, he⟩ | ⟨-, -, he⟩ | ⟨-, -, he⟩⟩
  · exact absurd h hq
  · rw [he]; exact ⟨swept_trades .., fun _ hx => hx, fun _ hx => .inr hx⟩
  · rw [he]
    refine ⟨by rw [rest_trades, swept_trades], fun x hx => mem_rest_of_mem hx _ _, fun x hx => ?_⟩
    rcases List.mem_cons.1 ((rest_resting_perm _ _ _).mem_iff.1 hx) with rfl | hx
    · exact .inl rfl
    · exact .inr hx
  · rw [he]; exact ⟨swept_trades .., fun _ hx => hx, fun _ hx => .inr hx⟩

theorem call_stp (b : ListBook) (c : BookCall) : (b.call c).1.stp = b.stp := by
  cases c with
  | submit id trader side price quantity =>
    show (b.submit ⟨id, trader, side, price⟩ quantity).1.stp = b.stp
    rcases submit_cases b ⟨id, trader, side, price⟩ quantity with ⟨-, he⟩ | ⟨-, ⟨-, he⟩ | ⟨-, -, he⟩ | ⟨-, -, he⟩⟩
    · rw [he]
    · rw [he, swept_stp]
    · rw [he, rest_stp, swept_stp]
    · rw [he, swept_stp]
  | cancel id => show (b.cancel id).1.stp = b.stp; unfold cancel; split <;> rfl

theorem Valid.trades (h : b.Valid) (ts : List Trade) : ({ b with trades := ts } : ListBook).Valid :=
  ⟨h.ids, h.positive, h.bidSide, h.askSide, h.bidSorted, h.askSorted, h.uncrossed⟩

theorem Valid.submit (h : b.Valid) (taker : Taker) (quantity : Quantity) : (b.submit taker quantity).1.Valid := by
  have hsw := h.shrink (swept_shrunk b taker quantity)
  rcases submit_cases b taker quantity with ⟨-, he⟩ | ⟨⟨-, hid⟩, ⟨-, he⟩ | ⟨hs, hr, he⟩ | ⟨-, -, he⟩⟩
  · rw [he]; exact h.trades []
  · rw [he]; exact hsw
  · rw [he]
    refine hsw.rest (fun hm => hid (swept_ids hm)) hr fun o ho => ?_
    rw [swept_opposite] at ho
    exact sweep_rests (h.crosses_mono taker.side taker.limit) (UInt64.pos_iff_ne_zero.1 hr) hs o ho
  · rw [he]; exact hsw

theorem Valid.step (h : b.Valid) (c : BookCall) : (b.step c).1.Valid := by
  cases c with
  | submit id trader side price quantity => exact h.submit _ quantity
  | cancel id => exact h.shrink (cancel_shrunk b id)

/-- What holds of the reference book after every run from the constructor. -/
theorem reached_valid (stp : SelfTradePolicy) (calls : List BookCall) :
    (Machine.runT step (create stp) calls).1.Valid ∧ (Machine.runT step (create stp) calls).1.stp = stp :=
  Machine.runT_invariant (P := fun q : ListBook => q.Valid ∧ q.stp = stp)
    (fun q c hq => ⟨hq.1.step c, (q.call_stp c).trans hq.2⟩) ⟨create_valid stp, rfl⟩ calls

end Rest

/-! ## Sequence numbers -/

/-- `n` orders were rested so far. Until the counter wraps, sequence numbers tell the order of
arrival. -/
structure Numbered (b : ListBook) (n : Nat) : Prop where
  next : b.nextSeq = UInt64.ofNat (n + 1)
  below : n + 1 < 2 ^ 64 → ∀ o ∈ b.resting, o.sequence < b.nextSeq
  bids : n + 1 < 2 ^ 64 → InTime b.bids
  asks : n + 1 < 2 ^ 64 → InTime b.asks

section Numbered

variable {b b' : ListBook} {n : Nat}

theorem create_numbered (stp : SelfTradePolicy) : (create stp).Numbered 0 :=
  ⟨rfl, fun _ => by simp [create, resting], fun _ => .nil, fun _ => .nil⟩

theorem Numbered.shrink (h : b.Numbered n) (hs : Shrunk b b') (hn : b'.nextSeq = b.nextSeq) : b'.Numbered n :=
  ⟨hn.trans h.next, fun hlt => hn ▸ mem_of_keys (fun _ => Iff.rfl) hs.resting (h.below hlt),
    fun hlt => pairwise_of_keys (fun _ _ => Iff.rfl) hs.bids (h.bids hlt),
    fun hlt => pairwise_of_keys (fun _ _ => Iff.rfl) hs.asks (h.asks hlt)⟩

theorem Numbered.rest (h : b.Numbered n) (hv : b.Valid) (taker : Taker) (remaining : Quantity) :
    (b.rest taker remaining).Numbered (n + 1) := by
  have hnext : (b.rest taker remaining).nextSeq = UInt64.ofNat (n + 1 + 1) := by
    rw [rest_nextSeq, h.next]; exact (UInt64.ofNat_add (n + 1) 1).symm
  have hlt : n + 1 + 1 < 2 ^ 64 → b.nextSeq < (b.rest taker remaining).nextSeq := by
    intro hn
    rw [hnext, h.next, UInt64.lt_iff_toNat_lt, UInt64.toNat_ofNat', UInt64.toNat_ofNat']
    omega
  refine ⟨hnext, fun hn o ho => ?_, fun hn => ?_, fun hn => ?_⟩
  · rcases List.mem_cons.1 ((rest_resting_perm b taker remaining).mem_iff.1 ho) with rfl | ho
    · exact hlt hn
    · have := h.below (by omega) o ho
      have := hlt hn
      grind
  · unfold ListBook.rest
    dsimp only
    split
    · exact insertOrder_inTime hv.bidSorted (h.bids (by omega))
        fun a ha => h.below (by omega) a (List.mem_append_left _ ha)
    · exact h.bids (by omega)
  · unfold ListBook.rest
    dsimp only
    split
    · exact h.asks (by omega)
    · exact insertOrder_inTime hv.askSorted (h.asks (by omega))
        fun a ha => h.below (by omega) a (List.mem_append_right _ ha)

theorem Numbered.step (h : b.Numbered n) (hv : b.Valid) (c : BookCall) :
    (b.step c).1.Numbered (n + (b.step c).2.1.rested) := by
  cases c with
  | submit id trader side price quantity =>
    have hsw := h.shrink (swept_shrunk b ⟨id, trader, side, price⟩ quantity) (swept_nextSeq ..)
    have hvs := hv.shrink (swept_shrunk b ⟨id, trader, side, price⟩ quantity)
    show (b.submit ⟨id, trader, side, price⟩ quantity).1.Numbered
      (n + (BookRet.submitted (b.submit ⟨id, trader, side, price⟩ quantity).2).rested)
    rcases submit_cases b ⟨id, trader, side, price⟩ quantity with
      ⟨-, he⟩ | ⟨-, ⟨-, he⟩ | ⟨-, hr, he⟩ | ⟨-, -, he⟩⟩
    · rw [he]; exact ⟨h.next, h.below, h.bids, h.asks⟩
    · rw [he]; exact hsw
    · rw [he]
      have hone : BookRet.rested (.submitted
          ⟨if quantity - (b.walk ⟨id, trader, side, price⟩ quantity).remaining > 0 then .partiallyFilled else .rested,
          quantity - (b.walk ⟨id, trader, side, price⟩ quantity).remaining,
          (b.walk ⟨id, trader, side, price⟩ quantity).remaining,
          (b.walk ⟨id, trader, side, price⟩ quantity).trades.length⟩) = 1 := if_pos hr
      rw [hone]
      exact hsw.rest hvs _ _
    · rw [he]; exact hsw
  | cancel id => exact h.shrink (cancel_shrunk b id) (cancel_nextSeq b id)

/-- Every run of the reference book keeps both invariants. -/
theorem run_valid (h : b.Numbered n) (hv : b.Valid) (calls : List BookCall) :
    (Machine.runT step b calls).1.Valid ∧
      (Machine.runT step b calls).1.Numbered (n + restCount ((Machine.runT step b calls).2.map (·.1))) := by
  have := Machine.runT_count (P := fun (b : ListBook) n => b.Valid ∧ b.Numbered n)
    (w := fun o : BookRet × Observation => o.1.rested) (fun b c n h => ⟨h.1.step c, h.2.step h.1 c⟩) ⟨hv, h⟩ calls
  unfold restCount
  rwa [List.map_map]

end Numbered

end ListBook

end Obe
