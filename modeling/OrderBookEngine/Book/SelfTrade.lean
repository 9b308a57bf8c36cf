/-
Self-trade prevention. No trade of a policy other than `none` has the same trader on both sides; a
`CancelResting` book takes out exactly the taker's own orders that it reaches with quantity left, and
a `CancelAggressing` book stops in front of the first of them.
-/
import OrderBookEngine.Book.Conservation

namespace Obe

/-- `o` rested before the event and is gone after it, though the trades did not use it up. -/
def Event.RemovesUnfilled (ev : Event) (o : OrderData) : Prop :=
  o ∈ ev.before.resting ∧ ev.after.find o.id = none ∧ asMaker o.id ev.trades < o.remaining.toNat

/-- In price-time order the taker comes to its own order `o`, which crosses, with quantity left of what
the orders of others in front of it take. -/
structure Sides.ReachesOwn (s : Sides) (taker : Taker) (quantity : Quantity) (l₁ : List OrderData) (o : OrderData)
    (l₂ : List OrderData) : Prop where
  place : s.opposite taker.side = l₁ ++ o :: l₂
  own : o.trader = taker.trader
  crosses : crosses taker.side taker.limit o.price = true
  left : openQuantity (l₁.filter (·.trader ≠ taker.trader)) < quantity.toNat

/-! ## Where the quantity runs out -/

section Split

variable {α : Type} {a x : α} {l : List α} {P : List α → List α → Prop}

/-- A place in a list is its head, or one in its tail. -/
theorem exists_split_cons : (∃ l₁ l₂, a :: l = l₁ ++ x :: l₂ ∧ P l₁ l₂) ↔
    (a = x ∧ P [] l) ∨ ∃ l₁ l₂, l = l₁ ++ x :: l₂ ∧ P (a :: l₁) l₂ := by
  constructor
  · rintro ⟨l₁, l₂, h, hp⟩
    cases l₁ with
    | nil =>
      obtain ⟨rfl, rfl⟩ := List.cons.inj h
      exact .inl ⟨rfl, hp⟩
    | cons c l₁ =>
      obtain ⟨rfl, rfl⟩ := List.cons.inj h
      exact .inr ⟨l₁, l₂, rfl, hp⟩
  · rintro (⟨rfl, hp⟩ | ⟨l₁, l₂, rfl, hp⟩)
    · exact ⟨[], l, rfl, hp⟩
    · exact ⟨a :: l₁, l₂, rfl, hp⟩

end Split

section Walk

variable {stp : SelfTradePolicy} {taker : Taker} {quantity : Quantity} {o : OrderData} {queue l₁ l₂ : List OrderData}

theorem openQuantity_cons (o : OrderData) (l : List OrderData) :
    openQuantity (o :: l) = o.remaining.toNat + openQuantity l := rfl

/-- An own order leaves a `CancelResting` book when the taker reaches it with quantity left. -/
theorem sweep_takes_iff (hp : stp = .cancelResting) (hs : selfTrade stp taker o = true)
    (hsorted : queue.Pairwise fun x y =>
      crosses taker.side taker.limit y.price = true → crosses taker.side taker.limit x.price = true)
    (hnd : (queue.map (·.id)).Nodup) (ho : o ∈ queue) :
    o.id ∉ (sweep stp taker quantity queue).queue.map (·.id) ↔
      ∃ l₁ l₂, queue = l₁ ++ o :: l₂ ∧ crosses taker.side taker.limit o.price = true ∧
        openQuantity (makers stp taker l₁) < quantity.toNat := by
  induction queue generalizing quantity with
  | nil => simp at ho
  | cons x queue ih =>
    rw [List.map_cons, List.nodup_cons] at hnd
    rw [List.pairwise_cons] at hsorted
    have hother : selfTrade stp taker x = false → x ≠ o := by
      rintro hx rfl
      rw [hs] at hx
      cases hx
    have htail : x ≠ o → o ∈ queue := fun hxo => (List.mem_cons.1 ho).resolve_left (Ne.symm hxo)
    rw [exists_split_cons]
    rcases sweep_cases stp taker quantity x queue with
      ⟨hd, he⟩ | ⟨hd, hx, -, he⟩ | ⟨-, -, hne, -⟩ | ⟨hd, hx, hf, he⟩ | ⟨hd, hx, hf, he⟩
    · -- the walk ends: nothing is left, or nothing more crosses
      have hin : o.id ∈ (x :: queue).map (·.id) := List.mem_map_of_mem ho
      have hcross : crosses taker.side taker.limit o.price = true → quantity = 0 := by
        intro hc
        have hcx : crosses taker.side taker.limit x.price = true := by
          rcases List.mem_cons.1 ho with rfl | hm
          · exact hc
          · exact hsorted.1 o hm hc
        simpa [Taker.done, hcx] using hd
      rw [he]
      refine iff_of_false (not_not.2 hin) ?_
      rintro (⟨-, hc, hlt⟩ | ⟨l₁, l₂, -, hc, hlt⟩)
      · rw [hcross hc] at hlt
        exact absurd hlt (Nat.not_lt_zero _)
      · rw [hcross hc] at hlt
        exact absurd hlt (Nat.not_lt_zero _)
    · -- an own order in front
      obtain ⟨h0, hc⟩ := not_done_iff.1 hd
      rw [he]
      by_cases hxo : x = o
      · subst hxo
        refine iff_of_true (fun hm => hnd.1 (sweep_id_mem hm)) (.inl ⟨rfl, hc, ?_⟩)
        exact UInt64.lt_iff_toNat_lt.1 (UInt64.pos_iff_ne_zero.2 h0)
      · have hm := htail hxo
        rw [ih hsorted.2 hnd.2 hm]
        simp only [hxo, false_and, false_or, makers_cons_own hx]
    · exact absurd hp hne
    · -- a maker that is consumed
      have hxo := hother hx
      have hm := htail hxo
      have hsub : (quantity - x.remaining).toNat = quantity.toNat - x.remaining.toNat := UInt64.toNat_sub_of_le _ _ hf
      have hlt : ∀ n, n < (quantity - x.remaining).toNat ↔ x.remaining.toNat + n < quantity.toNat := by
        intro n
        rw [hsub]; omega
      rw [he]
      show o.id ∉ (sweep stp taker (quantity - x.remaining) queue).queue.map (·.id) ↔ _
      rw [ih hsorted.2 hnd.2 hm]
      simp only [hxo, false_and, false_or, makers_cons hx, openQuantity_cons, hlt]
    · -- a maker that consumes the taker
      have hxo := hother hx
      have hm := htail hxo
      rw [he]
      refine iff_of_false (not_not.2 (List.mem_cons_of_mem _ (List.mem_map_of_mem hm))) ?_
      rintro (⟨h, -⟩ | ⟨l₁, l₂, -, -, hlt⟩)
      · exact hxo h
      · rw [makers_cons hx, openQuantity_cons] at hlt
        have := UInt64.lt_iff_toNat_lt.1 hf
        omega

/-- A walk that stops has consumed what was in front of an own order, with quantity left. -/
theorem sweep_stopped (h : (sweep stp taker quantity queue).stopped = true) (hp : stp ≠ .cancelResting) :
    ∃ l₁ o l₂, queue = l₁ ++ o :: l₂ ∧ (∀ x ∈ l₁, selfTrade stp taker x = false) ∧ selfTrade stp taker o = true ∧
      crosses taker.side taker.limit o.price = true ∧ openQuantity l₁ < quantity.toNat := by
  induction queue generalizing quantity with
  | nil => cases h
  | cons x queue ih =>
    rcases sweep_cases stp taker quantity x queue with
      ⟨-, he⟩ | ⟨-, -, hr, -⟩ | ⟨hd, hx, -, -⟩ | ⟨-, hx, hf, he⟩ | ⟨-, -, -, he⟩
    · rw [he] at h
      cases h
    · exact absurd hr hp
    · obtain ⟨h0, hc⟩ := not_done_iff.1 hd
      refine ⟨[], x, queue, rfl, by simp, hx, hc, ?_⟩
      exact UInt64.lt_iff_toNat_lt.1 (UInt64.pos_iff_ne_zero.2 h0)
    · rw [he] at h
      obtain ⟨l₁, o, l₂, rfl, hforeign, ho, hc, hq⟩ := ih h
      refine ⟨x :: l₁, o, l₂, rfl, ?_, ho, hc, ?_⟩
      · intro y hy
        rcases List.mem_cons.1 hy with rfl | hy
        · exact hx
        · exact hforeign y hy
      · rw [UInt64.toNat_sub_of_le _ _ hf] at hq
        rw [openQuantity_cons]
        omega
    · rw [he] at h
      cases h

/-- A walk stops in front of an own order that it reaches with quantity left. -/
theorem sweep_reaches (hp : stp ≠ .cancelResting) (hs : selfTrade stp taker o = true)
    (hc : ∀ x ∈ l₁ ++ [o], crosses taker.side taker.limit x.price = true)
    (hforeign : ∀ x ∈ l₁, selfTrade stp taker x = false) (hq : openQuantity l₁ < quantity.toNat) :
    (sweep stp taker quantity (l₁ ++ o :: l₂)).stopped = true ∧
      (sweep stp taker quantity (l₁ ++ o :: l₂)).queue = o :: l₂ := by
  have hdone : ∀ x ∈ l₁ ++ [o], taker.done quantity x = false := by
    intro x hx
    refine not_done_iff.2 ⟨?_, hc x hx⟩
    rintro rfl
    exact absurd hq (Nat.not_lt_zero _)
  induction l₁ generalizing quantity with
  | nil =>
    rw [List.nil_append, sweep_aggressing (hdone o (List.mem_singleton_self o)) hs hp]
    exact ⟨rfl, rfl⟩
  | cons x l₁ ih =>
    rw [openQuantity_cons] at hq
    have hle : x.remaining ≤ quantity := UInt64.le_iff_toNat_le.2 (by omega)
    have hlt : openQuantity l₁ < (quantity - x.remaining).toNat := by
      rw [UInt64.toNat_sub_of_le _ _ hle]
      omega
    have hrest : ∀ y ∈ l₁ ++ [o], crosses taker.side taker.limit y.price = true :=
      fun y hy => hc y (List.mem_cons_of_mem _ hy)
    have hleft : quantity - x.remaining ≠ 0 := by
      intro h0
      rw [h0] at hlt
      exact absurd hlt (Nat.not_lt_zero _)
    rw [List.cons_append, sweep_fill (hdone x (List.mem_cons_self ..)) (hforeign x (List.mem_cons_self ..)) hle]
    exact ih hrest (fun y hy => hforeign y (List.mem_cons_of_mem _ hy)) hlt
      fun y hy => not_done_iff.2 ⟨hleft, hrest y hy⟩

end Walk

theorem selfTrade_iff {stp : SelfTradePolicy} {taker : Taker} {o : OrderData} (hp : stp ≠ .none) :
    selfTrade stp taker o = true ↔ o.trader = taker.trader := by
  simp [selfTrade, hp]

/-- With a policy, the makers are the orders of other traders. -/
theorem makers_eq {stp : SelfTradePolicy} (hp : stp ≠ .none) (taker : Taker) (l : List OrderData) :
    makers stp taker l = l.filter (·.trader ≠ taker.trader) := by
  refine List.filter_congr fun o _ => ?_
  simp [selfTrade, hp]

namespace ListBook

variable {b : ListBook} {taker : Taker} {quantity : Quantity} {o : OrderData}

/-! ## One submission -/

/-- After an accepted submission an order is gone when its walk took it. -/
theorem find_submit_none (hq : ¬ (quantity = 0 ∨ taker.id ∈ b.ids)) (ho : o ∈ b.resting) :
    (b.submit taker quantity).1.sides.find o.id = none ↔ o.id ∉ (b.swept taker (b.walk taker quantity)).ids := by
  obtain ⟨-, hkeep, hnew⟩ := submit_accepted hq
  rw [find_eq_none, not_iff_not]
  constructor
  · intro hm
    obtain ⟨x, hx, hid⟩ := List.mem_map.1 hm
    rcases hnew x hx with hx | hx
    · exact absurd (.inr (hx ▸ hid ▸ List.mem_map_of_mem ho)) hq
    · exact hid ▸ List.mem_map_of_mem hx
  · intro hm
    obtain ⟨x, hx, hid⟩ := List.mem_map.1 hm
    exact hid ▸ List.mem_map_of_mem (hkeep x hx)

/-- A refused submission removes nothing. -/
theorem not_removes_of_refused (h : quantity = 0 ∨ taker.id ∈ b.ids) (o : OrderData) :
    ¬ (b.submitEvent taker quantity).RemovesUnfilled o := by
  rintro ⟨ho, hnone, -⟩
  have hafter : (b.submitEvent taker quantity).after = b.sides := by
    show (b.submit taker quantity).1.sides = b.sides
    rw [submit_refused h]
    rfl
  rw [hafter, find_eq_none] at hnone
  exact hnone (List.mem_map_of_mem ho)

/-- What an accepted submission removes unfilled: own orders that a `CancelResting` walk took. -/
theorem removes_iff (hv : b.Valid) (hq : ¬ (quantity = 0 ∨ taker.id ∈ b.ids)) :
    (b.submitEvent taker quantity).RemovesUnfilled o ↔ b.stp = .cancelResting ∧ o ∈ b.opposite taker.side ∧
      o.trader = taker.trader ∧ o.id ∉ (b.walk taker quantity).queue.map (·.id) := by
  have hids := hv.sideIds taker.side
  have htrades : (b.submitEvent taker quantity).trades = (b.walk taker quantity).trades := (submit_accepted hq).1
  -- the swept book holds the own side and what the walk left
  have hswept : ∀ i, i ∈ (b.swept taker (b.walk taker quantity)).ids ↔
      i ∈ (b.own taker.side).map (·.id) ∨ i ∈ (b.walk taker quantity).queue.map (·.id) := by
    intro i
    unfold ids
    rw [((resting_perm _ taker.side).map _).mem_iff, List.map_append, List.mem_append, swept_own, swept_opposite]
  unfold Event.RemovesUnfilled
  rw [htrades]
  constructor
  · rintro ⟨ho, hnone, hlt⟩
    have hgone := (find_submit_none hq ho).1 hnone
    rcases swept_account hv ho taker quantity with ⟨-, hmk⟩ | ⟨o', ho', hkey, -⟩
    · have hown : b.stp = .cancelResting ∧ o.trader = taker.trader := by
        by_contra hc
        rw [hmk, if_neg hc] at hlt
        exact absurd hlt (Nat.lt_irrefl _)
      rw [hswept, not_or] at hgone
      refine ⟨hown.1, ?_, hown.2, hgone.2⟩
      exact ((mem_resting taker.side).1 ho).resolve_left fun h => hgone.1 (List.mem_map_of_mem h)
    · exact absurd (id_of_key hkey ▸ List.mem_map_of_mem ho') hgone
  · rintro ⟨hp, ho, htr, hout⟩
    have hres : o ∈ b.resting := (mem_resting taker.side).2 (.inr ho)
    have hgone : o.id ∉ (b.swept taker (b.walk taker quantity)).ids := by
      rw [hswept, not_or]
      exact ⟨fun hm => hids.2.2 _ hm _ (List.mem_map_of_mem ho) rfl, hout⟩
    refine ⟨hres, (find_submit_none hq hres).2 hgone, ?_⟩
    rcases swept_account hv hres taker quantity with ⟨-, hmk⟩ | ⟨o', ho', hkey, -⟩
    · rw [hmk, if_pos ⟨hp, htr⟩]
      exact UInt64.lt_iff_toNat_lt.1 (hv.positive o hres)
    · exact absurd (id_of_key hkey ▸ List.mem_map_of_mem ho') hgone

/-- **A `CancelResting` book removes the own orders it reaches with quantity left**, and nothing else. -/
theorem cancelResting_removes (hv : b.Valid) (hp : b.stp = .cancelResting) :
    (b.submitEvent taker quantity).RemovesUnfilled o ↔ ¬ (quantity = 0 ∨ taker.id ∈ b.ids) ∧
      ∃ l₁ l₂, b.sides.ReachesOwn taker quantity l₁ o l₂ := by
  have hnone : b.stp ≠ .none := by rw [hp]; decide
  by_cases hq : quantity = 0 ∨ taker.id ∈ b.ids
  · exact iff_of_false (not_removes_of_refused hq o) fun h => h.1 hq
  rw [removes_iff hv hq, and_iff_right hq]
  have htakes : o ∈ b.opposite taker.side → o.trader = taker.trader → _ := fun ho htr =>
    @sweep_takes_iff b.stp taker quantity o _ hp ((selfTrade_iff hnone).2 htr) (hv.crosses_mono taker.side taker.limit)
      (hv.sideIds taker.side).2.1 ho
  constructor
  · rintro ⟨-, ho, htr, hout⟩
    obtain ⟨l₁, l₂, hsplit, hc, hlt⟩ := (htakes ho htr).1 hout
    rw [makers_eq hnone] at hlt
    exact ⟨l₁, l₂, hsplit, htr, hc, hlt⟩
  · rintro ⟨l₁, l₂, hsplit, htr, hc, hlt⟩
    have hsplit' : b.opposite taker.side = l₁ ++ o :: l₂ := hsplit
    have ho : o ∈ b.opposite taker.side := by
      rw [hsplit']
      exact List.mem_append_right _ (List.mem_cons_self ..)
    refine ⟨hp, ho, htr, (htakes ho htr).2 ⟨l₁, l₂, hsplit', hc, ?_⟩⟩
    rwa [makers_eq hnone]

theorem status_stopped_iff : (b.submit taker quantity).2.status = .cancelledBySelfTrade ↔
    ¬ (quantity = 0 ∨ taker.id ∈ b.ids) ∧ (b.walk taker quantity).stopped = true := by
  rcases submit_cases b taker quantity with ⟨hq, he⟩ | ⟨hq, ⟨hs, he⟩ | ⟨hs, -, he⟩ | ⟨hs, -, he⟩⟩
  · rw [he]
    simp [hq]
  · rw [he]
    simp [hq, hs]
  · rw [he, hs]
    simp only [Bool.false_eq_true, and_false, iff_false]
    split <;> decide
  · rw [he, hs]
    simp

/-- A `CancelAggressing` book stops in front of the first own order that it reaches with quantity left. -/
theorem ReachesOwn.stops (hv : b.Valid) (hp : b.stp = .cancelAggressing) {l₁ l₂ : List OrderData}
    (h : b.sides.ReachesOwn taker quantity l₁ o l₂) (hforeign : ∀ x ∈ l₁, x.trader ≠ taker.trader) :
    (b.walk taker quantity).stopped = true ∧ (b.walk taker quantity).queue = o :: l₂ := by
  have hnone : b.stp ≠ .none := by rw [hp]; decide
  have hplace : b.opposite taker.side = l₁ ++ o :: l₂ := h.place
  have hsorted := hv.crosses_mono taker.side taker.limit
  have hleft := h.left
  rw [List.filter_eq_self.2 fun x hx => decide_eq_true (hforeign x hx)] at hleft
  rw [hplace] at hsorted
  unfold walk
  rw [hplace]
  refine sweep_reaches (by rw [hp]; decide) ((selfTrade_iff hnone).2 h.own) (fun x hx => ?_) (fun x hx => ?_) hleft
  · rcases List.mem_append.1 hx with hx | hx
    · exact (List.pairwise_append.1 hsorted).2.2 x hx o (List.mem_cons_self ..) h.crosses
    · rw [List.mem_singleton.1 hx]
      exact h.crosses
  · rw [← Bool.not_eq_true, selfTrade_iff hnone]
    exact hforeign x hx

/-- **A `CancelAggressing` submission is cancelled exactly when it reaches an own order with quantity left.** -/
theorem cancelAggressing_stops (hv : b.Valid) (hp : b.stp = .cancelAggressing) :
    (b.submit taker quantity).2.status = .cancelledBySelfTrade ↔ ¬ (quantity = 0 ∨ taker.id ∈ b.ids) ∧
      ∃ l₁ o l₂, b.sides.ReachesOwn taker quantity l₁ o l₂ ∧ ∀ x ∈ l₁, x.trader ≠ taker.trader := by
  have hnone : b.stp ≠ .none := by rw [hp]; decide
  rw [status_stopped_iff]
  refine and_congr_right fun _ => ?_
  constructor
  · intro h
    obtain ⟨l₁, o, l₂, hsplit, hforeign, ho, hc, hlt⟩ := sweep_stopped h (by rw [hp]; decide)
    have hothers : ∀ x ∈ l₁, x.trader ≠ taker.trader := by
      intro x hx htr
      have := hforeign x hx
      rw [(selfTrade_iff hnone).2 htr] at this
      cases this
    refine ⟨l₁, o, l₂, ⟨hsplit, (selfTrade_iff hnone).1 ho, hc, ?_⟩, hothers⟩
    rwa [List.filter_eq_self.2 fun x hx => decide_eq_true (hothers x hx)]
  · rintro ⟨l₁, o, l₂, h, hforeign⟩
    exact (ReachesOwn.stops hv hp h hforeign).1

/-- What a stopped submission leaves: nothing of the taker, and the own order in front. -/
theorem cancelAggressing_leaves (hv : b.Valid) (hp : b.stp = .cancelAggressing)
    (hq : ¬ (quantity = 0 ∨ taker.id ∈ b.ids)) {l₁ l₂ : List OrderData}
    (h : b.sides.ReachesOwn taker quantity l₁ o l₂) (hforeign : ∀ x ∈ l₁, x.trader ≠ taker.trader) :
    (b.submit taker quantity).1.opposite taker.side = o :: l₂ ∧ (b.submit taker quantity).2.resting = 0 ∧
      (b.submit taker quantity).1.sides.find taker.id = none := by
  obtain ⟨hstop, hqueue⟩ := ReachesOwn.stops hv hp h hforeign
  rcases submit_cases b taker quantity with ⟨h', -⟩ | ⟨-, ⟨-, he⟩ | ⟨hs, -⟩ | ⟨hs, -⟩⟩
  · exact absurd h' hq
  · rw [he]
    refine ⟨(swept_opposite ..).trans hqueue, rfl, ?_⟩
    exact find_eq_none.2 fun hm => hq (.inr (swept_ids hm))
  · rw [hstop] at hs
    cases hs
  · rw [hstop] at hs
    cases hs

/-- No call trades an order with its own trader. -/
theorem event_no_selfTrade (hv : b.Valid) (hp : b.stp ≠ .none) (c : BookCall) :
    ∀ t ∈ (b.event c).trades, t.makerTrader ≠ t.takerTrader := by
  intro t ht
  cases c with
  | cancel id => cases ht
  | submit id trader side price quantity =>
    have ht' : t ∈ (b.submit ⟨id, trader, side, price⟩ quantity).1.trades := ht
    by_cases hq : quantity = 0 ∨ id ∈ b.ids
    · rw [@submit_refused b ⟨id, trader, side, price⟩ quantity hq] at ht'
      cases ht'
    · rw [(@submit_accepted b ⟨id, trader, side, price⟩ quantity hq).1] at ht'
      obtain ⟨gone, kept, hsplit, hw⟩ := sweep_walked b.stp ⟨id, trader, side, price⟩ quantity (b.opposite side)
      have hpos : ∀ o ∈ gone ++ kept, 0 < o.remaining := by
        intro o ho
        rw [← hsplit] at ho
        exact hv.positive o ((mem_resting side).2 (.inr ho))
      obtain ⟨o, -, ht, hs, -⟩ := hw.trade hpos ht'
      rw [ht]
      intro htr
      rw [(selfTrade_iff hp).2 htr] at hs
      cases hs

end ListBook

/-! ## Whole runs -/

/-- **Self-trade prevention over whole runs.** With a policy no trade is between orders of one trader.
A further submission to a `CancelResting` book that is not refused removes unfilled exactly the own
orders it reaches with quantity left, and a refused one none; in a `CancelAggressing` book nothing
leaves unfilled, and exactly a submission that reaches an own order with quantity left is cancelled,
in front of that order and without resting. -/
theorem OrderBook.run_selfTrade (stp : SelfTradePolicy) (poolCapacity : UInt64) (calls : List BookCall) :
    ∃ b₀ b evs, create stp poolCapacity = some b₀ ∧ Machine.run eventStep b₀ calls = some (b, evs) ∧
      (stp ≠ .none → ∀ ev ∈ evs, ∀ t ∈ ev.trades, t.makerTrader ≠ t.takerTrader) ∧
      ∀ id trader side price quantity, ∃ b' ev res,
        b.eventStep (.submit id trader side price quantity) = some (b', ev) ∧ ev.ret = .submitted res ∧
        (stp = .cancelResting → ∀ o, ev.RemovesUnfilled o ↔ ev.refused id quantity = false ∧
          ∃ l₁ l₂, ev.before.ReachesOwn ⟨id, trader, side, price⟩ quantity l₁ o l₂) ∧
        (stp = .cancelAggressing → (∀ o, ¬ ev.RemovesUnfilled o) ∧
          (res.status = .cancelledBySelfTrade ↔ ev.refused id quantity = false ∧ ∃ l₁ o l₂,
            ev.before.ReachesOwn ⟨id, trader, side, price⟩ quantity l₁ o l₂ ∧ ∀ x ∈ l₁, x.trader ≠ trader) ∧
          ∀ l₁ o l₂, ev.refused id quantity = false →
            ev.before.ReachesOwn ⟨id, trader, side, price⟩ quantity l₁ o l₂ → (∀ x ∈ l₁, x.trader ≠ trader) →
            ev.after.opposite side = o :: l₂ ∧ res.resting = 0 ∧ ev.after.find id = none) := by
  obtain ⟨b₀, hr, h₀⟩ := create_spec stp poolCapacity
  obtain ⟨b, hrun, h⟩ := event_refines.run h₀ calls
  refine ⟨b₀, b, _, hr, hrun, fun hp ev hev => ?_, fun id trader side price quantity => ?_⟩
  · obtain ⟨pre, post, hsplit⟩ := List.append_of_mem hev
    obtain ⟨before, c, -, -, -, rfl, -⟩ := Machine.runT_split hsplit
    have hv := ListBook.eventRun_valid (ListBook.create_valid stp) before
    have hs := ListBook.eventRun_stp (.create stp) before
    exact ListBook.event_no_selfTrade hv (by rw [hs]; exact hp) c
  · have hv := ListBook.eventRun_valid (ListBook.create_valid stp) calls
    have hs : (Machine.runT ListBook.eventStep (ListBook.create stp) calls).1.stp = stp :=
      ListBook.eventRun_stp (.create stp) calls
    obtain ⟨b', hstep, -⟩ := event_refines b _ (.submit id trader side price quantity) h
    generalize (Machine.runT ListBook.eventStep (ListBook.create stp) calls).1 = r at hv hs hstep
    subst hs
    have hrefused : (r.event (.submit id trader side price quantity)).refused id quantity = false ↔
        ¬ (quantity = 0 ∨ id ∈ r.ids) := by
      rw [r.refused_eq ⟨id, trader, side, price⟩ quantity, decide_eq_false_iff_not]
    refine ⟨b', r.event (.submit id trader side price quantity), _, hstep, rfl, fun hp o => ?_,
      fun hp => ⟨fun o hrem => ?_, ?_, fun l₁ o l₂ hacc hown hforeign => ?_⟩⟩
    · rw [hrefused]
      exact @ListBook.cancelResting_removes r ⟨id, trader, side, price⟩ quantity o hv hp
    · by_cases hq : quantity = 0 ∨ id ∈ r.ids
      · exact @ListBook.not_removes_of_refused r ⟨id, trader, side, price⟩ quantity hq o hrem
      · have := ((@ListBook.removes_iff r ⟨id, trader, side, price⟩ quantity o hv hq).1 hrem).1
        rw [hp] at this
        cases this
    · rw [hrefused]
      exact @ListBook.cancelAggressing_stops r ⟨id, trader, side, price⟩ quantity hv hp
    · exact @ListBook.cancelAggressing_leaves r ⟨id, trader, side, price⟩ quantity o hv hp
        (hrefused.1 hacc) l₁ l₂ hown hforeign

/-- A submission under a resting id is refused, and leaves the own order that it would reach. -/
theorem OrderBook.refused_keeps_own :
    ∃ b₀ b outs b' ev o, create .cancelResting 0 = some b₀ ∧
      Machine.run eventStep b₀ [.submit 1 7 .buy 100 10] = some (b, outs) ∧
      b.eventStep (.submit 1 7 .sell 100 10) = some (b', ev) ∧
      ev.before.ReachesOwn ⟨1, 7, .sell, 100⟩ 10 [] o [] ∧ ¬ ev.RemovesUnfilled o := by
  obtain ⟨b₀, hr, h₀⟩ := create_spec .cancelResting 0
  obtain ⟨b, hrun, h⟩ := event_refines.run h₀ [.submit 1 7 .buy 100 10]
  obtain ⟨b', hstep, -⟩ := event_refines b _ (.submit 1 7 .sell 100 10) h
  refine ⟨b₀, b, _, b', _, ⟨1, 7, .buy, 100, 10, 10, 1⟩, hr, hrun, hstep, ⟨rfl, rfl, by decide, by decide⟩, ?_⟩
  rintro ⟨-, hgone, -⟩
  exact absurd hgone (by decide)

end Obe
