/-
The walk of an aggressing order, described once: a front part of the side is gone, each of its
orders traded in full or removed as the taker's own, and at most the next order traded in part.
Conservation and priority are read off this description.
-/
import OrderBookEngine.Book.Invariant

namespace Obe

/-- The quantity of some trades, without wrapping. -/
def volume (trades : List Trade) : Nat := (trades.map (·.quantity.toNat)).sum

/-- What remains of some orders, without wrapping. -/
def openQuantity (orders : List OrderData) : Nat := (orders.map (·.remaining.toNat)).sum

/-- The orders the taker trades with among those it meets. -/
def makers (stp : SelfTradePolicy) (taker : Taker) (orders : List OrderData) : List OrderData :=
  orders.filter fun o => !selfTrade stp taker o

/-- The trades that consume some orders. -/
def fills (taker : Taker) (orders : List OrderData) : List Trade := orders.map fun o => taker.trade o o.remaining

/-- A walk over `gone ++ kept` that consumed or removed `gone`. -/
structure Walked (stp : SelfTradePolicy) (taker : Taker) (remaining : Quantity) (gone kept : List OrderData)
    (r : Sweep) : Prop where
  crossed : ∀ o ∈ gone, crosses taker.side taker.limit o.price = true
  own : ∀ o ∈ gone, selfTrade stp taker o = true → stp = .cancelResting
  left : r.queue = kept ∧ r.trades = fills taker (makers stp taker gone) ∧
      remaining.toNat = openQuantity (makers stp taker gone) + r.remaining.toNat ∨
    ∃ o l t, kept = o :: l ∧ selfTrade stp taker o = false ∧ crosses taker.side taker.limit o.price = true ∧
      0 < t ∧ t < o.remaining ∧ remaining.toNat = openQuantity (makers stp taker gone) + t.toNat ∧
      r = ⟨o.reduce t :: l, fills taker (makers stp taker gone) ++ [taker.trade o t], 0, false⟩

section Walk

variable {stp : SelfTradePolicy} {taker : Taker} {remaining : Quantity} {o : OrderData} {gone kept queue : List OrderData}
  {r : Sweep}

theorem makers_cons_own (h : selfTrade stp taker o = true) (l : List OrderData) :
    makers stp taker (o :: l) = makers stp taker l := by simp [makers, h]

theorem makers_cons (h : selfTrade stp taker o = false) (l : List OrderData) :
    makers stp taker (o :: l) = o :: makers stp taker l := by simp [makers, h]

theorem not_done_iff : taker.done remaining o = false ↔
    remaining ≠ 0 ∧ crosses taker.side taker.limit o.price = true := by
  simp [Taker.done]

/-- The taker's own order in front of a walk. -/
theorem Walked.skip (h : Walked stp taker remaining gone kept r) (hd : taker.done remaining o = false)
    (hs : selfTrade stp taker o = true) (hp : stp = .cancelResting) :
    Walked stp taker remaining (o :: gone) kept r := by
  obtain ⟨-, hc⟩ := not_done_iff.1 hd
  refine ⟨fun x hx => ?_, fun _ _ _ => hp, by rw [makers_cons_own hs]; exact h.left⟩
  rcases List.mem_cons.1 hx with rfl | hx
  · exact hc
  · exact h.crossed x hx

/-- A consumed maker in front of a walk. -/
theorem Walked.fill (h : Walked stp taker (remaining - o.remaining) gone kept r) (hd : taker.done remaining o = false)
    (hs : selfTrade stp taker o = false) (hf : o.remaining ≤ remaining) :
    Walked stp taker remaining (o :: gone) kept (r.after [taker.trade o o.remaining]) := by
  obtain ⟨-, hc⟩ := not_done_iff.1 hd
  have hsub : (remaining - o.remaining).toNat = remaining.toNat - o.remaining.toNat := UInt64.toNat_sub_of_le _ _ hf
  have hle : o.remaining.toNat ≤ remaining.toNat := UInt64.le_iff_toNat_le.1 hf
  refine ⟨fun x hx => ?_, fun x hx hx' => ?_, ?_⟩
  · rcases List.mem_cons.1 hx with rfl | hx
    · exact hc
    · exact h.crossed x hx
  · rcases List.mem_cons.1 hx with rfl | hx
    · rw [hs] at hx'; cases hx'
    · exact h.own x hx hx'
  · rw [makers_cons hs]
    rcases h.left with ⟨h1, h2, h3⟩ | ⟨o', l, t, h1, h2, h3, h4, h5, h6, h7⟩
    · refine .inl ⟨h1, by simp [Sweep.after, h2, fills], ?_⟩
      simp only [openQuantity, List.map_cons, List.sum_cons] at h3 ⊢
      simp only [Sweep.after]
      omega
    · refine .inr ⟨o', l, t, h1, h2, h3, h4, h5, ?_, by simp [Sweep.after, h7, fills]⟩
      simp only [openQuantity, List.map_cons, List.sum_cons] at h6 ⊢
      omega

/-- Every walk is described. -/
theorem sweep_walked (stp : SelfTradePolicy) (taker : Taker) (remaining : Quantity) (queue : List OrderData) :
    ∃ gone kept, queue = gone ++ kept ∧ Walked stp taker remaining gone kept (sweep stp taker remaining queue) := by
  have hstay : ∀ (remaining : Quantity) (queue : List OrderData) (stopped : Bool),
      Walked stp taker remaining [] queue ⟨queue, [], remaining, stopped⟩ := fun remaining queue stopped =>
    ⟨by simp, by simp, .inl ⟨rfl, rfl, by simp [openQuantity, makers]⟩⟩
  induction queue generalizing remaining with
  | nil => exact ⟨[], [], rfl, hstay remaining [] false⟩
  | cons o queue ih =>
    rcases sweep_cases stp taker remaining o queue with
      ⟨-, h⟩ | ⟨hd, hs, hp, h⟩ | ⟨-, -, -, h⟩ | ⟨hd, hs, hf, h⟩ | ⟨hd, hs, hf, h⟩
    · exact ⟨[], o :: queue, rfl, by rw [h]; exact hstay remaining _ false⟩
    · obtain ⟨gone, kept, rfl, hw⟩ := ih remaining
      exact ⟨o :: gone, kept, rfl, by rw [h]; exact hw.skip hd hs hp⟩
    · exact ⟨[], o :: queue, rfl, by rw [h]; exact hstay remaining _ true⟩
    · obtain ⟨gone, kept, rfl, hw⟩ := ih (remaining - o.remaining)
      exact ⟨o :: gone, kept, rfl, by rw [h]; exact hw.fill hd hs hf⟩
    · obtain ⟨h0, hc⟩ := not_done_iff.1 hd
      refine ⟨[], o :: queue, rfl, by simp, by simp, .inr ⟨o, queue, remaining, rfl, hs, hc, by grind, hf, ?_, ?_⟩⟩
      · simp [openQuantity, makers]
      · rw [h]; rfl

/-! ## What the description says -/

theorem volume_append (ts us : List Trade) : volume (ts ++ us) = volume ts + volume us := by
  simp [volume]

theorem volume_fills (taker : Taker) (l : List OrderData) : volume (fills taker l) = openQuantity l := by
  unfold volume fills openQuantity
  rw [List.map_map]; rfl

/-- The taker's quantity is its trades and its remainder. -/
theorem Walked.volume (h : Walked stp taker remaining gone kept r) :
    remaining.toNat = Obe.volume r.trades + r.remaining.toNat := by
  rcases h.left with ⟨-, h2, h3⟩ | ⟨o, l, t, -, -, -, -, -, h6, rfl⟩
  · rw [h2, volume_fills]; exact h3
  · rw [volume_append, volume_fills]
    simpa [Obe.volume, Taker.trade] using h6

/-- Every trade is with an order of the side, at its price, within the limit, and takes at most
what remained of it. -/
theorem Walked.trade (h : Walked stp taker remaining gone kept r) (hpos : ∀ o ∈ gone ++ kept, 0 < o.remaining)
    {t : Trade}
    (ht : t ∈ r.trades) : ∃ o ∈ gone ++ kept, t = taker.trade o t.quantity ∧ selfTrade stp taker o = false ∧
      crosses taker.side taker.limit o.price = true ∧ 0 < t.quantity ∧ t.quantity ≤ o.remaining := by
  have hfull : ∀ t ∈ fills taker (makers stp taker gone), ∃ o ∈ gone ++ kept, t = taker.trade o t.quantity ∧
      selfTrade stp taker o = false ∧ crosses taker.side taker.limit o.price = true ∧ 0 < t.quantity ∧
      t.quantity ≤ o.remaining := by
    intro t ht
    obtain ⟨o, ho, rfl⟩ := List.mem_map.1 ht
    obtain ⟨ho, hs⟩ := List.mem_filter.1 ho
    exact ⟨o, List.mem_append_left _ ho, rfl, by simpa using hs, h.crossed o ho, hpos o (List.mem_append_left _ ho),
      UInt64.le_refl _⟩
  rcases h.left with ⟨-, h2, -⟩ | ⟨o, l, q, rfl, hs, hc, h4, h5, -, rfl⟩
  · rw [h2] at ht; exact hfull t ht
  · rcases List.mem_append.1 ht with ht | ht
    · exact hfull t ht
    · obtain rfl : t = taker.trade o q := by simpa using ht
      exact ⟨o, List.mem_append_right _ (List.mem_cons_self ..), rfl, hs, hc, h4, by simp only [Taker.trade]; grind⟩

end Walk

end Obe
