/-
`match` is the walk of the reference book. Through every iteration of both loops one thing stays:
the trades so far, followed by the walk of the remainder over what the view still shows, is the
walk that was asked for (`Walks`). When the loops end nothing is left to walk.
-/
import OrderBookEngine.Book.Represents

namespace Obe

variable {lt : Price → Price → Prop} {stp : SelfTradePolicy} {taker : Taker} {other : List Entry}

/-- The invariant of `match`: what the view shows, and the walk `r` it must come to. -/
structure Walks (stp : SelfTradePolicy) (taker : Taker) (other : List Entry) (r : Sweep) (m : Matching lt)
    (view : View) : Prop where
  shows : m.toStore.Shows (m.book.entries ++ other) view
  indexed : m.toStore.Indexed (shown view (m.book.entries ++ other))
  walk : (sweep stp taker m.remaining (ordersOf view m.book.entries)).after m.trades = r

/-- Only the orders of the walked side changed. -/
def SameOn (other : List Entry) (view view' : View) : Prop := ∀ e ∈ other, view' e.2 = view e.2

theorem SameOn.shown_eq {view view' : View} (h : SameOn other view view') : shown view' other = shown view other := by
  unfold shown
  rw [List.flatMap_def, List.flatMap_def, List.map_congr_left h]

theorem SameOn.update {e : Entry} {l : List Entry} (view : View) (h : ((e :: l ++ other).map (·.2)).Nodup)
    (v : List (Slot × OrderData)) : SameOn other view (Function.update view e.2 v) := by
  intro e' he'
  refine Function.update_of_ne ?_ _ _
  rintro ha
  rw [List.cons_append, List.map_cons, List.nodup_cons] at h
  exact h.1 (ha ▸ List.mem_map_of_mem (List.mem_append_right _ he'))

section Level

variable {m : Matching lt} {view : View} {r : Sweep} {e : Entry} {l : List Entry} {x : Slot × OrderData}
  {v : List (Slot × OrderData)}

/-- What the walk sees: the queue of the best level, then the other levels. -/
theorem Walks.walk_cons (h : Walks stp taker other r m view) (hb : m.book.entries = e :: l) (hv : view e.2 = x :: v) :
    (sweep stp taker m.remaining (x.2 :: (v.map (·.2) ++ ordersOf view l))).after m.trades = r := by
  rw [← h.walk, hb, ordersOf_cons, hv]; rfl

/-- The remaining orders, after a change of the best level's queue. -/
theorem ordersOf_head (h : ((e :: l).map (·.2)).Nodup) (v : List (Slot × OrderData)) :
    ordersOf (Function.update view e.2 v) (e :: l) = v.map (·.2) ++ ordersOf view l :=
  ordersOf_update [] h v

theorem Walks.nodup_head (h : Walks stp taker other r m view) (hb : m.book.entries = e :: l) :
    ((e :: l).map (·.2)).Nodup := by
  have := h.shows.nodup
  rw [hb, List.map_append] at this
  exact (List.nodup_append.1 this).1

theorem not_done (hr : m.remaining > 0) (hc : crosses taker.side taker.limit e.1 = true) {d : OrderData}
    (hd : d.price = e.1) : taker.done m.remaining d = false := by
  have h0 : m.remaining ≠ 0 := UInt64.pos_iff_ne_zero.1 hr
  simp [Taker.done, h0, hd, hc]

/-- `CancelResting`: the front order leaves the book. -/
theorem Walks.removeMaker (h : Walks stp taker other r m view) (hb : m.book.entries = e :: l)
    (hv : view e.2 = x :: v) (hd : taker.done m.remaining x.2 = false) (hs : selfTrade stp taker x.2 = true)
    (hp : stp = .cancelResting) :
    ∃ s, m.toStore.removeMaker e.2 x.1 = some s ∧
      Walks stp taker other r { m with toStore := s } (Function.update view e.2 v) := by
  have hsh := h.shows
  have hin := h.indexed
  rw [hb] at hsh hin
  obtain ⟨s, hr, h1, h2, h3⟩ := Store.removeMaker_spec [] [] hsh hin hv
  refine ⟨s, hr, ⟨by rw [hb]; exact h1, by rw [hb]; exact h2, ?_⟩⟩
  show (sweep stp taker m.remaining (ordersOf _ m.book.entries)).after s.trades = r
  rw [hb, ordersOf_head (h.nodup_head hb), h3, ← h.walk_cons hb hv, sweep_resting hd hs hp]

/-- The fill of the front order; it leaves the book when it is consumed, and otherwise the taker is. -/
theorem Walks.execute (h : Walks stp taker other r m view) (hb : m.book.entries = e :: l)
    (hv : view e.2 = x :: v) (hd : taker.done m.remaining x.2 = false) (hs : selfTrade stp taker x.2 = false) :
    ∃ m' v', m.execute taker e.2 x.1 = some m' ∧ m'.book = m.book ∧ m'.cancelledByStp = m.cancelledByStp ∧
      Walks stp taker other r m' (Function.update view e.2 v') ∧ (m'.remaining = 0 ∨ v' = v) := by
  have he : e ∈ m.book.entries ++ other := by rw [hb]; exact List.mem_cons_self ..
  have hx : x ∈ view e.2 := by rw [hv]; exact List.mem_cons_self ..
  obtain ⟨o, ho, -, hod⟩ := h.shows.live he hx
  have hwalk := h.walk_cons hb hv
  have hnd := h.nodup_head hb
  -- the fill itself, after the trade was recorded
  have hsh : ({ m.toStore with trades := m.trades ++ [taker.trade x.2 (tradedWith m.remaining x.2)] } : Store).Shows
      (e :: l ++ other) view := by
    rw [← hb]; exact h.shows.frame h.shows.pool rfl rfl fun _ _ _ _ => rfl
  have hin : ({ m.toStore with trades := m.trades ++ [taker.trade x.2 (tradedWith m.remaining x.2)] } : Store).Indexed
      (shown view (e :: l ++ other)) := by
    rw [← hb]; exact h.indexed.congr rfl rfl
  have hle := (tradedWith_le m.remaining x.2).2
  obtain ⟨s₁, hr₁, h₁, hi₁, ht₁, hd₁⟩ := Store.fill_spec [] [] hsh hin hv hle
  obtain ⟨o₁, ho₁, hod₁⟩ := dataOf_eq_some hd₁
  have hfilled : o₁.isFilled = (x.2.reduce (tradedWith m.remaining x.2)).isFilled := by rw [← hod₁]
  by_cases hlt : m.remaining < x.2.remaining
  · -- the taker is consumed
    have htr : tradedWith m.remaining x.2 = m.remaining := if_pos hlt
    have hnf : (x.2.reduce (tradedWith m.remaining x.2)).isFilled = false := by
      rw [htr]; simp only [OrderData.isFilled, OrderData.reduce]; grind
    refine ⟨{ m with toStore := s₁, remaining := m.remaining - tradedWith m.remaining x.2 },
      (x.1, x.2.reduce (tradedWith m.remaining x.2)) :: v, ?_, rfl, rfl,
      ⟨by rw [hb]; exact h₁, by rw [hb]; exact hi₁, ?_⟩, .inl (by rw [htr]; simp)⟩
    · simp [Matching.execute, ho, hod, hr₁, ho₁, hfilled, hnf]
    · show (sweep stp taker (m.remaining - tradedWith m.remaining x.2) (ordersOf _ m.book.entries)).after s₁.trades = r
      rw [hb, ordersOf_head hnd, ht₁, ← hwalk, sweep_exhaust hd hs hlt, htr]
      simp [Sweep.after]
  · -- the maker is consumed
    have htr : tradedWith m.remaining x.2 = x.2.remaining := if_neg hlt
    have hf : (x.2.reduce (tradedWith m.remaining x.2)).isFilled = true := by
      rw [htr]; simp [OrderData.isFilled, OrderData.reduce]
    have hv₁ : Function.update view e.2 ([] ++ (x.1, x.2.reduce (tradedWith m.remaining x.2)) :: v) e.2 =
        [] ++ (x.1, x.2.reduce (tradedWith m.remaining x.2)) :: v := Function.update_self ..
    obtain ⟨s₂, hr₂, h₂, hi₂, ht₂⟩ := Store.removeMaker_spec [] [] h₁ hi₁ hv₁
    rw [Function.update_idem] at h₂ hi₂
    refine ⟨{ m with toStore := s₂, remaining := m.remaining - tradedWith m.remaining x.2 }, v, ?_, rfl, rfl,
      ⟨by rw [hb]; exact h₂, by rw [hb]; exact hi₂, ?_⟩, .inr rfl⟩
    · simp [Matching.execute, ho, hod, hr₁, ho₁, hfilled, hf, hr₂]
    · show (sweep stp taker (m.remaining - tradedWith m.remaining x.2) (ordersOf _ m.book.entries)).after s₂.trades = r
      rw [hb, ordersOf_head hnd, ht₂, ht₁, ← hwalk, sweep_fill hd hs (UInt64.not_lt.1 hlt), htr]
      simp [Sweep.after]

/-- Nothing is left to walk. -/
def Finished (stp : SelfTradePolicy) (taker : Taker) (m : Matching lt) (view : View) : Prop :=
  sweep stp taker m.remaining (ordersOf view m.book.entries) =
    ⟨ordersOf view m.book.entries, [], m.remaining, m.cancelledByStp⟩

/-- The level of the first entry, in memory. -/
theorem Walks.head_level (h : Walks stp taker other r m view) (hb : m.book.entries = e :: l) :
    ∃ lv, m.levels e.2 = some lv ∧ lv.price = e.1 ∧ (lv.empty = true ↔ view e.2 = []) ∧
      lv.count = (view e.2).length ∧ (∀ x v, view e.2 = x :: v → lv.front = some x.1) := by
  obtain ⟨lv, h1, h2, h3⟩ := h.shows.level e (by rw [hb]; exact List.mem_cons_self ..)
  refine ⟨lv, h1, h2, by rw [h3.empty_iff, List.map_eq_nil_iff], by rw [h3.count, List.length_map], ?_⟩
  intro x v hv
  rw [hv] at h3
  exact h3.front_cons

/-- The inner loop ends with the taker stopped, the taker consumed, or the level empty. -/
theorem matchLevel_spec (h : Walks stp taker other r m view) (hb : m.book.entries = e :: l)
    (hc : crosses taker.side taker.limit e.1 = true) (hs : m.cancelledByStp = false) {fuel : Nat}
    (hf : m.remaining = 0 ∨ (view e.2).length ≤ fuel) :
    ∃ m' v', matchLevel stp taker e.2 fuel m = some m' ∧ m'.book = m.book ∧
      Walks stp taker other r m' (Function.update view e.2 v') ∧
      ((m'.cancelledByStp = true ∧ v' ≠ [] ∧ Finished stp taker m' (Function.update view e.2 v')) ∨
        (m'.cancelledByStp = false ∧ (m'.remaining = 0 ∨ v' = []))) := by
  induction fuel generalizing m view with
  | zero =>
    obtain ⟨lv, hlv, -, hempty, -⟩ := h.head_level hb
    have hend : m.remaining = 0 ∨ view e.2 = [] := by simpa using hf
    refine ⟨m, view e.2, ?_, rfl, by rwa [Function.update_eq_self], .inr ⟨hs, hend⟩⟩
    rcases hend with h0 | h0
    · rw [matchLevel]; simp [hlv, h0]
    · rw [matchLevel]; simp [hlv, hempty.2 h0]
  | succ fuel ih =>
    obtain ⟨lv, hlv, -, hempty, -, hfront⟩ := h.head_level hb
    by_cases h0 : m.remaining = 0
    · exact ⟨m, view e.2, by rw [matchLevel]; simp [hlv, h0], rfl, by rwa [Function.update_eq_self], .inr ⟨hs, .inl h0⟩⟩
    cases hv : view e.2 with
    | nil =>
      exact ⟨m, [], by rw [matchLevel]; simp [hlv, hempty.2 hv], rfl, by rwa [← hv, Function.update_eq_self],
        .inr ⟨hs, .inr rfl⟩⟩
    | cons x v =>
      have he : e ∈ m.book.entries ++ other := by rw [hb]; exact List.mem_cons_self ..
      have hx : x ∈ view e.2 := by rw [hv]; exact List.mem_cons_self ..
      obtain ⟨o, ho, -, hod⟩ := h.shows.live he hx
      have hpos : m.remaining > 0 := by grind
      have hne : ¬ lv.empty = true := by rw [hempty, hv]; simp
      have hd := not_done hpos hc (h.shows.data e he x hx).2
      have hlen : v.length ≤ fuel := by
        rcases hf with hf | hf
        · exact absurd hf h0
        · rw [hv] at hf; simpa using hf
      have htrader : o.trader = x.2.trader := by rw [← hod]
      -- one iteration, then the rest of the loop
      cases hself : selfTrade stp taker x.2 with
      | true =>
        have hcond : stp ≠ .none ∧ x.2.trader = taker.trader := by simpa [selfTrade] using hself
        by_cases hp : stp = .cancelResting
        · obtain ⟨s, hr, hw⟩ := h.removeMaker hb hv hd hself hp
          obtain ⟨m', v', hr', hbk, hw', hend⟩ := ih (m := { m with toStore := s }) hw hb hs
            (.inr (by simpa using hlen))
          rw [Function.update_idem] at hw' hend
          refine ⟨m', v', ?_, hbk, hw', hend⟩
          subst hp
          rw [matchLevel]
          simp [hlv, hpos, hne, hfront x v hv, ho, htrader, hcond.2, hr, hr']
        · refine ⟨{ m with cancelledByStp := true }, view e.2, ?_, rfl, ?_, .inl ⟨rfl, by rw [hv]; simp, ?_⟩⟩
          · rw [matchLevel]
            simp [hlv, hpos, hne, hfront x v hv, ho, htrader, hcond, hp]
          · rw [Function.update_eq_self]
            exact ⟨h.shows, h.indexed, h.walk⟩
          · rw [Function.update_eq_self]
            show sweep stp taker m.remaining (ordersOf view m.book.entries) = _
            rw [hb, ordersOf_cons, hv]
            exact sweep_aggressing hd hself hp
      | false =>
        have hcond : ¬ (stp ≠ .none ∧ x.2.trader = taker.trader) := by simpa [selfTrade] using hself
        obtain ⟨m₁, v₁, hr₁, hbk₁, hs₁, hw₁, hprog⟩ := h.execute hb hv hd hself
        have hf₁ : m₁.remaining = 0 ∨ (Function.update view e.2 v₁ e.2).length ≤ fuel := by
          rcases hprog with hz | rfl
          · exact .inl hz
          · exact .inr (by simpa using hlen)
        obtain ⟨m', v', hr', hbk, hw', hend⟩ := ih hw₁ (hbk₁ ▸ hb) (hs₁ ▸ hs) hf₁
        rw [Function.update_idem] at hw' hend
        refine ⟨m', v', ?_, hbk.trans hbk₁, hw', hend⟩
        rw [matchLevel]
        simp only [hlv, Option.bind_eq_bind, Option.bind_some, hpos, hne, hfront x v hv, ho, htrader, hcond, hr₁, hr']
        simp

/-- Erasing the emptied best level. -/
theorem Walks.eraseLevel (h : Walks stp taker other r m view) [Std.Irrefl lt] (hb : m.book.entries = e :: l)
    (hv : view e.2 = []) :
    ∃ s' book', m.toStore.eraseLevel m.book e.1 = (s', book') ∧ book'.entries = l ∧
      Walks stp taker other r { m with toStore := s', book := book' } view := by
  obtain ⟨s', book', heq, hl, hsh, hp, hi, ht⟩ := Store.eraseLevel_spec [] h.shows hb
  have hin := h.indexed
  rw [hb, List.cons_append, shown_cons, hv, List.nil_append] at hin
  refine ⟨s', book', heq, hl, hsh, ?_, ?_⟩
  · show s'.Indexed (shown view (book'.entries ++ other))
    rw [hl]
    exact hin.congr hi (by rw [hp])
  · show (sweep stp taker m.remaining (ordersOf view book'.entries)).after s'.trades = r
    rw [hl, ht, ← h.walk, hb, ordersOf_cons, hv]
    rfl

theorem ordersOf_eq_nil (h : m.book.isEmpty = true) (view : View) : ordersOf view m.book.entries = [] := by
  rw [SortedMap.isEmpty, List.isEmpty_iff] at h
  rw [h]; rfl

theorem matchLevels_end (stp : SelfTradePolicy) (taker : Taker) (hs : m.cancelledByStp = false)
    (h : m.remaining = 0 ∨ m.book.entries = []) (fuel : Nat)
    (view : View) : matchLevels stp taker fuel m = some m ∧ Finished stp taker m view := by
  rcases h with h0 | h0
  · refine ⟨by rw [matchLevels.eq_def]; simp [h0], ?_⟩
    unfold Finished
    rw [h0, sweep_zero, hs]
  · have hem : m.book.isEmpty = true := by rw [SortedMap.isEmpty, h0]; rfl
    refine ⟨by rw [matchLevels.eq_def]; simp [hem], ?_⟩
    unfold Finished
    rw [ordersOf_eq_nil hem, sweep_nil, hs]

theorem SameOn.trans {view view' view'' : View} (h : SameOn other view view') (h' : SameOn other view' view'') :
    SameOn other view view'' := fun e he => (h' e he).trans (h e he)

/-- A walk of the first level empties no level behind it. -/
theorem Walks.behind_filled (h : Walks stp taker other r m view) (hb : m.book.entries = e :: l)
    (hne : ∀ e ∈ m.book.entries, view e.2 ≠ []) (v : List (Slot × OrderData)) :
    ∀ e' ∈ l, Function.update view e.2 v e'.2 ≠ [] := by
  intro e' he'
  have hnd := h.nodup_head hb
  rw [List.map_cons, List.nodup_cons] at hnd
  have haddr : e'.2 ≠ e.2 := by
    intro ha
    exact hnd.1 (ha ▸ List.mem_map_of_mem he')
  rw [Function.update_of_ne haddr]
  exact hne e' (by rw [hb]; exact List.mem_cons_of_mem _ he')

/-- Where the best price does not cross, there is nothing left to walk. -/
theorem Walks.finished (h : Walks stp taker other r m view) (hb : m.book.entries = e :: l) (hv : view e.2 ≠ [])
    (hs : m.cancelledByStp = false) (hc : ¬ crosses taker.side taker.limit e.1 = true) :
    Finished stp taker m view := by
  have he : e ∈ m.book.entries ++ other := by rw [hb]; exact List.mem_cons_self ..
  obtain ⟨x, v, hv⟩ := List.exists_cons_of_ne_nil hv
  have hx : x.2.price = e.1 := (h.shows.data e he x (by rw [hv]; exact List.mem_cons_self ..)).2
  unfold Finished
  rw [hb, ordersOf_cons, hv, hs]
  exact sweep_done (by simp [Taker.done, hx, hc])

/-- The outer loop ends with nothing left to walk and no empty level. -/
theorem matchLevels_spec [Std.Irrefl lt] {fuel : Nat} (h : Walks stp taker other r m view)
    (hne : ∀ e ∈ m.book.entries, view e.2 ≠ []) (hs : m.cancelledByStp = false)
    (hf : m.remaining = 0 ∨ m.book.entries.length ≤ fuel) :
    ∃ m' view', matchLevels stp taker fuel m = some m' ∧ Walks stp taker other r m' view' ∧
      SameOn other view view' ∧ (∀ e ∈ m'.book.entries, view' e.2 ≠ []) ∧ Finished stp taker m' view' := by
  induction fuel generalizing m view with
  | zero =>
    obtain ⟨h1, h2⟩ := matchLevels_end stp taker hs (by simpa using hf) 0 view
    exact ⟨m, view, h1, h, fun _ _ => rfl, hne, h2⟩
  | succ fuel ih =>
    by_cases hend : m.remaining = 0 ∨ m.book.entries = []
    · obtain ⟨h1, h2⟩ := matchLevels_end stp taker hs hend (fuel + 1) view
      exact ⟨m, view, h1, h, fun _ _ => rfl, hne, h2⟩
    obtain ⟨h0, hnil⟩ := not_or.1 hend
    obtain ⟨e, l, hb⟩ := List.exists_cons_of_ne_nil hnil
    have hpos : m.remaining > 0 := by grind
    have hbe : m.book.isEmpty = false := by rw [SortedMap.isEmpty, hb]; rfl
    have hbegin : m.book.begin? = some e := by rw [SortedMap.begin?, hb]; rfl
    obtain ⟨lv, hlv, hprice, -, hcount, -⟩ := h.head_level hb
    by_cases hc : crosses taker.side taker.limit e.1 = true
    · -- the level is walked
      have hlen : (view e.2).length ≤ lv.count := by rw [hcount]
      obtain ⟨m₁, v₁, hr₁, hbk₁, hw₁, hend₁⟩ := matchLevel_spec h hb hc hs (.inr hlen)
      have hb₁ : m₁.book.entries = e :: l := hbk₁ ▸ hb
      have hsame₁ : SameOn other view (Function.update view e.2 v₁) := by
        refine SameOn.update (l := l) view ?_ v₁
        rw [← hb]; exact h.shows.nodup
      have hne₁ := h.behind_filled hb hne v₁
      have hne₂ : v₁ ≠ [] → ∀ e' ∈ m₁.book.entries, Function.update view e.2 v₁ e'.2 ≠ [] := by
        intro hv e' he'
        rw [hb₁] at he'
        rcases List.mem_cons.1 he' with rfl | he'
        · rwa [Function.update_self]
        · exact hne₁ e' he'
      rcases hend₁ with ⟨hs₁, hv₁, hfin⟩ | ⟨hs₁, hend₁⟩
      · -- the taker was stopped
        refine ⟨m₁, _, ?_, hw₁, hsame₁, hne₂ hv₁, hfin⟩
        rw [matchLevels]
        simp [hpos, hbe, hbegin, hlv, hprice, hc, hr₁, hs₁]
      · obtain ⟨lv₁, hlv₁, -, hempty₁, -⟩ := hw₁.head_level hb₁
        rw [Function.update_self] at hempty₁
        obtain ⟨s₁, book₁, remaining₁, cancelled₁⟩ := m₁
        obtain rfl : cancelled₁ = false := hs₁
        replace hlv₁ : s₁.levels e.2 = some lv₁ := hlv₁
        by_cases hv₁ : v₁ = []
        · -- the level is consumed
          obtain ⟨s₂, book₂, heq, hl, hw₂⟩ := hw₁.eraseLevel hb₁ (by rw [Function.update_self, hv₁])
          replace heq : s₁.eraseLevel book₁ e.1 = (s₂, book₂) := heq
          have hlen : l.length ≤ fuel := by
            rcases hf with hf | hf
            · exact absurd hf h0
            · rw [hb] at hf; simpa using hf
          obtain ⟨m', view', hr', hw', hsame', hne', hfin⟩ :=
            ih hw₂ (by rw [hl]; exact hne₁) rfl (.inr (by rw [hl]; exact hlen))
          refine ⟨m', view', ?_, hw', hsame₁.trans hsame', hne', hfin⟩
          rw [matchLevels]
          simpa [hpos, hbe, hbegin, hlv, hprice, hc, hr₁, hlv₁, hempty₁.2 hv₁, heq] using hr'
        · -- the taker is consumed
          obtain ⟨m', view', hr', hw', hsame', hne', hfin⟩ := ih hw₁ (hne₂ hv₁) rfl (.inl (hend₁.resolve_right hv₁))
          refine ⟨m', view', ?_, hw', hsame₁.trans hsame', hne', hfin⟩
          rw [matchLevels]
          simp [hpos, hbe, hbegin, hlv, hprice, hc, hr₁, hlv₁, hempty₁, hv₁, hr']
    · -- the best price no longer crosses
      refine ⟨m, view, ?_, h, fun _ _ => rfl, hne, ?_⟩
      · rw [matchLevels]
        simp [hpos, hbe, hbegin, hlv, hprice, hc]
      · exact h.finished hb (hne e (by rw [hb]; exact List.mem_cons_self ..)) hs hc

end Level

/-- **`match` is the walk of the reference book** over the orders its side shows. -/
theorem matchBook_spec [Std.Irrefl lt] (stp : SelfTradePolicy) (taker : Taker) {s : Store}
    {book : SortedMap Price LevelPtr lt} {view : View}
    (hsh : s.Shows (book.entries ++ other) view) (hin : s.Indexed (shown view (book.entries ++ other)))
    (hne : ∀ e ∈ book.entries, view e.2 ≠ []) (ht : s.trades = []) (quantity : Quantity) :
    ∃ m view', matchBook stp s book taker quantity = some m ∧
      m.toStore.Shows (m.book.entries ++ other) view' ∧ m.toStore.Indexed (shown view' (m.book.entries ++ other)) ∧
      SameOn other view view' ∧ (∀ e ∈ m.book.entries, view' e.2 ≠ []) ∧
      sweep stp taker quantity (ordersOf view book.entries) =
        ⟨ordersOf view' m.book.entries, m.trades, m.remaining, m.cancelledByStp⟩ := by
  have h : Walks stp taker other (sweep stp taker quantity (ordersOf view book.entries))
      { toStore := s, book, remaining := quantity, cancelledByStp := false } view :=
    ⟨hsh, hin, by rw [ht]; rfl⟩
  obtain ⟨m, view', hr, hw, hsame, hne', hfin⟩ := matchLevels_spec h hne rfl (.inr (Nat.le_refl _))
  refine ⟨m, view', hr, hw.shows, hw.indexed, hsame, hne', ?_⟩
  rw [← hw.walk, hfin]
  simp [Sweep.after]

end Obe
