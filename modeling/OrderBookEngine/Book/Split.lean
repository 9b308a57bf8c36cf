/-
An order sent in two parts does what it does in one. A walk can be cut anywhere, also inside a maker
and in front of an own order: the second part goes on where the first one ended.
-/
import OrderBookEngine.Book.SelfTrade

namespace Obe

/-! ## Cutting a walk -/

/-- The walk `r` of a whole quantity against the walks `r₁` and `r₂` of its two parts. -/
structure Sweep.Joins (r r₁ r₂ : Sweep) : Prop where
  queue : r.queue = r₂.queue
  remaining : r.remaining.toNat = r₁.remaining.toNat + r₂.remaining.toNat
  stopped : r.stopped = r₂.stopped
  /-- The first part rests nothing when the second one is stopped. -/
  first : r₂.stopped = true → r₁.stopped = true ∨ r₁.remaining = 0
  /-- The second part is stopped where the first one was. -/
  again : r₁.stopped = true → r₂.stopped = true
  makers : ∀ id, asMaker id r.trades = asMaker id r₁.trades + asMaker id r₂.trades

section Walk

variable {stp : SelfTradePolicy} {taker : Taker} {q₁ q₂ : Quantity} {o : OrderData} {queue : List OrderData}
  {r r₁ r₂ : Sweep}

@[simp] theorem asMaker_nil (id : OrderId) : asMaker id [] = 0 := rfl

/-- A trade with a maker in front of the first part. -/
theorem Sweep.Joins.after (h : r.Joins r₁ r₂) (ts : List Trade) : (r.after ts).Joins (r₁.after ts) r₂ := by
  refine ⟨h.queue, h.remaining, h.stopped, h.first, h.again, fun id => ?_⟩
  show asMaker id (ts ++ r.trades) = asMaker id (ts ++ r₁.trades) + asMaker id r₂.trades
  rw [asMaker_append, asMaker_append, h.makers]
  omega

theorem toNat_add_of_lt (h : q₁.toNat + q₂.toNat < 2 ^ 64) : (q₁ + q₂).toNat = q₁.toNat + q₂.toNat := by
  rw [UInt64.toNat_add]
  exact Nat.mod_eq_of_lt h

theorem add_ne_zero (h : q₁.toNat + q₂.toNat < 2 ^ 64) (h2 : q₂ ≠ 0) : q₁ + q₂ ≠ 0 := by
  intro h0
  have hsum := toNat_add_of_lt h
  rw [h0] at hsum
  have h2' : q₂.toNat ≠ 0 := fun h => h2 (UInt64.toNat_inj.1 h)
  simp at hsum
  omega

/-- The cut inside a maker: the second part meets what the first one left of it. -/
theorem joins_inside (hd : taker.done (q₁ + q₂) o = false) (hs : selfTrade stp taker o = false)
    (hlt : q₁ < o.remaining) (hsum : q₁.toNat + q₂.toNat < 2 ^ 64) (h2 : q₂ ≠ 0) (queue : List OrderData) :
    (sweep stp taker (q₁ + q₂) (o :: queue)).Joins ⟨o.reduce q₁ :: queue, [taker.trade o q₁], 0, false⟩
      (sweep stp taker q₂ (o.reduce q₁ :: queue)) := by
  have hc := (not_done_iff.1 hd).2
  have hd2 : taker.done q₂ (o.reduce q₁) = false := not_done_iff.2 ⟨h2, hc⟩
  have hs2 : selfTrade stp taker (o.reduce q₁) = false := hs
  have hrem : (o.reduce q₁).remaining.toNat = o.remaining.toNat - q₁.toNat :=
    UInt64.toNat_sub_of_le _ _ (UInt64.le_of_lt hlt)
  have hlt' := UInt64.lt_iff_toNat_lt.1 hlt
  have hadd := toNat_add_of_lt hsum
  -- the maker gives the two parts what it gives the whole
  have hmaker : ∀ id (v v' : Quantity), v.toNat = q₁.toNat + v'.toNat →
      asMaker id [taker.trade o v] = asMaker id [taker.trade o q₁] + asMaker id [taker.trade (o.reduce q₁) v'] := by
    intro id v v' hv
    by_cases hid : o.id = id
    · subst hid
      rw [asMaker_trade, asMaker_trade, show asMaker o.id [taker.trade (o.reduce q₁) v'] = v'.toNat from
        asMaker_trade (o.reduce q₁) v']
      exact hv
    · rw [asMaker_trade_of_ne hid, asMaker_trade_of_ne hid, asMaker_trade_of_ne (show (o.reduce q₁).id ≠ id from hid)]
  by_cases hf : (o.reduce q₁).remaining ≤ q₂
  · -- the second part consumes the rest of the maker, and goes on as the whole does
    have hf' := UInt64.le_iff_toNat_le.1 hf
    have hle : o.remaining ≤ q₁ + q₂ := by
      rw [UInt64.le_iff_toNat_le, hadd]
      omega
    have hsub : q₁ + q₂ - o.remaining = q₂ - (o.reduce q₁).remaining := by
      simp only [OrderData.reduce]
      grind
    rw [sweep_fill hd hs hle, sweep_fill hd2 hs2 hf, hsub]
    refine ⟨rfl, (Nat.zero_add _).symm, rfl, fun _ => .inr rfl, by simp, fun id => ?_⟩
    show asMaker id ([_] ++ _) = asMaker id [taker.trade o q₁] + asMaker id ([_] ++ _)
    rw [asMaker_append, asMaker_append, hmaker id _ (o.reduce q₁).remaining (by omega)]
    omega
  · -- the maker outlasts both parts
    have hf' := UInt64.not_le.1 hf
    have hlt2 := UInt64.lt_iff_toNat_lt.1 hf'
    have hwhole : q₁ + q₂ < o.remaining := by
      rw [UInt64.lt_iff_toNat_lt, hadd]
      omega
    have hreduce : o.reduce (q₁ + q₂) = (o.reduce q₁).reduce q₂ := by
      simp only [OrderData.reduce, OrderData.mk.injEq, true_and, and_true]
      grind
    rw [sweep_exhaust hd hs hwhole, sweep_exhaust hd2 hs2 hf', hreduce]
    exact ⟨rfl, rfl, rfl, by simp, by simp, fun id => hmaker id _ _ hadd⟩

/-- **A walk is cut anywhere.** -/
theorem sweep_joins (stp : SelfTradePolicy) (taker : Taker) (queue : List OrderData)
    (hsum : q₁.toNat + q₂.toNat < 2 ^ 64)
    (h2 : q₂ ≠ 0) : (sweep stp taker (q₁ + q₂) queue).Joins (sweep stp taker q₁ queue)
      (sweep stp taker q₂ (sweep stp taker q₁ queue).queue) := by
  induction queue generalizing q₁ with
  | nil => exact ⟨rfl, toNat_add_of_lt hsum, rfl, by simp, by simp, fun id => rfl⟩
  | cons o queue ih =>
    by_cases hc : crosses taker.side taker.limit o.price = true
    · have hd2 : taker.done q₂ o = false := not_done_iff.2 ⟨h2, hc⟩
      have hd : taker.done (q₁ + q₂) o = false := not_done_iff.2 ⟨add_ne_zero hsum h2, hc⟩
      by_cases h1 : q₁ = 0
      · -- the first part is used up
        rw [h1, sweep_zero, UInt64.zero_add]
        exact ⟨rfl, by simp, rfl, by simp, by simp, by simp⟩
      have hd1 : taker.done q₁ o = false := not_done_iff.2 ⟨h1, hc⟩
      cases hs : selfTrade stp taker o with
      | true =>
        by_cases hp : stp = .cancelResting
        · -- the first part takes the own order out, the second one does not meet it again
          rw [sweep_resting hd hs hp, sweep_resting hd1 hs hp]
          exact ih hsum
        · -- all three stop in front of the own order
          rw [sweep_aggressing hd hs hp, sweep_aggressing hd1 hs hp]
          dsimp only
          rw [sweep_aggressing hd2 hs hp]
          exact ⟨rfl, toNat_add_of_lt hsum, rfl, fun _ => .inl rfl, fun _ => rfl, fun id => rfl⟩
      | false =>
        by_cases hf : o.remaining ≤ q₁
        · -- the first part consumes the maker
          have hf' := UInt64.le_iff_toNat_le.1 hf
          have hle : o.remaining ≤ q₁ + q₂ := by
            rw [UInt64.le_iff_toNat_le, toNat_add_of_lt hsum]
            omega
          have hsub : q₁ + q₂ - o.remaining = q₁ - o.remaining + q₂ := by grind
          rw [sweep_fill hd hs hle, sweep_fill hd1 hs hf, hsub]
          refine (ih ?_).after _
          rw [UInt64.toNat_sub_of_le _ _ hf]
          omega
        · -- the cut is inside the maker
          have hlt : q₁ < o.remaining := UInt64.not_le.1 hf
          rw [sweep_exhaust hd1 hs hlt]
          exact joins_inside hd hs hlt hsum h2 queue
    · -- neither part crosses
      have hd : ∀ q, taker.done q o = true := by
        intro q
        simp [Taker.done, hc]
      rw [sweep_done (hd _), sweep_done (hd q₁)]
      dsimp only
      rw [sweep_done (hd q₂)]
      exact ⟨rfl, toNat_add_of_lt hsum, rfl, by simp, by simp, fun id => rfl⟩

/-- The first part rests, or the second one does, what the whole rests. -/
theorem Sweep.Joins.rests (h : r.Joins r₁ r₂) : (if r.stopped then 0 else r.remaining) =
    (if r₁.stopped then 0 else r₁.remaining) + (if r₂.stopped then 0 else r₂.remaining) := by
  rw [h.stopped]
  cases h2 : r₂.stopped with
  | true =>
    rcases h.first h2 with h1 | h1
    · simp [h1]
    · simp [h1]
  | false =>
    have h1 : r₁.stopped = false := by
      rw [← Bool.not_eq_true]
      intro h1
      rw [h.again h1] at h2
      cases h2
    have hlt := r.remaining.toNat_lt
    have hsum := h.remaining
    rw [h1]
    apply UInt64.toNat_inj.1
    simp only [Bool.false_eq_true, if_false]
    rw [toNat_add_of_lt (by omega), hsum]

/-- A walk does not see the taker's id, only its trades do. -/
theorem sweep_taker (stp : SelfTradePolicy) (taker : Taker) (id : OrderId) (quantity : Quantity)
    (queue : List OrderData) :
    sweep stp { taker with id } quantity queue =
      (sweep stp taker quantity queue).map (fun o => o) fun t => { t with takerId := id } := by
  have h : SameWalk stp taker { taker with id } (fun o => o) fun t => { t with takerId := id } :=
    ⟨fun _ _ => rfl, fun _ => rfl, fun _ => rfl, fun _ _ => rfl, fun _ _ => rfl⟩
  have := h.sweep quantity queue
  rwa [List.map_id'] at this

theorem asMaker_takerId (id taker : OrderId) (ts : List Trade) :
    asMaker id (ts.map fun t => { t with takerId := taker }) = asMaker id ts := by
  unfold asMaker volume
  rw [List.filter_map, List.map_map]
  rfl

/-- The second part under an id of its own. -/
theorem Sweep.Joins.withTaker (h : r.Joins r₁ r₂) (id : OrderId) :
    r.Joins r₁ (r₂.map (fun o => o) fun t => { t with takerId := id }) := by
  refine ⟨?_, h.remaining, h.stopped, h.first, h.again, fun i => ?_⟩
  · rw [h.queue]
    exact (List.map_id' _).symm
  · rw [h.makers]
    exact congrArg (_ + ·) (asMaker_takerId i id r₂.trades).symm

end Walk

namespace ListBook

variable {b : ListBook} {taker : Taker} {quantity : Quantity}

/-! ## One submission -/

/-- The result of an accepted submission, by its walk. -/
theorem submit_result (hq : ¬ (quantity = 0 ∨ taker.id ∈ b.ids)) :
    (b.submit taker quantity).2.filled = quantity - (b.walk taker quantity).remaining ∧
      (b.submit taker quantity).2.resting =
        if (b.walk taker quantity).stopped then 0 else (b.walk taker quantity).remaining := by
  rcases submit_cases b taker quantity with ⟨h, -⟩ | ⟨-, ⟨hs, he⟩ | ⟨hs, -, he⟩ | ⟨hs, hr, he⟩⟩
  · exact absurd h hq
  · rw [he, hs]
    exact ⟨rfl, rfl⟩
  · rw [he, hs]
    exact ⟨rfl, rfl⟩
  · rw [he, hs, hr]
    exact ⟨(UInt64.sub_zero _).symm, rfl⟩

theorem quantityOn_cons (o : OrderData) (l : List OrderData) (price : Price) :
    quantityOn (o :: l) price = (if o.price = price then o.remaining else 0) + quantityOn l price := by
  unfold quantityOn
  by_cases h : o.price = price
  · rw [List.filter_cons_of_pos (by simpa using h), if_pos h]
    rfl
  · rw [List.filter_cons_of_neg (by simpa using h), if_neg h, UInt64.zero_add]

theorem quantityOn_insertOrder (lt : Price → Price → Prop) [DecidableRel lt] (o : OrderData) (l : List OrderData)
    (price : Price) :
    quantityOn (insertOrder lt o l) price = quantityOn l price + if o.price = price then o.remaining else 0 := by
  induction l with
  | nil =>
    rw [insertOrder, quantityOn_cons]
    exact UInt64.add_comm _ _
  | cons p l ih =>
    rw [insertOrder]
    split
    · rw [quantityOn_cons]
      exact UInt64.add_comm _ _
    · rw [quantityOn_cons, quantityOn_cons, ih]
      exact (UInt64.add_assoc _ _ _).symm

/-- What rests joins the taker's own side at its price. -/
theorem submit_quantityOn (hq : ¬ (quantity = 0 ∨ taker.id ∈ b.ids)) (price : Price) :
    quantityOn ((b.submit taker quantity).1.own taker.side) price = quantityOn (b.own taker.side) price +
      if taker.limit = price then (b.submit taker quantity).2.resting else 0 := by
  rcases submit_cases b taker quantity with ⟨h, -⟩ | ⟨-, ⟨-, he⟩ | ⟨-, -, he⟩ | ⟨-, -, he⟩⟩
  · exact absurd h hq
  · rw [he, swept_own]
    simp
  · rw [he]
    -- the remainder is queued on the own side
    have hown := swept_own b taker (b.walk taker quantity)
    unfold own at hown ⊢
    unfold rest
    dsimp only
    split
    · rename_i hs
      rw [if_pos hs, if_pos hs] at hown
      rw [quantityOn_insertOrder, ← hown]
      rfl
    · rename_i hs
      rw [if_neg hs, if_neg hs] at hown
      rw [quantityOn_insertOrder, ← hown]
      rfl
  · rw [he, swept_own]
    simp

/-! ## One order against two -/

section Parts

variable {q₁ q₂ : Quantity} {id : OrderId}

/-- The second part is not refused. -/
theorem second_accepted (hq : ¬ (q₁ = 0 ∨ taker.id ∈ b.ids)) (hne : taker.id ≠ id) (hid : id ∉ b.ids) (h2 : q₂ ≠ 0) :
    ¬ (q₂ = 0 ∨ id ∈ (b.submit taker q₁).1.ids) := by
  rintro (h | h)
  · exact h2 h
  · obtain ⟨x, hx, rfl⟩ := List.mem_map.1 h
    rcases (submit_accepted hq).2.2 x hx with hx | hx
    · exact hne hx.symm
    · exact hid (swept_ids (List.mem_map_of_mem hx))

/-- The walks of the parts join to the walk of the whole. -/
theorem walk_joins (hq : ¬ (q₁ = 0 ∨ taker.id ∈ b.ids)) (hsum : q₁.toNat + q₂.toNat < 2 ^ 64) (h2 : q₂ ≠ 0) :
    (b.walk taker (q₁ + q₂)).Joins (b.walk taker q₁) ((b.submit taker q₁).1.walk { taker with id } q₂) := by
  have hstp : (b.submit taker q₁).1.stp = b.stp :=
    call_stp b (.submit taker.id taker.trader taker.side taker.limit q₁)
  have hsecond := sweep_taker b.stp taker id q₂ (b.walk taker q₁).queue
  unfold walk at hsecond ⊢
  rw [hstp, show (b.submit taker q₁).1.opposite ({ taker with id } : Taker).side = _ from submit_opposite hq]
  unfold walk
  rw [hsecond]
  exact (sweep_joins b.stp taker (b.opposite taker.side) hsum h2).withTaker id

/-- What the parts remove unfilled is what the whole removes. -/
theorem removes_parts (hv : b.Valid) (hq : ¬ (q₁ + q₂ = 0 ∨ taker.id ∈ b.ids)) (hq1 : ¬ (q₁ = 0 ∨ taker.id ∈ b.ids))
    (hq2 : ¬ (q₂ = 0 ∨ id ∈ (b.submit taker q₁).1.ids))
    (hj : (b.walk taker (q₁ + q₂)).Joins (b.walk taker q₁) ((b.submit taker q₁).1.walk { taker with id } q₂))
    (i : OrderId) : (∃ o, o.id = i ∧ (b.submitEvent taker (q₁ + q₂)).RemovesUnfilled o) ↔
      (∃ o, o.id = i ∧ (b.submitEvent taker q₁).RemovesUnfilled o) ∨
        ∃ o, o.id = i ∧ ((b.submit taker q₁).1.submitEvent { taker with id } q₂).RemovesUnfilled o := by
  have hstp : (b.submit taker q₁).1.stp = b.stp :=
    call_stp b (.submit taker.id taker.trader taker.side taker.limit q₁)
  have hopp : (b.submit taker q₁).1.opposite taker.side = (b.walk taker q₁).queue := submit_opposite hq1
  have hv1 : (b.submit taker q₁).1.Valid := hv.submit taker q₁
  have hremoves : ∀ o, ((b.submit taker q₁).1.submitEvent { taker with id } q₂).RemovesUnfilled o ↔
      b.stp = .cancelResting ∧ o ∈ (b.walk taker q₁).queue ∧ o.trader = taker.trader ∧
        o.id ∉ (b.walk taker (q₁ + q₂)).queue.map (·.id) := by
    intro o
    rw [@removes_iff _ { taker with id } _ o hv1 hq2, hstp, hj.queue]
    show _ ∧ o ∈ (b.submit taker q₁).1.opposite taker.side ∧ _ ↔ _
    rw [hopp]
  -- the second walk goes on from what the first one left
  have hshrink : ∀ i, i ∈ (b.walk taker (q₁ + q₂)).queue.map (·.id) → i ∈ (b.walk taker q₁).queue.map (·.id) := by
    intro i hi
    rw [hj.queue] at hi
    rw [← hopp]
    exact sweep_id_mem hi
  simp only [removes_iff hv hq, removes_iff hv hq1, hremoves]
  constructor
  · rintro ⟨o, rfl, hp, ho, htr, hout⟩
    by_cases hm : o.id ∈ (b.walk taker q₁).queue.map (·.id)
    · obtain ⟨x, hx, hxid⟩ := List.mem_map.1 hm
      obtain ⟨o', ho', t, rfl⟩ := sweep_mem hx
      obtain rfl : o' = o := List.inj_on_of_nodup_map (hv.sideIds taker.side).2.1 ho' ho hxid
      exact .inr ⟨o'.reduce t, rfl, hp, hx, htr, hout⟩
    · exact .inl ⟨o, rfl, hp, ho, htr, hm⟩
  · rintro (⟨o, rfl, hp, ho, htr, hout⟩ | ⟨x, rfl, hp, hx, htr, hout⟩)
    · exact ⟨o, rfl, hp, ho, htr, fun hm => hout (hshrink _ hm)⟩
    · obtain ⟨o, ho, t, rfl⟩ := sweep_mem hx
      exact ⟨o, rfl, hp, ho, htr, hout⟩

/-- The parts fill what the whole fills. -/
theorem filled_parts (hq : ¬ (q₁ + q₂ = 0 ∨ taker.id ∈ b.ids)) (hq1 : ¬ (q₁ = 0 ∨ taker.id ∈ b.ids))
    (hq2 : ¬ (q₂ = 0 ∨ id ∈ (b.submit taker q₁).1.ids)) (hsum : q₁.toNat + q₂.toNat < 2 ^ 64)
    (hj : (b.walk taker (q₁ + q₂)).Joins (b.walk taker q₁) ((b.submit taker q₁).1.walk { taker with id } q₂)) :
    (b.submit taker (q₁ + q₂)).2.filled.toNat = (b.submit taker q₁).2.filled.toNat +
      ((b.submit taker q₁).1.submit { taker with id } q₂).2.filled.toNat := by
  have hfilled : ∀ (c : ListBook) (t : Taker) (q : Quantity), ¬ (q = 0 ∨ t.id ∈ c.ids) →
      (c.submit t q).2.filled.toNat + (c.walk t q).remaining.toNat = q.toNat := by
    intro c t q h
    obtain ⟨-, hvol, hsub⟩ := walk_volume c t q
    rw [(submit_result h).1]
    omega
  have h := hfilled b taker _ hq
  have h1 := hfilled b taker _ hq1
  have h2 := hfilled _ { taker with id } _ hq2
  have := hj.remaining
  rw [toNat_add_of_lt hsum] at h
  omega

/-- The own side holds as much at every price. -/
theorem quantityOn_parts (hq : ¬ (q₁ + q₂ = 0 ∨ taker.id ∈ b.ids)) (hq1 : ¬ (q₁ = 0 ∨ taker.id ∈ b.ids))
    (hq2 : ¬ (q₂ = 0 ∨ id ∈ (b.submit taker q₁).1.ids))
    (hj : (b.walk taker (q₁ + q₂)).Joins (b.walk taker q₁) ((b.submit taker q₁).1.walk { taker with id } q₂))
    (price : Price) : quantityOn ((b.submit taker (q₁ + q₂)).1.own taker.side) price =
      quantityOn (((b.submit taker q₁).1.submit { taker with id } q₂).1.own taker.side) price := by
  have h2 := @submit_quantityOn (b.submit taker q₁).1 { taker with id } q₂ hq2 price
  dsimp only at h2
  rw [h2, submit_quantityOn hq, submit_quantityOn hq1, (submit_result hq).2, (submit_result hq1).2,
    (@submit_result _ { taker with id } _ hq2).2, hj.rests, UInt64.add_assoc]
  congr 1
  split
  · rfl
  · rfl

end Parts

end ListBook

/-- **Splitting an order does not change the outcome.** In every reachable book an order of `q₁ + q₂` and
the two orders of `q₁` and `q₂`, under ids that do not rest, fill as much, trade as much with each
maker, leave the same opposite side, remove the same orders unfilled and leave as much on the own
side at every price. -/
theorem OrderBook.split_order (stp : SelfTradePolicy) (poolCapacity : UInt64) (calls : List BookCall) :
    ∃ b₀ b outs, create stp poolCapacity = some b₀ ∧ Machine.run eventStep b₀ calls = some (b, outs) ∧
      ∀ id₁ id₂ trader side price q₁ q₂, id₁ ≠ id₂ → (∀ o ∈ b.sides.resting, o.id ≠ id₁ ∧ o.id ≠ id₂) → 0 < q₁ →
        0 < q₂ → q₁.toNat + q₂.toNat < 2 ^ 64 →
        ∃ b' ev res b₁ ev₁ res₁ b₂ ev₂ res₂,
          (b.eventStep (.submit id₁ trader side price (q₁ + q₂)) = some (b', ev) ∧ ev.ret = .submitted res) ∧
          (b.eventStep (.submit id₁ trader side price q₁) = some (b₁, ev₁) ∧ ev₁.ret = .submitted res₁) ∧
          (b₁.eventStep (.submit id₂ trader side price q₂) = some (b₂, ev₂) ∧ ev₂.ret = .submitted res₂) ∧
          res.filled.toNat = res₁.filled.toNat + res₂.filled.toNat ∧
          (∀ id, asMaker id ev.trades = asMaker id ev₁.trades + asMaker id ev₂.trades) ∧
          ev.after.opposite side = ev₂.after.opposite side ∧
          (∀ id, (∃ o, o.id = id ∧ ev.RemovesUnfilled o) ↔
            (∃ o, o.id = id ∧ ev₁.RemovesUnfilled o) ∨ ∃ o, o.id = id ∧ ev₂.RemovesUnfilled o) ∧
          ∀ p, b'.quantityAt side p = b₂.quantityAt side p := by
  obtain ⟨b₀, hr, h₀⟩ := create_spec stp poolCapacity
  obtain ⟨b, hrun, h⟩ := event_refines.run h₀ calls
  have hv := ListBook.eventRun_valid (ListBook.create_valid stp) calls
  generalize hreach : (Machine.runT ListBook.eventStep (ListBook.create stp) calls).1 = r at h hv
  refine ⟨b₀, b, _, hr, hrun, fun id₁ id₂ trader side price q₁ q₂ hne hfree h1 h2 hsum => ?_⟩
  obtain ⟨b', hwhole, hR⟩ := event_refines b r (.submit id₁ trader side price (q₁ + q₂)) h
  obtain ⟨b₁, hfirst, hR₁⟩ := event_refines b r (.submit id₁ trader side price q₁) h
  obtain ⟨b₂, hsecond, hR₂⟩ := event_refines b₁ _ (.submit id₂ trader side price q₂) hR₁
  -- all three orders are accepted
  have hid : id₁ ∉ r.ids ∧ id₂ ∉ r.ids := by
    rw [sides_eq h] at hfree
    constructor
    · intro hm
      obtain ⟨o, ho, hid⟩ := List.mem_map.1 hm
      exact (hfree o ho).1 hid
    · intro hm
      obtain ⟨o, ho, hid⟩ := List.mem_map.1 hm
      exact (hfree o ho).2 hid
  have hpos1 : q₁ ≠ 0 := UInt64.pos_iff_ne_zero.1 h1
  have hpos2 : q₂ ≠ 0 := UInt64.pos_iff_ne_zero.1 h2
  have hq1 : ¬ (q₁ = 0 ∨ id₁ ∈ r.ids) := not_or.2 ⟨hpos1, hid.1⟩
  have hq : ¬ (q₁ + q₂ = 0 ∨ id₁ ∈ r.ids) := not_or.2 ⟨add_ne_zero hsum hpos2, hid.1⟩
  have hq2 := @ListBook.second_accepted r ⟨id₁, trader, side, price⟩ q₁ q₂ id₂ hq1 hne hid.2 hpos2
  have hj := @ListBook.walk_joins r ⟨id₁, trader, side, price⟩ q₁ q₂ id₂ hq1 hsum hpos2
  have hquantity : ∀ {b : OrderBook} {r : ListBook}, b.Represents r → ∀ p,
      b.quantityAt side p = some (ListBook.quantityOn (r.own side) p) :=
    fun h p => congrFun (congrFun (congrArg Observation.quantityAt (observe_spec h)) side) p
  have hfilled := ListBook.filled_parts hq hq1 hq2 hsum hj
  have hremoves := ListBook.removes_parts hv hq hq1 hq2 hj
  refine ⟨b', _, _, b₁, _, _, b₂, _, _, ⟨hwhole, rfl⟩, ⟨hfirst, rfl⟩, ⟨hsecond, rfl⟩, hfilled, ?_⟩
  refine ⟨fun id => ?_, ?_, hremoves, fun p => ?_⟩
  · have hmakers := hj.makers id
    rw [← (ListBook.submit_accepted hq).1, ← (ListBook.submit_accepted hq1).1,
      ← (@ListBook.submit_accepted _ { (⟨id₁, trader, side, price⟩ : Taker) with id := id₂ } q₂ hq2).1] at hmakers
    exact hmakers
  · have hqueue := hj.queue
    rw [← ListBook.submit_opposite hq,
      ← @ListBook.submit_opposite _ { (⟨id₁, trader, side, price⟩ : Taker) with id := id₂ } q₂ hq2] at hqueue
    exact hqueue
  · rw [hquantity hR, hquantity hR₂]
    exact congrArg some (ListBook.quantityOn_parts hq hq1 hq2 hj p)

/-- An order for thirteen that takes two makers, and its parts of six and seven. -/
theorem OrderBook.split_order_trades :
    ∃ b₀ b outs b' ev res b₁ ev₁ res₁ b₂ ev₂ res₂, create .cancelResting 4 = some b₀ ∧
      Machine.run eventStep b₀ [.submit 1 7 .sell 100 4, .submit 2 8 .sell 101 20] = some (b, outs) ∧
      (b.eventStep (.submit 10 9 .buy 101 13) = some (b', ev) ∧ ev.ret = .submitted res) ∧
      (b.eventStep (.submit 10 9 .buy 101 6) = some (b₁, ev₁) ∧ ev₁.ret = .submitted res₁) ∧
      (b₁.eventStep (.submit 11 9 .buy 101 7) = some (b₂, ev₂) ∧ ev₂.ret = .submitted res₂) ∧
      ev.trades.length = 2 ∧ res.filled.toNat = res₁.filled.toNat + res₂.filled.toNat ∧
      (∀ id, asMaker id ev.trades = asMaker id ev₁.trades + asMaker id ev₂.trades) ∧
      ev.after.opposite .buy = ev₂.after.opposite .buy ∧ ∀ p, b'.quantityAt .buy p = b₂.quantityAt .buy p := by
  obtain ⟨b₀, b, outs, hr, hrun, h⟩ := split_order .cancelResting 4 [.submit 1 7 .sell 100 4, .submit 2 8 .sell 101 20]
  -- the ids that rest, and the trades of the whole order
  have hall : ((create .cancelResting 4).bind fun b₀ =>
      (Machine.run eventStep b₀ [.submit 1 7 .sell 100 4, .submit 2 8 .sell 101 20]).bind fun r =>
        (r.1.eventStep (.submit 10 9 .buy 101 13)).map fun q => (r.1.sides.resting.map (·.id), q.2.trades.length)) =
      some ([1, 2], 2) := by decide +kernel
  rw [hr, Option.bind_some, hrun, Option.bind_some] at hall
  obtain ⟨⟨b'', ev''⟩, hwhole'', he⟩ := Option.map_eq_some_iff.1 hall
  obtain ⟨hids, htrades⟩ := Prod.mk.inj he
  have hfree : ∀ o ∈ b.sides.resting, o.id ≠ 10 ∧ o.id ≠ 11 := by
    intro o ho
    have hm : o.id ∈ [1, 2] := hids ▸ List.mem_map_of_mem ho
    exact ⟨fun he => absurd (he ▸ hm) (by decide), fun he => absurd (he ▸ hm) (by decide)⟩
  obtain ⟨b', ev, res, b₁, ev₁, res₁, b₂, ev₂, res₂, hwhole, hfirst, hsecond, hfilled, hmakers, hopposite, -, hown⟩ :=
    h 10 11 9 .buy 101 6 7 (by decide) hfree (by decide) (by decide) (by decide)
  have hsum : (6 : Quantity) + 7 = 13 := by decide
  rw [hsum] at hwhole
  obtain ⟨rfl, rfl⟩ := Prod.mk.inj (Option.some.inj (hwhole.1.symm.trans hwhole''))
  exact ⟨b₀, b, outs, _, _, res, b₁, ev₁, res₁, b₂, ev₂, res₂, hr, hrun, hwhole, hfirst, hsecond, htrades, hfilled,
    hmakers, hopposite, hown⟩

end Obe
