/-
What a submitted order trades, in closed form: its quantity is handed out front to back over the
orders it may trade with, each taking what is left up to its own remainder. More quantity or a better
limit only adds to the trades, and nothing of the same size on the other side is cheaper.
-/
import OrderBookEngine.Book.Events
import OrderBookEngine.Lib.Allot

namespace Obe

open Allot

def remainders (orders : List OrderData) : List Nat := orders.map (·.remaining.toNat)

/-- The orders a taker may trade with: those it crosses, without its own ones, which are taken out of
its way or stop it. -/
def eligible (stp : SelfTradePolicy) (taker : Taker) (queue : List OrderData) : List OrderData :=
  let crossed := queue.takeWhile fun o => crosses taker.side taker.limit o.price
  if stp = .cancelAggressing then crossed.takeWhile fun o => !selfTrade stp taker o else makers stp taker crossed

/-- The trades that hand a quantity out over some orders, as long as there is any left. -/
def allotted (taker : Taker) (quantity : Nat) (orders : List OrderData) : List Trade :=
  ((orders.zip (shares quantity (remainders orders))).takeWhile (·.2 ≠ 0)).map fun x =>
    taker.trade x.1 (UInt64.ofNat x.2)

section Eligible

variable {stp : SelfTradePolicy} {taker : Taker} {o : OrderData} {queue : List OrderData}

@[simp] theorem eligible_nil (stp : SelfTradePolicy) (taker : Taker) : eligible stp taker [] = [] := by
  unfold eligible makers; split <;> rfl

/-- The first order that is not crossed is the end. -/
theorem eligible_uncrossed (hc : crosses taker.side taker.limit o.price = false) (queue : List OrderData) :
    eligible stp taker (o :: queue) = [] := by
  unfold eligible makers
  simp [hc]

theorem eligible_cons (hc : crosses taker.side taker.limit o.price = true) (hs : selfTrade stp taker o = false)
    (queue : List OrderData) : eligible stp taker (o :: queue) = o :: eligible stp taker queue := by
  unfold eligible makers
  simp only [List.takeWhile_cons, hc, if_true]
  split <;> simp [hs]

/-- `CancelResting`: an own order is out of the way. -/
theorem eligible_resting (hc : crosses taker.side taker.limit o.price = true) (hs : selfTrade stp taker o = true)
    (hp : stp = .cancelResting) : eligible stp taker (o :: queue) = eligible stp taker queue := by
  subst hp
  unfold eligible makers
  simp only [List.takeWhile_cons, hc, if_true]
  simp [hs]

/-- `CancelAggressing`: an own order is the end. -/
theorem eligible_aggressing (hs : selfTrade stp taker o = true) (hp : stp ≠ .cancelResting) :
    eligible stp taker (o :: queue) = [] := by
  have hagg : stp = .cancelAggressing := by
    cases stp with
    | none => simp [selfTrade] at hs
    | cancelResting => exact absurd rfl hp
    | cancelAggressing => rfl
  unfold eligible
  rw [if_pos hagg]
  cases hc : crosses taker.side taker.limit o.price with
  | true => simp [hc, hs]
  | false => simp [hc]

theorem mem_of_mem_eligible (h : o ∈ eligible stp taker queue) : o ∈ queue := by
  unfold eligible makers at h
  split at h
  · exact (List.takeWhile_sublist _).subset ((List.takeWhile_sublist _).subset h)
  · exact (List.takeWhile_sublist _).subset (List.mem_of_mem_filter h)

end Eligible

/-! ## Handing out -/

section Allotted

variable {taker : Taker} {o : OrderData} {orders : List OrderData} {q : Nat}

@[simp] theorem allotted_nil (taker : Taker) (q : Nat) : allotted taker q [] = [] := rfl

@[simp] theorem allotted_zero (taker : Taker) (orders : List OrderData) : allotted taker 0 orders = [] := by
  cases orders with
  | nil => rfl
  | cons o orders => simp [allotted, remainders]

theorem allotted_cons (taker : Taker) (hpos : 0 < o.remaining.toNat) (hq : 0 < q) (orders : List OrderData) :
    allotted taker q (o :: orders) =
      taker.trade o (UInt64.ofNat (min o.remaining.toNat q)) :: allotted taker (q - o.remaining.toNat) orders := by
  have hne : min o.remaining.toNat q ≠ 0 := by omega
  unfold allotted remainders
  rw [List.map_cons, shares_cons, List.zip_cons_cons, List.takeWhile_cons_of_pos (by simpa using hne), List.map_cons]

/-- The `i`-th trade, by what the orders before it take. -/
theorem getElem?_allotted (taker : Taker) (hpos : ∀ o ∈ orders, 0 < o.remaining.toNat) (q i : Nat) :
    (allotted taker q orders)[i]? = orders[i]?.bind fun o =>
      if openQuantity (orders.take i) < q then
        some (taker.trade o (UInt64.ofNat (min o.remaining.toNat (q - openQuantity (orders.take i)))))
      else none := by
  induction orders generalizing q i with
  | nil => rfl
  | cons o orders ih =>
    by_cases hq : q = 0
    · -- nothing is left for anyone
      subst hq
      rw [allotted_zero, List.getElem?_nil]
      cases (o :: orders)[i]? <;> simp
    · rw [allotted_cons taker (hpos o (List.mem_cons_self ..)) (Nat.pos_of_ne_zero hq)]
      cases i with
      | zero => simp [openQuantity, Nat.pos_of_ne_zero hq]
      | succ i =>
        have hhead := hpos o (List.mem_cons_self ..)
        have hsum : openQuantity ((o :: orders).take (i + 1)) = o.remaining.toNat + openQuantity (orders.take i) := rfl
        have hlt : openQuantity (orders.take i) < q - o.remaining.toNat ↔
            o.remaining.toNat + openQuantity (orders.take i) < q := by omega
        rw [List.getElem?_cons_succ, List.getElem?_cons_succ, ih fun x hx => hpos x (List.mem_cons_of_mem _ hx), hsum,
          Nat.sub_sub]
        simp only [hlt]

end Allotted

/-! ## The walk in closed form -/

section Walk

variable {stp : SelfTradePolicy} {taker : Taker} {queue : List OrderData}

theorem openQuantity_eq (orders : List OrderData) : openQuantity orders = (remainders orders).sum := rfl

/-- A walk hands its quantity out over the eligible orders. -/
theorem sweep_allotted (stp : SelfTradePolicy) (taker : Taker) (hpos : ∀ o ∈ queue, 0 < o.remaining) (quantity : Quantity) :
    (sweep stp taker quantity queue).trades = allotted taker quantity.toNat (eligible stp taker queue) ∧
      (sweep stp taker quantity queue).remaining.toNat =
        quantity.toNat - openQuantity (eligible stp taker queue) := by
  induction queue generalizing quantity with
  | nil => simp [openQuantity]
  | cons o queue ih =>
    have ho : 0 < o.remaining.toNat := UInt64.lt_iff_toNat_lt.1 (hpos o (List.mem_cons_self ..))
    have ih := fun quantity => ih (fun x hx => hpos x (List.mem_cons_of_mem _ hx)) quantity
    rcases sweep_cases stp taker quantity o queue with ⟨hd, h⟩ | ⟨hd, hs, hp, h⟩ | ⟨hd, hs, hp, h⟩ | ⟨hd, hs, hf, h⟩ |
      ⟨hd, hs, hf, h⟩
    · rw [h]
      by_cases hq : quantity = 0
      · subst hq
        simp
      · have hc : crosses taker.side taker.limit o.price = false := by
          simpa [Taker.done, hq] using hd
        rw [eligible_uncrossed hc]
        simp [openQuantity]
    · obtain ⟨-, hc⟩ := not_done_iff.1 hd
      rw [h, eligible_resting hc hs hp]
      exact ih quantity
    · rw [h, eligible_aggressing hs hp]
      simp [openQuantity]
    · -- the order in front is consumed
      obtain ⟨hq, hc⟩ := not_done_iff.1 hd
      have hpos : 0 < quantity.toNat := UInt64.lt_iff_toNat_lt.1 (UInt64.pos_iff_ne_zero.2 hq)
      have hle : o.remaining.toNat ≤ quantity.toNat := UInt64.le_iff_toNat_le.1 hf
      have hsub : (quantity - o.remaining).toNat = quantity.toNat - o.remaining.toNat :=
        UInt64.toNat_sub_of_le _ _ hf
      obtain ⟨ht, hr⟩ := ih (quantity - o.remaining)
      rw [h, eligible_cons hc hs, allotted_cons taker ho hpos, Nat.min_eq_left hle, UInt64.ofNat_toNat, ← hsub, ← ht]
      refine ⟨rfl, ?_⟩
      show (sweep stp taker (quantity - o.remaining) queue).remaining.toNat = _
      rw [hr, hsub, Nat.sub_sub]
      rfl
    · -- the order in front takes what is left
      obtain ⟨hq, hc⟩ := not_done_iff.1 hd
      have hpos : 0 < quantity.toNat := UInt64.lt_iff_toNat_lt.1 (UInt64.pos_iff_ne_zero.2 hq)
      have hlt : quantity.toNat < o.remaining.toNat := UInt64.lt_iff_toNat_lt.1 hf
      rw [h, eligible_cons hc hs, allotted_cons taker ho hpos, Nat.min_eq_right (Nat.le_of_lt hlt),
        UInt64.ofNat_toNat, Nat.sub_eq_zero_of_le (Nat.le_of_lt hlt), allotted_zero]
      refine ⟨rfl, ?_⟩
      have hall : openQuantity (o :: eligible stp taker queue) =
          o.remaining.toNat + openQuantity (eligible stp taker queue) := rfl
      rw [hall]
      show (0 : UInt64).toNat = _
      rw [UInt64.toNat_zero]
      omega

end Walk

namespace ListBook

variable {b : ListBook} {taker : Taker} {quantity : Quantity}

/-- What an accepted order trades. -/
theorem submit_allotted (hv : b.Valid) (hacc : (b.submit taker quantity).2.status ≠ .rejected) :
    (b.submit taker quantity).1.trades =
        allotted taker quantity.toNat (eligible b.stp taker (b.opposite taker.side)) ∧
      (b.submit taker quantity).2.filled.toNat =
        min quantity.toNat (openQuantity (eligible b.stp taker (b.opposite taker.side))) := by
  have hpos : ∀ o ∈ b.opposite taker.side, 0 < o.remaining := fun o ho =>
    hv.positive o ((mem_resting taker.side).2 (.inr ho))
  obtain ⟨ht, hr⟩ := sweep_allotted b.stp taker hpos quantity
  have hfilled : (quantity - (b.walk taker quantity).remaining).toNat =
      min quantity.toNat (openQuantity (eligible b.stp taker (b.opposite taker.side))) := by
    have hr' : (b.walk taker quantity).remaining.toNat = _ := hr
    have hle : (b.walk taker quantity).remaining ≤ quantity := UInt64.le_iff_toNat_le.2 (by omega)
    rw [UInt64.toNat_sub_of_le _ _ hle]
    omega
  rcases submit_cases b taker quantity with ⟨-, he⟩ | ⟨hq, hcases⟩
  · rw [he] at hacc
    exact absurd rfl hacc
  · refine ⟨(submit_accepted (not_or.2 hq)).1.trans ht, ?_⟩
    rcases hcases with ⟨-, he⟩ | ⟨-, -, he⟩ | ⟨-, h0, he⟩
    · rw [he]; exact hfilled
    · rw [he]; exact hfilled
    · rw [he, ← hfilled, h0, UInt64.sub_zero]

end ListBook

/-! ## Best execution -/

section Best

variable {stp : SelfTradePolicy} {taker : Taker} {queue : List OrderData}

/-- The eligible orders are the first of those the policy lets the taker trade with. -/
theorem eligible_front (stp : SelfTradePolicy) (taker : Taker) (queue : List OrderData) :
    eligible stp taker queue <+: makers stp taker queue := by
  induction queue with
  | nil => simp [makers]
  | cons o queue ih =>
    cases hc : crosses taker.side taker.limit o.price with
    | false =>
      rw [eligible_uncrossed hc]
      exact List.nil_prefix
    | true =>
      cases hs : selfTrade stp taker o with
      | false =>
        rw [eligible_cons hc hs, makers_cons hs]
        exact (List.prefix_cons_inj o).2 ih
      | true =>
        by_cases hp : stp = .cancelResting
        · rw [eligible_resting hc hs hp, makers_cons_own hs]
          exact ih
        · rw [eligible_aggressing hs hp]
          exact List.nil_prefix

/-- A better limit makes more orders eligible, behind the others. -/
theorem eligible_mono (stp : SelfTradePolicy) {taker' : Taker} (hs : taker'.trader = taker.trader)
    (hc : ∀ p, crosses taker.side taker.limit p = true → crosses taker'.side taker'.limit p = true)
    (queue : List OrderData) : eligible stp taker queue <+: eligible stp taker' queue := by
  have hself : ∀ o, selfTrade stp taker' o = selfTrade stp taker o := by
    intro o
    unfold selfTrade
    rw [hs]
  induction queue with
  | nil => simp
  | cons o queue ih =>
    cases hc₁ : crosses taker.side taker.limit o.price with
    | false =>
      rw [eligible_uncrossed hc₁]
      exact List.nil_prefix
    | true =>
      cases hs₁ : selfTrade stp taker o with
      | false =>
        rw [eligible_cons hc₁ hs₁, eligible_cons (hc _ hc₁) ((hself o).trans hs₁)]
        exact (List.prefix_cons_inj o).2 ih
      | true =>
        by_cases hp : stp = .cancelResting
        · rw [eligible_resting hc₁ hs₁ hp, eligible_resting (hc _ hc₁) ((hself o).trans hs₁) hp]
          exact ih
        · rw [eligible_aggressing hs₁ hp]
          exact List.nil_prefix

/-- What changes hands: the price of each trade, for its quantity. -/
def turnover (trades : List Trade) : Int := (trades.map fun t => (t.quantity.toNat : Int) * t.price.toInt).sum

def prices (orders : List OrderData) : List Int := orders.map (·.price.toInt)

theorem cost_shares_zero (orders : List OrderData) :
    cost (shares 0 (remainders orders)) (prices orders) = 0 := by
  induction orders with
  | nil => rfl
  | cons o orders ih =>
    unfold remainders prices at ih ⊢
    rw [List.map_cons, List.map_cons, shares_cons, cost_cons, Nat.zero_sub, ih]
    simp

theorem turnover_allotted (taker : Taker) {orders : List OrderData} (hpos : ∀ o ∈ orders, 0 < o.remaining.toNat)
    (q : Nat) : turnover (allotted taker q orders) = cost (shares q (remainders orders)) (prices orders) := by
  induction orders generalizing q with
  | nil => rfl
  | cons o orders ih =>
    have ho := hpos o (List.mem_cons_self ..)
    by_cases hq : q = 0
    · subst hq
      rw [allotted_zero, cost_shares_zero]
      rfl
    · have hlt : min o.remaining.toNat q < 2 ^ 64 := (Nat.min_le_left ..).trans_lt o.remaining.toNat_lt
      have hcons : cost (shares q (remainders (o :: orders))) (prices (o :: orders)) =
          (min o.remaining.toNat q : Nat) * o.price.toInt +
            cost (shares (q - o.remaining.toNat) (remainders orders)) (prices orders) := rfl
      rw [allotted_cons taker ho (Nat.pos_of_ne_zero hq), hcons,
        ← ih fun x hx => hpos x (List.mem_cons_of_mem _ hx)]
      unfold turnover
      rw [List.map_cons, List.sum_cons]
      simp only [Taker.trade]
      rw [UInt64.toNat_ofNat_of_lt' hlt]

/-- What is traded with the eligible orders is handed out over all the policy allows. -/
theorem cost_eligible (stp : SelfTradePolicy) (taker : Taker) (queue : List OrderData) (q : Nat) :
    cost (shares (min q (openQuantity (eligible stp taker queue))) (remainders (makers stp taker queue)))
        (prices (makers stp taker queue)) =
      cost (shares q (remainders (eligible stp taker queue))) (prices (eligible stp taker queue)) := by
  obtain ⟨behind, hb⟩ := eligible_front stp taker queue
  rw [← hb]
  unfold remainders prices
  have hlen : (shares q ((eligible stp taker queue).map fun o => o.remaining.toNat)).length =
      ((eligible stp taker queue).map fun o => o.price.toInt).length := by simp
  have hnone : min q (openQuantity (eligible stp taker queue)) -
      ((eligible stp taker queue).map fun o => o.remaining.toNat).sum = 0 :=
    Nat.sub_eq_zero_of_le (Nat.min_le_right ..)
  rw [List.map_append, List.map_append, shares_append, hnone, openQuantity_eq]
  unfold remainders
  rw [shares_min, cost_append _ _ hlen]
  have := cost_shares_zero behind
  unfold remainders prices at this
  rw [this, add_zero]

end Best

namespace ListBook

variable {b : ListBook} {taker : Taker} {quantity : Quantity}

/-- Prices rise or fall away from the touch. -/
theorem prices_sorted (hv : b.Valid) (taker : Taker) :
    if taker.side = .buy then (prices (makers b.stp taker (b.opposite taker.side))).Pairwise (· ≤ ·)
    else (prices (makers b.stp taker (b.opposite taker.side))).Pairwise (· ≥ ·) := by
  unfold prices makers opposite
  split
  · rw [List.pairwise_map]
    refine (hv.askSorted.filter _).imp fun h => ?_
    exact Int64.le_iff_toInt_le.1 (Int64.not_lt.1 h)
  · rw [List.pairwise_map]
    refine (hv.bidSorted.filter _).imp fun h => ?_
    exact Int64.le_iff_toInt_le.1 (Int64.not_lt.1 h)

end ListBook

/-- The trades of two orders that look at the same orders, the second further and with more. -/
theorem allotted_mono {taker : Taker} (taker' : Taker) {orders orders' : List OrderData} {q q' i : Nat} {t : Trade}
    (hpos : ∀ o ∈ orders', 0 < o.remaining.toNat) (hpre : orders <+: orders') (hq : q ≤ q')
    (ht : (allotted taker q orders)[i]? = some t) :
    ∃ t', (allotted taker' q' orders')[i]? = some t' ∧ t'.makerId = t.makerId ∧ t'.price = t.price ∧
      t.quantity ≤ t'.quantity ∧ (q = q' ∨ i + 1 < (allotted taker q orders).length → t'.quantity = t.quantity) := by
  obtain ⟨behind, rfl⟩ := hpre
  have hposl : ∀ o ∈ orders, 0 < o.remaining.toNat := fun o ho => hpos o (List.mem_append_left _ ho)
  have hnext := getElem?_allotted taker hposl q (i + 1)
  rw [getElem?_allotted taker hposl] at ht
  rw [getElem?_allotted taker' hpos]
  obtain ⟨o, ho, ht⟩ := Option.bind_eq_some_iff.1 ht
  have hi : i < orders.length := (List.getElem?_eq_some_iff.1 ho).1
  -- both look at the same order, behind the same ones
  rw [List.getElem?_append_left hi, ho, List.take_append_of_le_length (Nat.le_of_lt hi), Option.bind_some]
  split at ht
  case isFalse => cases ht
  case isTrue hlt =>
    obtain rfl := Option.some.inj ht
    have hm : ∀ n, (UInt64.ofNat (min o.remaining.toNat n)).toNat = min o.remaining.toNat n := fun n =>
      UInt64.toNat_ofNat_of_lt' ((Nat.min_le_left ..).trans_lt o.remaining.toNat_lt)
    rw [if_pos (Nat.lt_of_lt_of_le hlt hq)]
    refine ⟨_, rfl, rfl, rfl, ?_, ?_⟩
    · apply UInt64.le_iff_toNat_le.2
      simp only [Taker.trade, hm]
      omega
    · rintro (rfl | hlast)
      · rfl
      · -- the next trade shows that this maker was used up
        have hused : openQuantity (orders.take (i + 1)) < q := by
          rw [List.getElem?_eq_getElem hlast] at hnext
          obtain ⟨y, -, hy⟩ := Option.bind_eq_some_iff.1 hnext.symm
          by_contra hge
          rw [if_neg hge] at hy
          cases hy
        have hsum : openQuantity (orders.take (i + 1)) = openQuantity (orders.take i) + o.remaining.toNat := by
          unfold openQuantity
          rw [List.take_add_one, ho]
          simp
        apply UInt64.toNat_inj.1
        simp only [Taker.trade, hm]
        omega

theorem openQuantity_mono {orders orders' : List OrderData} (h : orders <+: orders') :
    openQuantity orders ≤ openQuantity orders' := by
  obtain ⟨behind, rfl⟩ := h
  unfold openQuantity
  rw [List.map_append, List.sum_append]
  exact Nat.le_add_right ..

namespace ListBook

variable {b : ListBook} {taker taker' : Taker} {quantity quantity' : Quantity}

theorem eligible_positive (hv : b.Valid) (taker : Taker) :
    ∀ o ∈ eligible b.stp taker (b.opposite taker.side), 0 < o.remaining.toNat := by
  intro o ho
  have hrest : o ∈ b.resting := (mem_resting taker.side).2 (.inr (mem_of_mem_eligible ho))
  exact UInt64.lt_iff_toNat_lt.1 (hv.positive o hrest)

/-- Two orders on one book. -/
theorem submit_mono (hv : b.Valid) (hside : taker'.side = taker.side) (htrader : taker'.trader = taker.trader)
    (hcross : ∀ p, crosses taker.side taker.limit p = true → crosses taker'.side taker'.limit p = true)
    (hq : quantity ≤ quantity') (hacc : (b.submit taker quantity).2.status ≠ .rejected)
    (hacc' : (b.submit taker' quantity').2.status ≠ .rejected) :
    (b.submit taker quantity).2.filled ≤ (b.submit taker' quantity').2.filled ∧
      ∀ i t, (b.submit taker quantity).1.trades[i]? = some t →
        ∃ t', (b.submit taker' quantity').1.trades[i]? = some t' ∧ t'.makerId = t.makerId ∧ t'.price = t.price ∧
          t.quantity ≤ t'.quantity ∧
          (quantity = quantity' ∨ i + 1 < (b.submit taker quantity).1.trades.length →
            t'.quantity = t.quantity) := by
  obtain ⟨ht, hf⟩ := submit_allotted hv hacc
  obtain ⟨ht', hf'⟩ := submit_allotted hv hacc'
  have hpos := eligible_positive hv taker'
  rw [hside] at ht' hf' hpos
  have hpre := eligible_mono b.stp htrader hcross (b.opposite taker.side)
  have hq' : quantity.toNat ≤ quantity'.toNat := UInt64.le_iff_toNat_le.1 hq
  have hopen := openQuantity_mono hpre
  constructor
  · apply UInt64.le_iff_toNat_le.2
    omega
  · intro i t hi
    rw [ht] at hi ⊢
    rw [ht']
    obtain ⟨t', ht', h1, h2, h3, h4⟩ := allotted_mono taker' hpos hpre hq' hi
    exact ⟨t', ht', h1, h2, h3, fun h => h4 (h.imp_left fun he => by rw [he])⟩

/-- No other way to take what was filled is cheaper, or earns more. -/
theorem submit_best (hv : b.Valid) (hacc : (b.submit taker quantity).2.status ≠ .rejected) (taken : List Nat)
    (htaken : List.Forall₂ (· ≤ ·) taken (remainders (makers b.stp taker (b.opposite taker.side))))
    (hsum : taken.sum = (b.submit taker quantity).2.filled.toNat) :
    if taker.side = .buy then
      turnover (b.submit taker quantity).1.trades ≤
        cost taken (prices (makers b.stp taker (b.opposite taker.side)))
    else
      cost taken (prices (makers b.stp taker (b.opposite taker.side))) ≤
        turnover (b.submit taker quantity).1.trades := by
  obtain ⟨ht, hf⟩ := submit_allotted hv hacc
  have hsorted := prices_sorted hv taker
  have hlen : (remainders (makers b.stp taker (b.opposite taker.side))).length =
      (prices (makers b.stp taker (b.opposite taker.side))).length := by simp [remainders, prices]
  have hall : openQuantity (eligible b.stp taker (b.opposite taker.side)) ≤
      (remainders (makers b.stp taker (b.opposite taker.side))).sum :=
    openQuantity_mono (eligible_front b.stp taker (b.opposite taker.side))
  have hhanded : taken.sum = (shares (min quantity.toNat (openQuantity (eligible b.stp taker
      (b.opposite taker.side)))) (remainders (makers b.stp taker (b.opposite taker.side)))).sum := by
    rw [sum_shares, hsum, hf]
    omega
  rw [ht, turnover_allotted taker (eligible_positive hv taker), ← cost_eligible]
  split
  case isTrue hs =>
    rw [if_pos hs] at hsorted
    exact cost_shares_le hsorted hlen htaken hhanded
  case isFalse hs =>
    rw [if_neg hs] at hsorted
    exact le_cost_shares hsorted hlen htaken hhanded

end ListBook

/-! ## The book -/

namespace OrderBook

/-- **What an order trades.** In every reachable book an accepted order fills what the eligible orders
have, up to its quantity; its `i`-th trade is with the `i`-th of them, for what those in front of that
one leave, up to what remains of it. -/
theorem submit_fills (stp : SelfTradePolicy) (poolCapacity : UInt64) (calls : List BookCall) :
    ∃ b₀ b outs, create stp poolCapacity = some b₀ ∧ Machine.run step b₀ calls = some (b, outs) ∧
      ∀ id trader side price quantity, ∃ b' res, b.submit id trader side price quantity = some (b', res) ∧
        (res.status ≠ .rejected →
          let taker : Taker := ⟨id, trader, side, price⟩
          let orders := eligible stp taker (b.sides.opposite side)
          res.filled.toNat = min quantity.toNat (openQuantity orders) ∧
          ∀ i, b'.trades[i]? = orders[i]?.bind fun o =>
            if openQuantity (orders.take i) < quantity.toNat then
              some (taker.trade o
                (UInt64.ofNat (min o.remaining.toNat (quantity.toNat - openQuantity (orders.take i)))))
            else none) := by
  obtain ⟨b₀, hr, h₀⟩ := create_spec stp poolCapacity
  obtain ⟨b, hrun, h⟩ := step_refines.run h₀ calls
  obtain ⟨hv, hstp⟩ := ListBook.reached_valid stp calls
  refine ⟨b₀, b, _, hr, hrun, fun id trader side price quantity => ?_⟩
  obtain ⟨b', hsub, h'⟩ := submit_spec h id trader side price quantity
  refine ⟨b', _, hsub, fun hacc => ?_⟩
  obtain ⟨ht, hf⟩ := ListBook.submit_allotted hv hacc
  have hpos := ListBook.eligible_positive hv ⟨id, trader, side, price⟩
  rw [hstp] at ht hf hpos
  have htrades : b'.trades = _ := congrArg Observation.lastTrades (observe_spec h')
  rw [sides_eq h]
  refine ⟨hf, fun i => ?_⟩
  rw [htrades]
  show (ListBook.submit _ _ _).1.trades[i]? = _
  rw [ht]
  exact getElem?_allotted _ hpos _ i

/-- **A larger order and a better limit only add trades.** Of two orders of one trader and side that the
same reachable book accepts, the one that asks for no less at a limit no worse fills no less, and trades
with the same makers in the same order, with each for no less. -/
theorem fills_mono (stp : SelfTradePolicy) (poolCapacity : UInt64) (calls : List BookCall) :
    ∃ b₀ b outs, create stp poolCapacity = some b₀ ∧ Machine.run step b₀ calls = some (b, outs) ∧
      ∀ id id' trader side price price' quantity quantity', quantity ≤ quantity' →
        (if side = .buy then price ≤ price' else price' ≤ price) →
        ∃ b₁ res₁ b₂ res₂, b.submit id trader side price quantity = some (b₁, res₁) ∧
          b.submit id' trader side price' quantity' = some (b₂, res₂) ∧
          (res₁.status ≠ .rejected → res₂.status ≠ .rejected → res₁.filled ≤ res₂.filled ∧
            ∀ i t, b₁.trades[i]? = some t → ∃ t', b₂.trades[i]? = some t' ∧ t'.makerId = t.makerId ∧
              t'.price = t.price ∧ t.quantity ≤ t'.quantity ∧
              (quantity = quantity' ∨ i + 1 < b₁.trades.length → t'.quantity = t.quantity)) := by
  obtain ⟨b₀, hr, h₀⟩ := create_spec stp poolCapacity
  obtain ⟨b, hrun, h⟩ := step_refines.run h₀ calls
  obtain ⟨hv, -⟩ := ListBook.reached_valid stp calls
  refine ⟨b₀, b, _, hr, hrun, fun id id' trader side price price' quantity quantity' hq hprice => ?_⟩
  obtain ⟨b₁, hsub₁, h₁⟩ := submit_spec h id trader side price quantity
  obtain ⟨b₂, hsub₂, h₂⟩ := submit_spec h id' trader side price' quantity'
  refine ⟨b₁, _, b₂, _, hsub₁, hsub₂, fun hacc₁ hacc₂ => ?_⟩
  have hcross : ∀ p, crosses side price p = true → crosses side price' p = true := by
    intro p hp
    unfold crosses at hp ⊢
    split at hp <;> simp_all <;> grind
  have ht₁ : b₁.trades = _ := congrArg Observation.lastTrades (observe_spec h₁)
  have ht₂ : b₂.trades = _ := congrArg Observation.lastTrades (observe_spec h₂)
  rw [ht₁, ht₂]
  exact ListBook.submit_mono hv rfl rfl hcross hq hacc₁ hacc₂

/-- **Best execution.** In every reachable book, of all ways to take as much as an order filled from the
orders its trader may trade with, at any limit, a purchase costs the least and a sale earns the most. -/
theorem best_execution (stp : SelfTradePolicy) (poolCapacity : UInt64) (calls : List BookCall) :
    ∃ b₀ b outs, create stp poolCapacity = some b₀ ∧ Machine.run step b₀ calls = some (b, outs) ∧
      ∀ id trader side price quantity, ∃ b' res, b.submit id trader side price quantity = some (b', res) ∧
        (res.status ≠ .rejected →
          let orders := makers stp ⟨id, trader, side, price⟩ (b.sides.opposite side)
          ∀ taken, List.Forall₂ (· ≤ ·) taken (remainders orders) → taken.sum = res.filled.toNat →
            if side = .buy then turnover b'.trades ≤ cost taken (prices orders)
            else cost taken (prices orders) ≤ turnover b'.trades) := by
  obtain ⟨b₀, hr, h₀⟩ := create_spec stp poolCapacity
  obtain ⟨b, hrun, h⟩ := step_refines.run h₀ calls
  obtain ⟨hv, hstp⟩ := ListBook.reached_valid stp calls
  refine ⟨b₀, b, _, hr, hrun, fun id trader side price quantity => ?_⟩
  obtain ⟨b', hsub, h'⟩ := submit_spec h id trader side price quantity
  refine ⟨b', _, hsub, fun hacc => ?_⟩
  have ht : b'.trades = _ := congrArg Observation.lastTrades (observe_spec h')
  rw [ht, sides_eq h]
  intro orders taken htaken hsum
  have hbest := ListBook.submit_best hv hacc taken
  rw [hstp] at hbest
  exact hbest htaken hsum

end OrderBook

end Obe
