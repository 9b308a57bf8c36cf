/-
When the self-trade policy matters. A book that prevents self-trades behaves like one that does not for
as long as the latter has none to show, and not longer.
-/
import OrderBookEngine.Book.Invariant
import OrderBookEngine.Book.Refinement

namespace Obe

/-- The two sides of a trade are of different traders. -/
def Trade.Foreign (t : Trade) : Prop := t.makerTrader ≠ t.takerTrader

section Walk

variable {stp : SelfTradePolicy} {taker : Taker} {remaining : Quantity} {queue : List OrderData} {t : Trade}

theorem foreign_trade (hp : stp ≠ .none) {o : OrderData} (hs : selfTrade stp taker o = false) (q : Quantity) :
    (taker.trade o q).Foreign := by
  show o.trader ≠ taker.trader
  simpa [selfTrade, hp] using hs

/-- A policy lets no trader meet itself. -/
theorem sweep_foreign (hp : stp ≠ .none) (ht : t ∈ (sweep stp taker remaining queue).trades) : t.Foreign := by
  induction queue generalizing remaining with
  | nil => cases ht
  | cons o queue ih =>
    rcases sweep_cases stp taker remaining o queue with
      ⟨-, h⟩ | ⟨-, -, -, h⟩ | ⟨-, -, -, h⟩ | ⟨-, hs, -, h⟩ | ⟨-, hs, -, h⟩
    · rw [h] at ht
      cases ht
    · rw [h] at ht
      exact ih ht
    · rw [h] at ht
      cases ht
    · rw [h] at ht
      rcases List.mem_cons.1 ht with rfl | ht
      · exact foreign_trade hp hs _
      · exact ih ht
    · rw [h] at ht
      obtain rfl := List.mem_singleton.1 ht
      exact foreign_trade hp hs _

/-- A walk whose trades are all with others is the walk under every policy. -/
theorem sweep_agree (stp : SelfTradePolicy) (h : ∀ t ∈ (sweep .none taker remaining queue).trades, t.Foreign) :
    sweep stp taker remaining queue = sweep .none taker remaining queue := by
  induction queue generalizing remaining with
  | nil => rfl
  | cons o queue ih =>
    have hother : (taker.trade o 0).Foreign → selfTrade stp taker o = false := by
      intro hf
      have hne : o.trader ≠ taker.trader := hf
      simp [selfTrade, hne]
    rcases sweep_cases .none taker remaining o queue with
      ⟨hd, he⟩ | ⟨-, -, hp, -⟩ | ⟨-, hs, -, -⟩ | ⟨hd, -, hf, he⟩ | ⟨hd, -, hf, he⟩
    · rw [he, sweep_done hd]
    · cases hp
    · simp [selfTrade] at hs
    · rw [he] at h ⊢
      have hhead : (taker.trade o o.remaining).Foreign := h _ (List.mem_cons_self ..)
      rw [sweep_fill hd (hother hhead) hf, ih fun t ht => h t (List.mem_cons_of_mem _ ht)]
    · rw [he] at h ⊢
      have hhead : (taker.trade o remaining).Foreign := h _ (List.mem_cons_self ..)
      exact sweep_exhaust hd (hother hhead) hf

end Walk

namespace ListBook

variable {b : ListBook} {taker : Taker} {quantity : Quantity}

/-- The same book without a policy. -/
def relax (b : ListBook) : ListBook := { b with stp := .none }

/-- The trades on display after a call are with others. -/
theorem call_foreign (hp : b.stp ≠ .none) (h : ∀ t ∈ b.trades, t.Foreign) (c : BookCall) :
    ∀ t ∈ (b.call c).1.trades, t.Foreign := by
  cases c with
  | submit id trader side price quantity =>
    intro t ht
    have ht' : t ∈ (b.submit ⟨id, trader, side, price⟩ quantity).1.trades := ht
    by_cases hq : quantity = 0 ∨ id ∈ b.ids
    · rw [@submit_refused b ⟨id, trader, side, price⟩ quantity hq] at ht'
      cases ht'
    · rw [(@submit_accepted b ⟨id, trader, side, price⟩ quantity hq).1] at ht'
      exact sweep_foreign hp ht'
  | cancel id =>
    have hsame : (b.cancel id).1.trades = b.trades := by rw [cancel_eq]
    intro t ht
    exact h t (hsame ▸ ht)

theorem submit_relax (taker : Taker) (quantity : Quantity)
    (h : ∀ t ∈ (b.relax.submit taker quantity).1.trades, t.Foreign) :
    b.relax.submit taker quantity = ((b.submit taker quantity).1.relax, (b.submit taker quantity).2) := by
  by_cases hq : quantity = 0 ∨ taker.id ∈ b.ids
  · have hq' : quantity = 0 ∨ taker.id ∈ b.relax.ids := hq
    rw [submit_refused hq, submit_refused hq']
    rfl
  · have hq' : ¬ (quantity = 0 ∨ taker.id ∈ b.relax.ids) := hq
    rw [(submit_accepted hq').1] at h
    have hwalk : b.walk taker quantity = b.relax.walk taker quantity := sweep_agree b.stp h
    have hswept : ∀ r, b.relax.swept taker r = (b.swept taker r).relax := by
      intro r
      unfold swept setOpposite relax
      split <;> rfl
    have hrest : ∀ (b : ListBook) q, b.relax.rest taker q = (b.rest taker q).relax := by
      intro b q
      unfold rest relax
      dsimp only
      split <;> rfl
    unfold submit
    dsimp only
    rw [if_neg hq, if_neg hq', hwalk, hswept]
    split
    · rfl
    · split
      · rw [hrest]
      · rfl

/-- The step lemma: a call that shows no self-trade without a policy does the same with one. -/
theorem step_relax (c : BookCall) (h : ∀ t ∈ (b.relax.step c).2.2.lastTrades, t.Foreign) :
    b.relax.step c = ((b.step c).1.relax, (b.step c).2) := by
  have hcall : b.relax.call c = ((b.call c).1.relax, (b.call c).2) := by
    cases c with
    | submit id trader side price quantity =>
      have := submit_relax ⟨id, trader, side, price⟩ quantity h
      exact congrArg (fun r => (r.1, BookRet.submitted r.2)) this
    | cancel id =>
      show ((b.relax.cancel id).1, BookRet.cancelled (b.relax.cancel id).2) = _
      rw [cancel_eq]
      show _ = ((b.cancel id).1.relax, BookRet.cancelled (b.cancel id).2)
      rw [cancel_eq]
      rfl
  unfold step
  rw [hcall]
  rfl

/-- The run lemma, as long as there is no self-trade. -/
theorem run_relax (calls : List BookCall)
    (h : ∀ o ∈ (Machine.runT step b.relax calls).2, ∀ t ∈ o.2.lastTrades, t.Foreign) :
    (Machine.runT step b calls).2 = (Machine.runT step b.relax calls).2 := by
  induction calls generalizing b with
  | nil => rfl
  | cons c calls ih =>
    have hstep := step_relax (b := b) c (h _ (List.mem_cons_self ..))
    have htail : ∀ o ∈ (Machine.runT step (b.step c).1.relax calls).2, ∀ t ∈ o.2.lastTrades, t.Foreign := by
      intro o ho
      have hnext : (b.relax.step c).1 = (b.step c).1.relax := congrArg Prod.fst hstep
      rw [← hnext] at ho
      exact h o (List.mem_cons_of_mem _ ho)
    show (b.step c).2 :: (Machine.runT step (b.step c).1 calls).2 =
      (b.relax.step c).2 :: (Machine.runT step (b.relax.step c).1 calls).2
    rw [hstep, ih htail]

/-- With a policy no run shows a self-trade. -/
theorem run_foreign (hp : b.stp ≠ .none) (h : ∀ t ∈ b.trades, t.Foreign) (calls : List BookCall) :
    ∀ o ∈ (Machine.runT step b calls).2, ∀ t ∈ o.2.lastTrades, t.Foreign := by
  induction calls generalizing b with
  | nil => simp [Machine.runT]
  | cons c calls ih =>
    have hcall := call_foreign hp h c
    have hp' : (b.step c).1.stp ≠ .none := by
      rw [show (b.step c).1.stp = b.stp from call_stp b c]
      exact hp
    rintro o (_ | ⟨_, ho⟩)
    · exact hcall
    · exact ih hp' hcall o ho

end ListBook

/-- **A policy matters exactly when there is a self-trade.** Over every run, a book that prevents
self-trades returns and shows what a book without a policy does if and only if the latter shows no trade
of a trader with itself. -/
theorem OrderBook.policy_matters_iff (stp : SelfTradePolicy) (hp : stp ≠ .none) (poolCapacity : UInt64)
    (calls : List BookCall) :
    ∃ b₀ b outs b₀' b' outs', create stp poolCapacity = some b₀ ∧ Machine.run step b₀ calls = some (b, outs) ∧
      create .none poolCapacity = some b₀' ∧ Machine.run step b₀' calls = some (b', outs') ∧
      (outs = outs' ↔ ∀ o ∈ outs', ∀ t ∈ o.2.lastTrades, t.makerTrader ≠ t.takerTrader) := by
  obtain ⟨b₀, hr, h₀⟩ := create_spec stp poolCapacity
  obtain ⟨b, hrun, -⟩ := step_refines.run h₀ calls
  obtain ⟨b₀', hr', h₀'⟩ := create_spec .none poolCapacity
  obtain ⟨b', hrun', -⟩ := step_refines.run h₀' calls
  refine ⟨b₀, b, _, b₀', b', _, hr, hrun, hr', hrun', ?_⟩
  constructor
  · intro he
    rw [← he]
    exact ListBook.run_foreign hp (by simp [ListBook.create]) calls
  · intro hforeign
    exact ListBook.run_relax (b := .create stp) calls hforeign

/-- A sale and a purchase of two traders: `CancelResting` shows nothing else. -/
theorem OrderBook.policy_matters_two :
    ∃ b₀ b outs b₀' b' outs', create .cancelResting 4 = some b₀ ∧
      Machine.run step b₀ [.submit 1 1 .sell 100 5, .submit 2 2 .buy 100 3] = some (b, outs) ∧
      create .none 4 = some b₀' ∧
      Machine.run step b₀' [.submit 1 1 .sell 100 5, .submit 2 2 .buy 100 3] = some (b', outs') ∧
      (outs = outs' ↔ ∀ o ∈ outs', ∀ t ∈ o.2.lastTrades, t.makerTrader ≠ t.takerTrader) :=
  policy_matters_iff .cancelResting (by decide) 4 _

end Obe
