/-
What the limits of the gate come to on the book. The gate looks at one submission; the limits hold
of every order that rests and of every trade, since an order only shrinks and trades at the price
of a maker that passed the gate itself. The collar is checked on the limit price and bounds the
price of every trade.
-/
import OrderBookEngine.Engine.Gate
import OrderBookEngine.Engine.Limits
import OrderBookEngine.Book.Fills

namespace Obe

/-! ## Bounds that a smaller quantity keeps -/

/-- What is left of an order after a walk keeps its price, and is no more than it was. -/
theorem sweep_shrinks {stp : SelfTradePolicy} {taker : Taker} {remaining : Quantity} {queue : List OrderData}
    {d : OrderData} (h : d ∈ (sweep stp taker remaining queue).queue) :
    ∃ o ∈ queue, d.price = o.price ∧ d.remaining ≤ o.remaining := by
  obtain ⟨gone, kept, rfl, hk | ⟨o, l, t, rfl, hlt, hk⟩⟩ := sweep_queue stp taker remaining queue
  · rw [hk] at h
    exact ⟨d, List.mem_append_right _ h, rfl, UInt64.le_refl _⟩
  · rw [hk] at h
    rcases List.mem_cons.1 h with rfl | h
    · refine ⟨o, List.mem_append_right _ (List.mem_cons_self ..), rfl, ?_⟩
      simp only [OrderData.reduce]
      grind
    · exact ⟨d, List.mem_append_right _ (List.mem_cons_of_mem _ h), rfl, UInt64.le_refl _⟩

namespace ListBook

/-- Every order rests with, and every trade was made for, a price and a quantity in `P`. -/
structure Within (b : ListBook) (P : Price → Quantity → Prop) : Prop where
  resting : ∀ o ∈ b.resting, P o.price o.remaining
  trades : ∀ t ∈ b.trades, P t.price t.quantity

section Within

variable {b : ListBook} {P : Price → Quantity → Prop}

theorem create_within (stp : SelfTradePolicy) (P : Price → Quantity → Prop) : (create stp).Within P :=
  ⟨by simp [create, resting], by simp [create]⟩

/-- Bounds that a smaller quantity keeps are kept by a walk. -/
theorem Within.swept (h : b.Within P) (hv : b.Valid)
    (hdown : ∀ price qty qty', qty' ≤ qty → P price qty → P price qty') (taker : Taker) (quantity : Quantity) :
    (b.swept taker (b.walk taker quantity)).Within P := by
  have hside : ∀ o ∈ b.opposite taker.side, P o.price o.remaining := fun o ho =>
    h.resting o ((mem_resting taker.side).2 (.inr ho))
  constructor
  case resting =>
    intro d hd
    rw [mem_resting taker.side, swept_own, swept_opposite] at hd
    rcases hd with hd | hd
    · exact h.resting d ((mem_resting taker.side).2 (.inl hd))
    · obtain ⟨o, ho, hprice, hle⟩ := sweep_shrinks hd
      rw [hprice]
      exact hdown _ _ _ hle (hside o ho)
  case trades =>
    intro t ht
    rw [swept_trades] at ht
    obtain ⟨gone, kept, hqueue, hw⟩ := sweep_walked b.stp taker quantity (b.opposite taker.side)
    have hpos : ∀ o ∈ gone ++ kept, 0 < o.remaining := by
      intro o ho
      rw [← hqueue] at ho
      exact hv.positive o ((mem_resting taker.side).2 (.inr ho))
    obtain ⟨o, ho, he, -, -, -, hle⟩ := hw.trade hpos ht
    rw [← hqueue] at ho
    have hprice : t.price = o.price := by rw [he]; rfl
    rw [hprice]
    exact hdown _ _ _ hle (hside o ho)

/-- A submission in bounds keeps a book in bounds. -/
theorem Within.submit (h : b.Within P) (hv : b.Valid)
    (hdown : ∀ price qty qty', qty' ≤ qty → P price qty → P price qty') (taker : Taker) {quantity : Quantity}
    (hnew : P taker.limit quantity) : (b.submit taker quantity).1.Within P := by
  have hsw := h.swept hv hdown taker quantity
  rcases submit_cases b taker quantity with ⟨-, he⟩ | ⟨-, ⟨-, he⟩ | ⟨-, -, he⟩ | ⟨-, -, he⟩⟩
  · rw [he]; exact ⟨h.resting, by simp⟩
  · rw [he]; exact hsw
  · rw [he]
    refine ⟨fun o ho => ?_, by rw [rest_trades]; exact hsw.trades⟩
    rcases List.mem_cons.1 ((rest_resting_perm _ _ _).mem_iff.1 ho) with rfl | ho
    · -- the remainder is at most what was submitted
      obtain ⟨gone, kept, -, hw⟩ := sweep_walked b.stp taker quantity (b.opposite taker.side)
      have hle : (b.walk taker quantity).remaining ≤ quantity := by
        have := hw.volume
        rw [UInt64.le_iff_toNat_le, walk]
        omega
      exact hdown _ _ _ hle hnew
    · exact hsw.resting o ho
  · rw [he]; exact hsw

/-- An entry of the snapshot is an order that rests. -/
theorem resting_of_snapshot {x : OrderSnapshot} (hx : x ∈ b.snapshot) :
    ∃ o ∈ b.resting, x.id = o.id ∧ x.price = o.price ∧ x.remaining = o.remaining := by
  rcases List.mem_append.1 hx with hx | hx
  · obtain ⟨o, ho, rfl⟩ := List.mem_map.1 hx
    exact ⟨o, List.mem_append_left _ ho, rfl, rfl, rfl⟩
  · obtain ⟨o, ho, rfl⟩ := List.mem_map.1 hx
    exact ⟨o, List.mem_append_right _ ho, rfl, rfl, rfl⟩

theorem Within.snapshot (h : b.Within P) : ∀ x ∈ b.snapshot, P x.price x.remaining := by
  intro x hx
  obtain ⟨o, ho, -, hprice, hremaining⟩ := resting_of_snapshot hx
  rw [hprice, hremaining]
  exact h.resting o ho

theorem Within.cancel (h : b.Within P) (id : OrderId) : (b.cancel id).1.Within P := by
  refine ⟨fun o ho => h.resting o (mem_cancel.1 ho).1, ?_⟩
  rw [cancel_eq]
  exact h.trades

end Within

end ListBook

/-! ## What an accepted order has passed -/

namespace RiskConfig

/-- What the size and the notional limit say of a price and a quantity, as numbers. -/
structure Caps (cfg : RiskConfig) (price : Price) (qty : Quantity) : Prop where
  size : cfg.maxOrderSize ≠ 0 → qty ≤ cfg.maxOrderSize
  notional : cfg.maxNotional ≠ 0 → price.toInt * qty.toNat ≤ cfg.maxNotional.toNat

variable {cfg : RiskConfig} {price : Price} {qty qty' : Quantity}

theorem Caps.mono (hle : qty' ≤ qty) (h : cfg.Caps price qty) : cfg.Caps price qty' := by
  have hle' : (qty'.toNat : Int) ≤ qty.toNat := by exact_mod_cast UInt64.le_iff_toNat_le.1 hle
  constructor
  case size => exact fun hs => UInt64.le_trans hle (h.size hs)
  case notional =>
    intro hn
    rcases Int.le_total 0 price.toInt with hp | hp
    · exact (Int.mul_le_mul_of_nonneg_left hle' hp).trans (h.notional hn)
    · exact (Int.mul_nonpos_of_nonpos_of_nonneg hp (Int.natCast_nonneg _)).trans (Int.natCast_nonneg _)

theorem le_of_not_overSize (h : cfg.overSize qty = false) (h0 : cfg.maxOrderSize ≠ 0) : qty ≤ cfg.maxOrderSize := by
  simp only [overSize, ne_eq, h0, not_false_eq_true, decide_true, Bool.true_and, decide_eq_false_iff_not] at h
  exact UInt64.not_lt.1 h

/-- The words that pass the limits are numbers that do, unless the product wraps. -/
theorem caps_of_passed (hs : cfg.overSize qty = false) (hn : cfg.overNotional price qty = false)
    (hwrap : cfg.maxNotional ≠ 0 → price.toInt * qty.toNat < 2 ^ 64) : cfg.Caps price qty := by
  constructor
  case size => exact le_of_not_overSize hs
  case notional =>
    intro h0
    rcases Int.lt_or_le price.toInt 0 with hp | hp
    · exact (Int.mul_nonpos_of_nonpos_of_nonneg hp.le (Int.natCast_nonneg _)).trans (Int.natCast_nonneg _)
    · have hword : ¬ cfg.maxNotional.toNat < price.toUInt64.toNat * qty.toNat % 2 ^ 64 := by
        rw [← overNotional_iff (UInt64.pos_iff_ne_zero.2 h0), hn]
        exact Bool.false_ne_true
      have hprice : (price.toUInt64.toNat : Int) = price.toInt := toNat_toUInt64 (Int64.le_iff_toInt_le.2 hp)
      have hlt := hwrap h0
      rw [← hprice, ← Int.natCast_mul] at hlt ⊢
      rw [Nat.mod_eq_of_lt (by omega)] at hword
      omega

end RiskConfig

theorem RiskManager.check_cfg (m : RiskManager) (id : OrderId) (side : Side) (price : Price) (qty : Quantity)
    (reference : Option Price) : (m.check id side price qty reference).1.cfg = m.cfg := by
  rcases m.check_cases id side price qty reference with ⟨-, h⟩ | ⟨-, -, reason, -, h⟩ | ⟨-, -, h⟩ <;> rw [h] <;> rfl

namespace ListEngine

variable {e : ListEngine} {cmd : Command} {risk : RiskManager}

/-- The limits a submission that the gate accepts has passed. -/
theorem accepted_passed (hrisk : e.risk = some risk) (hv : e.verdict cmd = .accepted) :
    risk.cfg.overSize cmd.quantity = false ∧ risk.cfg.overNotional cmd.price cmd.quantity = false ∧
      risk.cfg.outsideCollar cmd.price (e.reference cmd) = false := by
  unfold verdict Controls.check at hv
  rw [hrisk] at hv
  rcases risk.check_cases cmd.id cmd.side cmd.price cmd.quantity (e.reference cmd) with
    ⟨-, he⟩ | ⟨-, -, reason, hr, he⟩ | ⟨-, hpass, -⟩
  · simp [he] at hv
  · simp only [he] at hv; exact absurd hv hr
  · simp only [RiskManager.refuses, Bool.or_eq_false_iff] at hpass
    exact ⟨hpass.1.1.1, hpass.1.1.2, hpass.1.2⟩

/-- What a call does to the book: nothing, a cancel, or the submission of an accepted order. -/
theorem call_book (e : ListEngine) (c : EngineCall) :
    (e.call c).1.book = e.book ∨
    (∃ cmd, c = .apply cmd ∧ (e.call c).1.book = (e.book.cancel cmd.id).1) ∨
    ∃ cmd, c = .apply cmd ∧ cmd.type = .submit ∧ e.verdict cmd = .accepted ∧
      (e.call c).1.book = (e.book.submit ⟨cmd.id, cmd.trader, cmd.side, cmd.price⟩ cmd.quantity).1 := by
  cases c with
  | engageKillSwitch on => exact .inl rfl
  | apply cmd =>
    show (e.apply cmd).1.book = _ ∨ _
    by_cases hs : cmd.type = .submit
    · by_cases hv : e.verdict cmd = .accepted
      · exact .inr (.inr ⟨cmd, rfl, hs, hv, congrArg (fun r => r.1.book) (e.apply_accepted hs hv)⟩)
      · exact .inl (by rw [e.apply_rejected hs hv])
    · by_cases hc : cmd.type = .cancel
      · exact .inr (.inl ⟨cmd, rfl, congrArg (fun r => r.1.book) (e.apply_cancel hc)⟩)
      · exact .inl (by rw [e.apply_other hs hc])

/-- The gate is there, with its limits. -/
def Guarded (e : ListEngine) (cfg : RiskConfig) : Prop := ∃ risk, e.risk = some risk ∧ risk.cfg = cfg

variable {cfg : RiskConfig}

/-- The limits never change. -/
theorem Guarded.call (h : e.Guarded cfg) (c : EngineCall) : (e.call c).1.Guarded cfg := by
  obtain ⟨risk, hrisk, rfl⟩ := h
  cases c with
  | engageKillSwitch on => exact ⟨risk.engageKillSwitch on, congrArg (Option.map _) hrisk, rfl⟩
  | apply cmd =>
    show (e.apply cmd).1.Guarded risk.cfg
    have hchecked := (checked hrisk cmd).1
    by_cases hs : cmd.type = .submit
    · by_cases hv : e.verdict cmd = .accepted
      · rw [e.apply_accepted hs hv]
        exact ⟨_, hchecked, RiskManager.check_cfg ..⟩
      · rw [e.apply_rejected hs hv]
        exact ⟨_, hchecked, RiskManager.check_cfg ..⟩
    · by_cases hc : cmd.type = .cancel
      · rw [e.apply_cancel hc]
        exact ⟨risk, by simp [Controls.cancelled, hrisk], rfl⟩
      · rw [e.apply_other hs hc]
        exact ⟨risk, by simp [hrisk], rfl⟩

/-! ## Over a run -/

/-- The limits, and a book that is within them. -/
structure Protected (e : ListEngine) (cfg : RiskConfig) : Prop where
  guarded : e.Guarded cfg
  valid : e.book.Valid
  within : e.book.Within cfg.Caps

/-- A call keeps the book within the limits, unless the product of a submission wraps. -/
theorem Protected.call (h : e.Protected cfg) (c : EngineCall)
    (hwrap : ∀ cmd : Command, c = .apply cmd → cmd.type = .submit → cfg.maxNotional ≠ 0 →
      cmd.price.toInt * cmd.quantity.toNat < 2 ^ 64) :
    (e.call c).1.Protected cfg := by
  obtain ⟨risk, hrisk, hcfg⟩ := h.guarded
  constructor
  case guarded => exact h.guarded.call c
  case valid => exact e.call_valid c h.valid
  case within =>
    rcases e.call_book c with he | ⟨cmd, -, he⟩ | ⟨cmd, hc, hs, hv, he⟩
    · rw [he]; exact h.within
    · rw [he]; exact h.within.cancel cmd.id
    · rw [he]
      obtain ⟨hover, hn, -⟩ := accepted_passed hrisk hv
      rw [hcfg] at hover hn
      exact h.within.submit h.valid (fun _ _ _ => RiskConfig.Caps.mono) _
        (RiskConfig.caps_of_passed hover hn (hwrap cmd hc hs))

theorem Protected.run (h : e.Protected cfg) (calls : List EngineCall)
    (hwrap : ∀ cmd : Command, .apply cmd ∈ calls → cmd.type = .submit → cfg.maxNotional ≠ 0 →
      cmd.price.toInt * cmd.quantity.toNat < 2 ^ 64) :
    (Machine.runT ListEngine.call e calls).1.Protected cfg := by
  induction calls generalizing e with
  | nil => exact h
  | cons c calls ih =>
    have hstep := h.call c fun cmd hc => hwrap cmd (by rw [hc]; exact List.mem_cons_self ..)
    exact ih hstep fun cmd hc => hwrap cmd (List.mem_cons_of_mem _ hc)

theorem fresh_guarded (stp : SelfTradePolicy) (cfg : RiskConfig) (host : Option Bytes.ByteOrder) :
    (fresh stp (some cfg) host).Guarded cfg := by
  cases host <;> exact ⟨.create cfg, rfl, rfl⟩

theorem fresh_protected (stp : SelfTradePolicy) (cfg : RiskConfig) (host : Option Bytes.ByteOrder) :
    (fresh stp (some cfg) host).Protected cfg :=
  ⟨fresh_guarded stp cfg host, ListBook.create_valid stp, ListBook.create_within stp cfg.Caps⟩

end ListEngine

/-! ## The trades of an accepted order -/

/-- A price between two others is no further from the one than the other is. -/
theorem RiskConfig.distance_between {price limit ref : Price}
    (h : ref ≤ price ∧ price ≤ limit ∨ limit ≤ price ∧ price ≤ ref) : distance price ref ≤ distance limit ref := by
  unfold distance
  rcases h with ⟨h1, h2⟩ | ⟨h1, h2⟩
  · have h1' := Int64.le_iff_toInt_le.1 h1
    have h2' := Int64.le_iff_toInt_le.1 h2
    omega
  · have h1' := Int64.le_iff_toInt_le.1 h1
    have h2' := Int64.le_iff_toInt_le.1 h2
    omega

/-- Trades at a price of at most `price` turn over at most its multiple of their volume. -/
theorem turnover_le {trades : List Trade} {price : Int} (h : ∀ t ∈ trades, t.price.toInt ≤ price) :
    turnover trades ≤ price * volume trades := by
  induction trades with
  | nil => exact Int.le_of_eq (by simp [turnover, volume])
  | cons t trades ih =>
    have ht : (t.quantity.toNat : Int) * t.price.toInt ≤ t.quantity.toNat * price :=
      Int.mul_le_mul_of_nonneg_left (h t (List.mem_cons_self ..)) (Int.natCast_nonneg _)
    have hrest := ih fun u hu => h u (List.mem_cons_of_mem _ hu)
    unfold turnover volume at hrest ⊢
    rw [List.map_cons, List.sum_cons, List.map_cons, List.sum_cons, Int.natCast_add, Int.mul_add,
      Int.mul_comm price (t.quantity.toNat : Int)]
    exact Int.add_le_add ht hrest

namespace ListBook

variable {b : ListBook} {taker : Taker} {quantity : Quantity}

/-- The price an order on `side` would trade at first. -/
def touch (b : ListBook) (side : Side) : Option Price := if side = .buy then b.bestAsk else b.bestBid

/-- A price between the touch and the limit of an order. -/
def Between (side : Side) (touch price limit : Price) : Prop :=
  if side = .buy then touch ≤ price ∧ price ≤ limit else limit ≤ price ∧ price ≤ touch

/-- Every trade of a walk is made between the touch and the limit. -/
theorem walk_prices (hv : b.Valid) {t : Trade} (ht : t ∈ (b.walk taker quantity).trades) :
    ∃ ref, b.touch taker.side = some ref ∧ Between taker.side ref t.price taker.limit := by
  obtain ⟨gone, kept, hqueue, hw⟩ := sweep_walked b.stp taker quantity (b.opposite taker.side)
  have hpos : ∀ o ∈ gone ++ kept, 0 < o.remaining := by
    intro o ho
    rw [← hqueue] at ho
    exact hv.positive o ((mem_resting taker.side).2 (.inr ho))
  obtain ⟨o, ho, he, -, hc, -, -⟩ := hw.trade hpos ht
  rw [← hqueue] at ho
  have hprice : t.price = o.price := by rw [he]; rfl
  rw [hprice]
  unfold crosses at hc
  unfold touch Between
  unfold opposite at ho
  by_cases hs : taker.side = .buy
  · simp only [if_pos hs, decide_eq_true_eq] at hc ho ⊢
    -- the asks are sorted, the touch is at their head
    have hsorted := hv.askSorted
    unfold bestAsk
    cases hasks : b.asks with
    | nil => rw [hasks] at ho; cases ho
    | cons x asks =>
      rw [hasks] at ho hsorted
      refine ⟨x.price, rfl, ?_, hc⟩
      rcases List.mem_cons.1 ho with rfl | ho
      · exact Int64.le_refl _
      · exact Int64.not_lt.1 ((List.pairwise_cons.1 hsorted).1 o ho)
  · simp only [if_neg hs, decide_eq_true_eq] at hc ho ⊢
    have hsorted := hv.bidSorted
    unfold bestBid
    cases hbids : b.bids with
    | nil => rw [hbids] at ho; cases ho
    | cons x bids =>
      rw [hbids] at ho hsorted
      refine ⟨x.price, rfl, hc, ?_⟩
      rcases List.mem_cons.1 ho with rfl | ho
      · exact Int64.le_refl _
      · exact Int64.not_lt.1 ((List.pairwise_cons.1 hsorted).1 o ho)

/-- The trades of a submission are those of its walk, or there are none. -/
theorem submit_trades (b : ListBook) (taker : Taker) (quantity : Quantity) :
    (b.submit taker quantity).1.trades = [] ∨
      (b.submit taker quantity).1.trades = (b.walk taker quantity).trades := by
  by_cases hq : quantity = 0 ∨ taker.id ∈ b.ids
  · exact .inl (by rw [submit_refused hq])
  · exact .inr (submit_accepted hq).1

/-- Every trade of a submission is made between the touch and the limit. -/
theorem submit_prices (hv : b.Valid) {t : Trade} (ht : t ∈ (b.submit taker quantity).1.trades) :
    ∃ ref, b.touch taker.side = some ref ∧ Between taker.side ref t.price taker.limit := by
  rcases b.submit_trades taker quantity with he | he
  · rw [he] at ht; cases ht
  · rw [he] at ht; exact walk_prices hv ht

/-- The trades of a submission have at most its quantity. -/
theorem submit_volume (b : ListBook) (taker : Taker) (quantity : Quantity) :
    volume (b.submit taker quantity).1.trades ≤ quantity.toNat := by
  rcases b.submit_trades taker quantity with he | he
  · rw [he]; exact Nat.zero_le _
  · obtain ⟨gone, kept, -, hw⟩ := sweep_walked b.stp taker quantity (b.opposite taker.side)
    have := hw.volume
    rw [he, walk]
    omega

end ListBook

namespace ListEngine

variable {e : ListEngine} {cmd : Command} {cfg : RiskConfig} {ref price : Price}

/-- A price between the touch and an accepted limit is within the collar, unless the distance wraps. -/
theorem Guarded.collar (h : e.Guarded cfg) (hacc : e.verdict cmd = .accepted) (href : e.reference cmd = some ref)
    (hp : ListBook.Between cmd.side ref price cmd.price) (hc : cfg.collarBps ≠ 0) (h0 : 0 < ref)
    (hwrap : RiskConfig.distance cmd.price ref * 10000 < 2 ^ 64) :
    RiskConfig.distance price ref * 10000 ≤ cfg.collarBps.toNat * ref.toInt.toNat := by
  obtain ⟨risk, hrisk, rfl⟩ := h
  obtain ⟨-, -, hin⟩ := accepted_passed hrisk hacc
  rw [href] at hin
  have hword := @RiskConfig.outsideCollar_iff cmd.price ref risk.cfg (UInt32.pos_iff_ne_zero.2 hc) h0 (by omega)
  rw [hin, Nat.mod_eq_of_lt hwrap] at hword
  have hlimit : RiskConfig.distance cmd.price ref * 10000 ≤ risk.cfg.collarBps.toNat * ref.toInt.toNat :=
    (Nat.not_lt.1 fun hlt => Bool.false_ne_true (hword.2 hlt)).trans (Nat.mod_le _ _)
  have hcloser : RiskConfig.distance price ref ≤ RiskConfig.distance cmd.price ref := by
    refine RiskConfig.distance_between ?_
    unfold ListBook.Between at hp
    split at hp
    · exact .inl hp
    · exact .inr hp
  exact (Nat.mul_le_mul_right _ hcloser).trans hlimit

/-- The trades of an accepted order have at most the largest order size. -/
theorem Guarded.sized (h : e.Guarded cfg) (hacc : e.verdict cmd = .accepted) (hsize : cfg.maxOrderSize ≠ 0) :
    volume (e.book.submit ⟨cmd.id, cmd.trader, cmd.side, cmd.price⟩ cmd.quantity).1.trades ≤
      cfg.maxOrderSize.toNat := by
  obtain ⟨risk, hrisk, rfl⟩ := h
  obtain ⟨hover, -, -⟩ := accepted_passed hrisk hacc
  refine (ListBook.submit_volume _ _ _).trans ?_
  rw [← UInt64.le_iff_toNat_le]
  exact RiskConfig.le_of_not_overSize hover hsize

/-- A purchase turns over at most the notional of its limit. -/
theorem Guarded.purchase (h : e.Guarded cfg) (hv : e.book.Valid) (hacc : e.verdict cmd = .accepted)
    (hbuy : cmd.side = .buy) (hn : cfg.maxNotional ≠ 0) (hwrap : cmd.price.toInt * cmd.quantity.toNat < 2 ^ 64) :
    turnover (e.book.submit ⟨cmd.id, cmd.trader, cmd.side, cmd.price⟩ cmd.quantity).1.trades ≤
      cfg.maxNotional.toNat := by
  obtain ⟨risk, hrisk, rfl⟩ := h
  obtain ⟨hs, hnot, -⟩ := accepted_passed hrisk hacc
  have hcap := (RiskConfig.caps_of_passed hs hnot fun _ => hwrap).notional hn
  have hvol : (volume (e.book.submit ⟨cmd.id, cmd.trader, cmd.side, cmd.price⟩ cmd.quantity).1.trades : Int) ≤
      cmd.quantity.toNat := by
    exact_mod_cast e.book.submit_volume ⟨cmd.id, cmd.trader, cmd.side, cmd.price⟩ cmd.quantity
  have hprice : ∀ t ∈ (e.book.submit ⟨cmd.id, cmd.trader, cmd.side, cmd.price⟩ cmd.quantity).1.trades,
      t.price.toInt ≤ cmd.price.toInt := by
    intro t ht
    obtain ⟨ref, -, hp⟩ := ListBook.submit_prices hv ht
    unfold ListBook.Between at hp
    rw [if_pos hbuy] at hp
    exact Int64.le_iff_toInt_le.1 hp.2
  refine (turnover_le hprice).trans ?_
  rcases Int.le_total 0 cmd.price.toInt with h0 | h0
  · exact (Int.mul_le_mul_of_nonneg_left hvol h0).trans hcap
  · exact (Int.mul_nonpos_of_nonpos_of_nonneg h0 (Int.natCast_nonneg _)).trans (Int.natCast_nonneg _)

end ListEngine

namespace MatchingEngine

theorem Represents.snapshot {e : MatchingEngine} {r : ListEngine} (h : e.Represents r) :
    e.book.snapshot = some r.book.snapshot := congrArg Observation.snapshot h.bookObserve

theorem Represents.trades {e : MatchingEngine} {r : ListEngine} (h : e.Represents r) :
    e.book.trades = r.book.trades := congrArg Observation.lastTrades h.bookObserve

/-- **The limits hold of the book.** Whatever is applied and however the kill switch is turned, no order
rests with more, and no trade is made for more, than the largest order size and the largest notional,
unless some submission's price times quantity does not fit in a word. -/
theorem limits_hold (stp : SelfTradePolicy) (cfg : RiskConfig) (poolCapacity : UInt64)
    (host : Option Bytes.ByteOrder) (calls : List EngineCall)
    (hwrap : ∀ cmd : Command, .apply cmd ∈ calls → cmd.type = .submit → cfg.maxNotional ≠ 0 →
      cmd.price.toInt * cmd.quantity.toNat < 2 ^ 64) :
    ∃ e₀ e counts entries, fresh stp poolCapacity (some cfg) host = some e₀ ∧
      Machine.run call e₀ calls = some (e, counts) ∧ e.book.snapshot = some entries ∧
      (cfg.maxOrderSize ≠ 0 → (∀ x ∈ entries, x.remaining ≤ cfg.maxOrderSize) ∧
        ∀ t ∈ e.book.trades, t.quantity ≤ cfg.maxOrderSize) ∧
      (cfg.maxNotional ≠ 0 → (∀ x ∈ entries, x.price.toInt * x.remaining.toNat ≤ cfg.maxNotional.toNat) ∧
        ∀ t ∈ e.book.trades, t.price.toInt * t.quantity.toNat ≤ cfg.maxNotional.toNat) := by
  obtain ⟨e₀, hr, h₀⟩ := fresh_spec stp poolCapacity (some cfg) host
  obtain ⟨e, hrun, h⟩ := call_refines.run h₀ calls
  have hp := (ListEngine.fresh_protected stp cfg host).run calls hwrap
  have hentries := hp.within.snapshot
  have htrades : ∀ t ∈ e.book.trades, cfg.Caps t.price t.quantity := by
    rw [h.trades]
    exact hp.within.trades
  exact ⟨e₀, e, _, _, hr, hrun, h.snapshot,
    fun hs => ⟨fun x hx => (hentries x hx).size hs, fun t ht => (htrades t ht).size hs⟩,
    fun hn => ⟨fun x hx => (hentries x hx).notional hn, fun t ht => (htrades t ht).notional hn⟩⟩

/-- A purchase of three from a sale of five. -/
theorem limits_hold_sale :
    ∃ e₀ e counts entries,
      fresh .none 4 (some { RiskConfig.new with maxOrderSize := 10, maxNotional := 1000 }) none = some e₀ ∧
      Machine.run call e₀ [.apply (.makeSubmit 1 1 .sell 100 5), .apply (.makeSubmit 2 2 .buy 101 3)] =
        some (e, counts) ∧
      e.book.snapshot = some entries ∧ (∀ x ∈ entries, x.remaining ≤ 10) ∧
      ∀ t ∈ e.book.trades, t.price.toInt * t.quantity.toNat ≤ 1000 := by
  obtain ⟨e₀, e, counts, entries, hr, hrun, hsnap, hsize, hnotional⟩ :=
    limits_hold .none { RiskConfig.new with maxOrderSize := 10, maxNotional := 1000 } 4 none
      [.apply (.makeSubmit 1 1 .sell 100 5), .apply (.makeSubmit 2 2 .buy 101 3)] (by
        intro cmd hcmd _ _
        rcases List.mem_cons.1 hcmd with hcmd | hcmd
        · cases hcmd; decide
        · cases List.mem_singleton.1 hcmd; decide)
  exact ⟨e₀, e, counts, entries, hr, hrun, hsnap, (hsize (by decide)).1, (hnotional (by decide)).2⟩

/-- **What the limits protect an order from.** In every reachable engine, the trades of an accepted order
are made between the touch it was checked against and its limit, and within the collar of that touch;
they have at most the largest order size altogether; and a purchase costs at most the largest notional. -/
theorem order_protected (stp : SelfTradePolicy) (cfg : RiskConfig) (poolCapacity : UInt64)
    (host : Option Bytes.ByteOrder) (calls : List EngineCall) :
    ∃ e₀ e counts, fresh stp poolCapacity (some cfg) host = some e₀ ∧
      Machine.run call e₀ calls = some (e, counts) ∧
      ∀ cmd, cmd.type = .submit → e.verdict cmd = .accepted →
        ∃ e' count, e.apply cmd = some (e', count) ∧
          (∀ t ∈ e'.book.trades, ∃ ref, e.reference cmd = some ref ∧
            ListBook.Between cmd.side ref t.price cmd.price ∧
            (cfg.collarBps ≠ 0 → 0 < ref → RiskConfig.distance cmd.price ref * 10000 < 2 ^ 64 →
              RiskConfig.distance t.price ref * 10000 ≤ cfg.collarBps.toNat * ref.toInt.toNat)) ∧
          (cfg.maxOrderSize ≠ 0 → volume e'.book.trades ≤ cfg.maxOrderSize.toNat) ∧
          (cmd.side = .buy → cfg.maxNotional ≠ 0 → cmd.price.toInt * cmd.quantity.toNat < 2 ^ 64 →
            turnover e'.book.trades ≤ cfg.maxNotional.toNat) := by
  obtain ⟨e₀, hr, h₀⟩ := fresh_spec stp poolCapacity (some cfg) host
  obtain ⟨e, hrun, h⟩ := call_refines.run h₀ calls
  have hp := Machine.runT_invariant (P := fun r : ListEngine => r.Guarded cfg ∧ r.book.Valid)
    (fun r c hr => ⟨hr.1.call c, r.call_valid c hr.2⟩)
    ⟨ListEngine.fresh_guarded stp cfg host, ListBook.create_valid stp⟩ calls
  obtain ⟨hg, hv⟩ := hp
  refine ⟨e₀, e, _, hr, hrun, fun cmd hs hacc => ?_⟩
  obtain ⟨e', happly, h'⟩ := apply_refines e _ cmd h
  rw [h.verdict] at hacc
  have htrades : e'.book.trades = _ := h'.trades
  rw [ListEngine.apply_accepted _ hs hacc] at htrades
  refine ⟨e', _, happly, ?_, ?_, ?_⟩
  · intro t ht
    rw [htrades] at ht
    obtain ⟨ref, href, hbetween⟩ := ListBook.submit_prices hv ht
    have href' : e.reference cmd = some ref := (h.reference cmd).trans href
    exact ⟨ref, href', hbetween, fun hc h0 => hg.collar hacc href hbetween hc h0⟩
  · intro hsize
    rw [htrades]
    exact hg.sized hacc hsize
  · intro hbuy hn hwrap
    rw [htrades]
    exact hg.purchase hv hacc hbuy hn hwrap

end MatchingEngine

end Obe
