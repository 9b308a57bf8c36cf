/-
The gate beside an engine without one. What the gate lets through is all the book of a gated engine
sees: an engine without a gate that is given just that has the same book and the same counters.
-/
import OrderBookEngine.Engine.MatchingEngine

namespace Obe

/-! ## What passes the gate -/

/-- The gate's verdict on a command. -/
def MatchingEngine.verdict (e : MatchingEngine) (cmd : Command) : RejectReason :=
  (e.toControls.check cmd (e.reference cmd)).2

def ListEngine.verdict (e : ListEngine) (cmd : Command) : RejectReason :=
  (e.toControls.check cmd (e.reference cmd)).2

/-- The command of a call, when it is a cancel or a submit with the given verdict. -/
def passedOn (verdict : Command → RejectReason) : EngineCall → List Command
  | .apply cmd => if cmd.type = .cancel ∨ (cmd.type = .submit ∧ verdict cmd = .accepted) then [cmd] else []
  | .engageKillSwitch _ => []

/-- A call, and what the gate passes on to the book. -/
def MatchingEngine.gatedCall (e : MatchingEngine) (c : EngineCall) : Option (MatchingEngine × List Command) :=
  (e.call c).map fun r => (r.1, passedOn e.verdict c)

def ListEngine.gatedCall (e : ListEngine) (c : EngineCall) : ListEngine × List Command :=
  ((e.call c).1, passedOn e.verdict c)

namespace MatchingEngine

theorem Represents.verdict {e : MatchingEngine} {r : ListEngine} (h : e.Represents r) : e.verdict = r.verdict := by
  funext cmd
  unfold MatchingEngine.verdict ListEngine.verdict
  rw [h.controls, h.reference]

theorem gatedCall_refines : Machine.Refines gatedCall ListEngine.gatedCall Represents := by
  intro e r c h
  obtain ⟨e', hcall, h'⟩ := call_refines e r c h
  refine ⟨e', ?_, h'⟩
  rw [gatedCall, hcall, h.verdict]
  rfl

end MatchingEngine

/-! ## The counters -/

namespace RiskMetricsSnapshot

@[simp] theorem count_accepted (s : RiskMetricsSnapshot) (reason : RejectReason) :
    (s.count reason).accepted = if reason = .accepted then s.accepted + 1 else s.accepted := by
  cases reason <;> rfl

/-- Every rejection is in the total. -/
@[simp] theorem count_totalRejected (s : RiskMetricsSnapshot) (reason : RejectReason) :
    (s.count reason).totalRejected = if reason = .accepted then s.totalRejected else s.totalRejected + 1 := by
  unfold totalRejected
  cases reason with
  | accepted => rfl
  | _ => simp only [count, reduceCtorEq, if_false]; ac_rfl

end RiskMetricsSnapshot

/-- A check counts its verdict. -/
theorem RiskManager.check_metrics (m : RiskManager) (id : OrderId) (side : Side) (price : Price) (qty : Quantity)
    (reference : Option Price) :
    (m.check id side price qty reference).1.metrics = m.metrics.count (m.check id side price qty reference).2 := by
  rcases m.check_cases id side price qty reference with ⟨-, h⟩ | ⟨-, -, reason, -, h⟩ | ⟨-, -, h⟩ <;> rw [h] <;> rfl

namespace Controls

variable {e : Controls} {cmd : Command}

@[simp] theorem journal_risk (e : Controls) (cmd : Command) : (e.journal cmd).risk = e.risk := by
  unfold journal
  split
  · split <;> rfl
  · rfl

@[simp] theorem journal_stats (e : Controls) (cmd : Command) : (e.journal cmd).stats = e.stats := by
  unfold journal
  split
  · split <;> rfl
  · rfl

@[simp] theorem check_stats (e : Controls) (cmd : Command) (reference : Option Price) :
    (e.check cmd reference).1.stats = e.stats := by
  unfold check
  split <;> rfl

/-- The journal takes no part in the verdict. -/
theorem check_journal (e : Controls) (cmd : Command) (reference : Option Price) :
    ((e.journal cmd).check cmd reference).2 = (e.check cmd reference).2 ∧
      ((e.journal cmd).check cmd reference).1.risk = (e.check cmd reference).1.risk := by
  unfold check
  rw [journal_risk]
  cases h : e.risk with
  | none => exact ⟨rfl, (journal_risk e cmd).trans rfl⟩
  | some risk => exact ⟨rfl, rfl⟩

end Controls

/-! ## What a command does -/

namespace ListEngine

variable {cmd : Command}

/-- A command that is neither a submit nor a cancel is at most journaled. -/
theorem apply_other (e : ListEngine) (hs : cmd.type ≠ .submit) (hc : cmd.type ≠ .cancel) :
    e.apply cmd = ({ toControls := e.toControls.journal cmd, book := e.book }, 0) := by
  unfold apply
  dsimp only
  rw [if_neg hs, if_neg hc]

theorem apply_cancel (e : ListEngine) (hc : cmd.type = .cancel) :
    e.apply cmd = ({ toControls := (e.toControls.journal cmd).cancelled, book := (e.book.cancel cmd.id).1 }, 0) := by
  unfold apply
  dsimp only
  rw [if_neg (by rw [hc]; decide), if_pos hc]

/-- A rejected submit is counted. -/
theorem apply_rejected (e : ListEngine) (hs : cmd.type = .submit) (hv : e.verdict cmd ≠ .accepted) : e.apply cmd =
    ({ toControls := ((e.toControls.journal cmd).check cmd (e.reference cmd)).1.received, book := e.book }, 0) := by
  unfold apply enter
  dsimp only
  rw [if_pos hs, (Controls.check_journal e.toControls cmd (e.reference cmd)).1]
  exact if_pos hv

theorem apply_accepted (e : ListEngine) (hs : cmd.type = .submit) (hv : e.verdict cmd = .accepted) : e.apply cmd =
    ({ toControls := ((e.toControls.journal cmd).check cmd (e.reference cmd)).1.submitted
          (e.book.submit ⟨cmd.id, cmd.trader, cmd.side, cmd.price⟩ cmd.quantity).2.tradeCount,
       book := (e.book.submit ⟨cmd.id, cmd.trader, cmd.side, cmd.price⟩ cmd.quantity).1 },
      (e.book.submit ⟨cmd.id, cmd.trader, cmd.side, cmd.price⟩ cmd.quantity).2.tradeCount) := by
  unfold apply enter
  dsimp only
  rw [if_pos hs, (Controls.check_journal e.toControls cmd (e.reference cmd)).1]
  exact if_neg (not_not.2 hv)

end ListEngine

/-! ## In step with an engine without a gate -/

/-- The gate has accepted what was submitted, and rejected what else was counted. -/
structure RiskManager.Balanced (risk : RiskManager) (stats : Stats) : Prop where
  accepted : risk.metrics.accepted = stats.submits
  commands : stats.commands = stats.submits + stats.cancels + risk.metrics.totalRejected

/-- A gated engine beside one that has no gate and was given what passed. -/
structure ListEngine.Follows (g u : ListEngine) : Prop where
  ungated : u.risk = none
  book : g.book = u.book
  submits : g.stats.submits = u.stats.submits
  cancels : g.stats.cancels = u.stats.cancels
  trades : g.stats.trades = u.stats.trades
  balanced : ∃ risk, g.risk = some risk ∧ risk.Balanced g.stats

namespace ListEngine

variable {g u : ListEngine} {cmd : Command}

theorem Follows.ignored (h : g.Follows u) (hs : cmd.type ≠ .submit) (hc : cmd.type ≠ .cancel) :
    (g.apply cmd).1.Follows u := by
  rw [g.apply_other hs hc]
  constructor
  case ungated => exact h.ungated
  case book => exact h.book
  case balanced => simpa using h.balanced
  all_goals simp [h.submits, h.cancels, h.trades]

/-- A cancel reaches both books. -/
theorem Follows.cancel (h : g.Follows u) (hc : cmd.type = .cancel) : (g.apply cmd).1.Follows (u.apply cmd).1 := by
  obtain ⟨risk, hrisk, hb⟩ := h.balanced
  rw [g.apply_cancel hc, u.apply_cancel hc]
  constructor
  case ungated => simp [Controls.cancelled, h.ungated]
  case book => exact congrArg (fun b => (ListBook.cancel b cmd.id).1) h.book
  case balanced =>
    refine ⟨risk, by simp [Controls.cancelled, hrisk], ?_, ?_⟩
    · simpa [Controls.cancelled] using hb.accepted
    · simp only [Controls.cancelled, Controls.journal_stats, hb.commands]; ac_rfl
  all_goals simp [Controls.cancelled, h.submits, h.cancels, h.trades]

/-- The gate after a check, and its verdict. -/
theorem checked {risk : RiskManager} (hrisk : g.risk = some risk) (cmd : Command) :
    ((g.toControls.journal cmd).check cmd (g.reference cmd)).1.risk =
        some (risk.check cmd.id cmd.side cmd.price cmd.quantity (g.reference cmd)).1 ∧
      (risk.check cmd.id cmd.side cmd.price cmd.quantity (g.reference cmd)).1.metrics =
        risk.metrics.count (g.verdict cmd) := by
  rw [(Controls.check_journal g.toControls cmd (g.reference cmd)).2, RiskManager.check_metrics]
  unfold verdict Controls.check
  rw [hrisk]
  exact ⟨rfl, rfl⟩

/-- A submit that the gate rejects is counted and reaches neither book. -/
theorem Follows.rejected (h : g.Follows u) (hs : cmd.type = .submit) (hv : g.verdict cmd ≠ .accepted) :
    (g.apply cmd).1.Follows u := by
  obtain ⟨risk, hrisk, hb⟩ := h.balanced
  obtain ⟨hafter, hm⟩ := checked hrisk cmd
  rw [g.apply_rejected hs hv]
  constructor
  case ungated => exact h.ungated
  case book => exact h.book
  case balanced =>
    refine ⟨_, hafter, ?_, ?_⟩
    · rw [hm, RiskMetricsSnapshot.count_accepted, if_neg hv]
      simpa [Controls.received] using hb.accepted
    · rw [hm, RiskMetricsSnapshot.count_totalRejected, if_neg hv]
      simp only [Controls.received, Controls.check_stats, Controls.journal_stats, hb.commands]; ac_rfl
  all_goals simp [Controls.received, h.submits, h.cancels, h.trades]

/-- A submit that the gate accepts reaches both books. -/
theorem Follows.accepted (h : g.Follows u) (hs : cmd.type = .submit) (hv : g.verdict cmd = .accepted) :
    (g.apply cmd).1.Follows (u.apply cmd).1 := by
  have hu : u.verdict cmd = .accepted ∧ (u.toControls.check cmd (u.reference cmd)).1.risk = none := by
    unfold verdict Controls.check
    rw [h.ungated]
    exact ⟨rfl, h.ungated⟩
  obtain ⟨risk, hrisk, hb⟩ := h.balanced
  obtain ⟨hafter, hm⟩ := checked hrisk cmd
  rw [g.apply_accepted hs hv, u.apply_accepted hs hu.1]
  constructor
  case ungated => exact (Controls.check_journal u.toControls cmd (u.reference cmd)).2.trans hu.2
  case book => exact congrArg (fun b => (ListBook.submit b _ cmd.quantity).1) h.book
  case balanced =>
    refine ⟨_, hafter, ?_, ?_⟩
    · rw [hm, RiskMetricsSnapshot.count_accepted, if_pos hv]
      simpa [Controls.submitted] using hb.accepted
    · rw [hm, RiskMetricsSnapshot.count_totalRejected, if_pos hv]
      simp only [Controls.submitted, Controls.check_stats, Controls.journal_stats, hb.commands]; ac_rfl
  all_goals simp [Controls.submitted, h.submits, h.cancels, h.trades, h.book]

/-- The kill switch is turned on the gate alone. -/
theorem Follows.switched (h : g.Follows u) (on : Bool) : (g.call (.engageKillSwitch on)).1.Follows u := by
  obtain ⟨risk, hrisk, hb⟩ := h.balanced
  constructor
  case ungated => exact h.ungated
  case book => exact h.book
  case balanced => exact ⟨risk.engageKillSwitch on, congrArg (Option.map _) hrisk, hb.accepted, hb.commands⟩
  case submits => exact h.submits
  case cancels => exact h.cancels
  case trades => exact h.trades

/-- **One call keeps the engines in step**: the other one gets what the gate passes on. -/
theorem Follows.step (h : g.Follows u) (c : EngineCall) :
    (g.gatedCall c).1.Follows (Machine.runT apply u (g.gatedCall c).2).1 := by
  cases c with
  | engageKillSwitch on => exact h.switched on
  | apply cmd =>
    show (g.apply cmd).1.Follows (Machine.runT apply u (passedOn g.verdict (.apply cmd))).1
    unfold passedOn
    dsimp only
    by_cases hc : cmd.type = .cancel
    · -- a cancel passes without a check
      rw [if_pos (.inl hc)]
      exact h.cancel hc
    by_cases hs : cmd.type = .submit
    · by_cases hv : g.verdict cmd = .accepted
      · rw [if_pos (.inr ⟨hs, hv⟩)]
        exact h.accepted hs hv
      · -- nothing is passed on
        rw [if_neg (by simp [hc, hv])]
        exact h.rejected hs hv
    · rw [if_neg (by simp [hc, hs])]
      exact h.ignored hs hc

/-- Engines fresh from their constructors. -/
theorem Follows.fresh (stp : SelfTradePolicy) (cfg : RiskConfig) (host host' : Option Bytes.ByteOrder) :
    (ListEngine.fresh stp (some cfg) host).Follows (.fresh stp none host') := by
  constructor
  case balanced => cases host <;> exact ⟨.create cfg, rfl, rfl, rfl⟩
  all_goals cases host <;> cases host' <;> rfl

end ListEngine

/-! ## Transparency -/

namespace MatchingEngine

/-- A submit that the gate rejects leaves the book as it is. -/
theorem apply_rejected (e : MatchingEngine) {cmd : Command} (hs : cmd.type = .submit)
    (hv : e.verdict cmd ≠ .accepted) : ∃ e', e.apply cmd = some (e', 0) ∧ e'.book = e.book := by
  unfold apply
  dsimp only
  rw [if_pos hs, if_pos]
  · exact ⟨_, rfl, rfl⟩
  · rw [(Controls.check_journal e.toControls cmd (e.reference cmd)).1]
    exact hv

/-- A cancel is the book's own, whatever the gate. -/
theorem apply_cancel (e : MatchingEngine) {cmd : Command} (hc : cmd.type = .cancel) {b : OrderBook} {found : Bool}
    (h : e.book.cancel cmd.id = some (b, found)) :
    e.apply cmd = some ({ toControls := (e.toControls.journal cmd).cancelled, book := b }, 0) := by
  unfold apply
  dsimp only
  rw [if_neg (by rw [hc]; decide), if_pos hc, h]
  rfl

/-- **The gate is transparent to the book.** Whatever is applied and however the kill switch is turned,
the book and the counters are those of an engine without a gate that is given what passed; every
command counted was accepted, a cancel or rejected; and at every point a rejected submit leaves the
book alone and a cancel reaches it. -/
theorem gate_transparent (stp : SelfTradePolicy) (cfg : RiskConfig) (poolCapacity poolCapacity' : UInt64)
    (host host' : Option Bytes.ByteOrder) (calls : List EngineCall) :
    ∃ g₀ g passed u₀ u counts risk,
      fresh stp poolCapacity (some cfg) host = some g₀ ∧ fresh stp poolCapacity' none host' = some u₀ ∧
      Machine.run gatedCall g₀ calls = some (g, passed) ∧ Machine.run apply u₀ passed.flatten = some (u, counts) ∧
      (g.book.snapshot = u.book.snapshot ∧ g.book.trades = u.book.trades ∧ g.stats.submits = u.stats.submits ∧
        g.stats.cancels = u.stats.cancels ∧ g.stats.trades = u.stats.trades) ∧
      (g.risk = some risk ∧ risk.metrics.accepted = g.stats.submits ∧
        g.stats.commands = g.stats.submits + g.stats.cancels + risk.metrics.totalRejected) ∧
      (∀ cmd, cmd.type = .submit → g.verdict cmd ≠ .accepted →
        ∃ e, g.apply cmd = some (e, 0) ∧ e.book = g.book) ∧
      ∀ cmd, cmd.type = .cancel →
        ∃ e found, g.apply cmd = some (e, 0) ∧ g.book.cancel cmd.id = some (e.book, found) := by
  obtain ⟨g₀, hg₀, hR₀⟩ := fresh_spec stp poolCapacity (some cfg) host
  obtain ⟨u₀, hu₀, hS₀⟩ := fresh_spec stp poolCapacity' none host'
  obtain ⟨g, hg, hR⟩ := gatedCall_refines.run hR₀ calls
  obtain ⟨u, hu, hS⟩ := apply_refines.run hS₀
    (Machine.runT ListEngine.gatedCall (.fresh stp (some cfg) host) calls).2.flatten
  -- the two reference engines stay in step
  have hf := Machine.runT_forward (R := ListEngine.Follows) (fun _ _ c h => h.step c)
    (ListEngine.Follows.fresh stp cfg host host') calls
  have hbook : g.book.observe = u.book.observe := by
    rw [hR.bookObserve, hS.bookObserve, hf.book]
  obtain ⟨risk, hrisk, hb⟩ := hf.balanced
  refine ⟨g₀, g, _, u₀, u, _, risk, hg₀, hu₀, hg, hu, ?_, ?_, fun cmd => g.apply_rejected, ?_⟩
  · rw [hR.controls, hS.controls]
    exact ⟨congrArg Observation.snapshot hbook, congrArg Observation.lastTrades hbook, hf.submits, hf.cancels,
      hf.trades⟩
  · rw [hR.controls]
    exact ⟨hrisk, hb.accepted, hb.commands⟩
  · intro cmd hc
    obtain ⟨b, hcancel, -⟩ := OrderBook.cancel_spec hR.book cmd.id
    exact ⟨_, _, g.apply_cancel hc hcancel, hcancel⟩

end MatchingEngine

end Obe
