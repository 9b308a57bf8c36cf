/-
A window in which the kill switch is engaged, beside the same run without one. The submissions of
the window are refused and leave no mark but two counters: neither an id nor a sequence number nor
an order is lost to them. The cancels of the window are the book's as ever.
-/
import OrderBookEngine.Engine.Protection
import OrderBookEngine.Engine.Replay

namespace Obe

/-! ## Refusals in the counters -/

def Stats.refused (n : Nat) (s : Stats) : Stats := { s with commands := s.commands + UInt64.ofNat n }

def RiskMetricsSnapshot.refused (n : Nat) (s : RiskMetricsSnapshot) : RiskMetricsSnapshot :=
  { s with killSwitch := s.killSwitch + UInt64.ofNat n }

def RiskManager.refused (n : Nat) (m : RiskManager) : RiskManager := { m with metrics := m.metrics.refused n }

def Controls.refused (n : Nat) (e : Controls) : Controls :=
  { e with risk := e.risk.map (·.refused n), stats := e.stats.refused n }

/-- `n` more submissions refused by the kill switch, and nothing else. -/
def ListEngine.refused (n : Nat) (e : ListEngine) : ListEngine := { e with toControls := e.toControls.refused n }

/-- The same, as it is read off an engine. -/
def EngineObservation.refused (n : Nat) (o : EngineObservation) : EngineObservation :=
  { o with stats := o.stats.refused n, metrics := o.metrics.map (·.refused n) }

/-- Refusals can be counted before or after another count. -/
theorem tally_comm (x : UInt64) (n : Nat) : x + UInt64.ofNat n + 1 = x + 1 + UInt64.ofNat n := by ac_rfl

namespace RiskManager

@[simp] theorem refused_cfg (m : RiskManager) (n : Nat) : (m.refused n).cfg = m.cfg := rfl

@[simp] theorem refused_killSwitch (m : RiskManager) (n : Nat) : (m.refused n).killSwitch = m.killSwitch := rfl

@[simp] theorem refused_seenIds (m : RiskManager) (n : Nat) : (m.refused n).seenIds = m.seenIds := rfl

theorem count_refused (m : RiskManager) (n : Nat) (reason : RejectReason) :
    (m.refused n).count reason = (m.count reason).refused n := by
  cases reason with
  | killSwitch =>
    unfold count refused RiskMetricsSnapshot.count RiskMetricsSnapshot.refused
    simp only [tally_comm]
  | _ => rfl

/-- The gate does not read its counters. -/
theorem check_refused (m : RiskManager) (n : Nat) (id : OrderId) (side : Side) (price : Price) (qty : Quantity)
    (reference : Option Price) : (m.refused n).check id side price qty reference =
      ((m.check id side price qty reference).1.refused n, (m.check id side price qty reference).2) := by
  unfold check
  simp only [count_refused, refused_cfg, refused_killSwitch, refused_seenIds]
  repeat' split
  all_goals rfl

/-- With the kill switch on, a submission is refused before anything else is looked at. -/
theorem check_halted {m : RiskManager} (hk : m.killSwitch = true) (id : OrderId) (side : Side) (price : Price)
    (qty : Quantity) (reference : Option Price) :
    m.check id side price qty reference = (m.refused 1, .killSwitch) := by
  unfold check
  rw [if_pos hk]
  rfl

end RiskManager

namespace Controls

variable {e : Controls}

theorem journal_refused (e : Controls) (n : Nat) (cmd : Command) : (e.refused n).journal cmd = (e.journal cmd).refused n := by
  rw [journal_eq, journal_eq]
  rfl

theorem check_refused (e : Controls) (n : Nat) (cmd : Command) (reference : Option Price) :
    (e.refused n).check cmd reference = ((e.check cmd reference).1.refused n, (e.check cmd reference).2) := by
  obtain ⟨risk, log, stats⟩ := e
  cases risk with
  | none => rfl
  | some m =>
    unfold check refused
    dsimp only [Option.map_some]
    rw [m.check_refused]

theorem received_refused (e : Controls) (n : Nat) : (e.refused n).received = e.received.refused n := by
  unfold received refused Stats.refused
  simp only [tally_comm]

theorem submitted_refused (e : Controls) (n count : Nat) :
    (e.refused n).submitted count = (e.submitted count).refused n := by
  unfold submitted refused Stats.refused
  simp only [tally_comm]

theorem cancelled_refused (e : Controls) (n : Nat) : (e.refused n).cancelled = e.cancelled.refused n := by
  unfold cancelled refused Stats.refused
  simp only [tally_comm]

theorem refused_refused (e : Controls) (n k : Nat) : (e.refused n).refused k = e.refused (n + k) := by
  obtain ⟨risk, log, stats⟩ := e
  cases risk <;> simp [refused, RiskManager.refused, RiskMetricsSnapshot.refused, Stats.refused, UInt64.add_assoc]

end Controls

/-! ## The refused submissions are seen by nothing -/

namespace ListEngine

variable {e : ListEngine} {cmd : Command}

/-- An engine does the same, whatever it has refused. -/
theorem apply_refused (e : ListEngine) (n : Nat) (cmd : Command) :
    (e.refused n).apply cmd = ((e.apply cmd).1.refused n, (e.apply cmd).2) := by
  have hjournal := e.toControls.journal_refused n cmd
  have hcheck := (e.toControls.journal cmd).check_refused n cmd (e.reference cmd)
  have href : (e.refused n).reference cmd = e.reference cmd := rfl
  have hcontrols : (e.refused n).toControls = e.toControls.refused n := rfl
  have hbook : (e.refused n).book = e.book := rfl
  unfold apply enter
  dsimp only
  rw [hcontrols, hjournal, href, hcheck, hbook]
  by_cases hs : cmd.type = .submit
  · rw [if_pos hs, if_pos hs]
    dsimp only
    split
    · rw [Controls.received_refused]; rfl
    · rw [Controls.submitted_refused]; rfl
  · rw [if_neg hs, if_neg hs]
    by_cases hc : cmd.type = .cancel
    · rw [if_pos hc, if_pos hc, Controls.cancelled_refused]
      rfl
    · rw [if_neg hc, if_neg hc]
      rfl

theorem call_refused (e : ListEngine) (n : Nat) (c : EngineCall) :
    (e.refused n).call c = ((e.call c).1.refused n, (e.call c).2) := by
  cases c with
  | apply cmd => exact e.apply_refused n cmd
  | engageKillSwitch on =>
    obtain ⟨⟨risk, log, stats⟩, book⟩ := e
    cases risk <;> rfl

theorem run_refused (e : ListEngine) (n : Nat) (calls : List EngineCall) :
    Machine.runT call (e.refused n) calls =
      ((Machine.runT call e calls).1.refused n, (Machine.runT call e calls).2) := by
  have := Machine.runT_map (f := fun e : ListEngine => e.refused n) (g := id) (k := id)
    (fun e c => e.call_refused n c) e calls
  rwa [List.map_id, List.map_id] at this

theorem refused_refused (e : ListEngine) (n k : Nat) : (e.refused n).refused k = e.refused (n + k) :=
  congrArg (fun c => ({ toControls := c, book := e.book } : ListEngine)) (e.toControls.refused_refused n k)

theorem refused_zero (e : ListEngine) : e.refused 0 = e := by
  obtain ⟨⟨risk, log, stats⟩, book⟩ := e
  cases risk <;> simp [refused, Controls.refused, RiskManager.refused, RiskMetricsSnapshot.refused, Stats.refused]

theorem refused_observe (e : ListEngine) (n : Nat) : (e.refused n).observe = e.observe.refused n := by
  obtain ⟨⟨risk, log, stats⟩, book⟩ := e
  cases risk <;> rfl

/-! ## The window -/

/-- A gate with its kill switch on, and no journal. -/
structure Halted (e : ListEngine) : Prop where
  unlogged : e.log = none
  engaged : ∃ m, e.risk = some m ∧ m.killSwitch = true

theorem Halted.journal (h : e.Halted) (cmd : Command) : e.toControls.journal cmd = e.toControls := by
  rw [Controls.journal_eq, h.unlogged, Option.map_none, ← h.unlogged]

/-- A submission is refused. -/
theorem Halted.submit (h : e.Halted) (hs : cmd.type = .submit) : e.apply cmd = (e.refused 1, 0) := by
  obtain ⟨m, hm, hk⟩ := h.engaged
  have hcheck : e.toControls.check cmd (e.reference cmd) =
      ({ e.toControls with risk := some (m.refused 1) }, .killSwitch) := by
    unfold Controls.check
    rw [hm]
    dsimp only
    rw [RiskManager.check_halted hk]
  have hv : e.verdict cmd ≠ .accepted := by
    unfold verdict
    rw [hcheck]
    exact fun h => by cases h
  rw [e.apply_rejected hs hv, h.journal, hcheck]
  unfold ListEngine.refused Controls.refused Controls.received
  rw [hm]
  rfl

theorem Halted.cancel (h : e.Halted) (hc : cmd.type = .cancel) : (e.call (.apply cmd)).1.Halted := by
  show (e.apply cmd).1.Halted
  rw [e.apply_cancel hc, h.journal]
  exact ⟨h.unlogged, h.engaged⟩

theorem Halted.other (h : e.Halted) (hs : cmd.type ≠ .submit) (hc : cmd.type ≠ .cancel) : e.apply cmd = (e, 0) := by
  rw [e.apply_other hs hc, h.journal]

theorem Halted.refused (h : e.Halted) (n : Nat) : (e.refused n).Halted := by
  obtain ⟨m, hm, hk⟩ := h.engaged
  exact ⟨h.unlogged, m.refused n, congrArg (Option.map _) hm, hk⟩

/-- The cancels of some commands. -/
def cancels (cmds : List Command) : List EngineCall := (cmds.filter (·.type = .cancel)).map .apply

theorem cancels_cons_cancel (hc : cmd.type = .cancel) (cmds : List Command) :
    cancels (cmd :: cmds) = .apply cmd :: cancels cmds := by
  simp [cancels, hc]

theorem cancels_cons_other (hc : cmd.type ≠ .cancel) (cmds : List Command) : cancels (cmd :: cmds) = cancels cmds := by
  simp [cancels, hc]

/-- **In a window the engine is given its cancels**, and counts its submissions as refused. -/
theorem Halted.window (h : e.Halted) (cmds : List Command) :
    Machine.runT call e (cmds.map .apply) =
      ((Machine.runT call e (cancels cmds)).1.refused (cmds.countP (·.type = .submit)),
        List.replicate cmds.length 0) := by
  induction cmds generalizing e with
  | nil => exact congrArg (·, []) (e.refused_zero).symm
  | cons cmd cmds ih =>
    rw [List.map_cons, List.length_cons, List.replicate_succ]
    by_cases hs : cmd.type = .submit
    · have hc : cmd.type ≠ .cancel := by rw [hs]; decide
      have hcall : e.call (.apply cmd) = (e.refused 1, 0) := h.submit hs
      rw [cancels_cons_other hc, List.countP_cons_of_pos (by simpa using hs), Machine.runT_cons, hcall,
        ih (h.refused 1), run_refused, refused_refused, Nat.add_comm 1]
    · by_cases hc : cmd.type = .cancel
      · have hcall : (e.call (.apply cmd)).2 = 0 := congrArg Prod.snd (e.apply_cancel hc)
        rw [cancels_cons_cancel hc, List.countP_cons_of_neg (by simpa using hs), Machine.runT_cons, hcall,
          ih (h.cancel hc)]
        rfl
      · have hcall : e.call (.apply cmd) = (e, 0) := h.other hs hc
        rw [cancels_cons_other hc, List.countP_cons_of_neg (by simpa using hs), Machine.runT_cons, hcall, ih h]

/-- A cancel does not look at the kill switch. -/
theorem cancel_engaged (e : ListEngine) (on : Bool) (hc : cmd.type = .cancel) :
    ((e.call (.engageKillSwitch on)).1.call (.apply cmd)) =
      (((e.call (.apply cmd)).1.call (.engageKillSwitch on)).1, 0) := by
  have hleft := (e.call (.engageKillSwitch on)).1.apply_cancel hc
  have hright := congrArg (fun r : ListEngine × Nat => (r.1.call (.engageKillSwitch on)).1) (e.apply_cancel hc)
  refine hleft.trans ?_
  rw [show e.call (.apply cmd) = e.apply cmd from rfl, e.apply_cancel hc]
  unfold ListEngine.call
  dsimp only
  rw [Controls.journal_eq, Controls.journal_eq]
  rfl

theorem cancels_engaged (e : ListEngine) (on : Bool) (cmds : List Command) :
    (Machine.runT call (e.call (.engageKillSwitch on)).1 (cancels cmds)).1 =
      ((Machine.runT call e (cancels cmds)).1.call (.engageKillSwitch on)).1 := by
  induction cmds generalizing e with
  | nil => rfl
  | cons cmd cmds ih =>
    by_cases hc : cmd.type = .cancel
    · rw [cancels_cons_cancel hc, Machine.runT_cons, Machine.runT_cons, cancel_engaged e on hc]
      exact ih _
    · rw [cancels_cons_other hc, ih]

theorem cancels_out (e : ListEngine) (cmds : List Command) :
    (Machine.runT call e (cancels cmds)).2 = List.replicate (cancels cmds).length 0 := by
  induction cmds generalizing e with
  | nil => rfl
  | cons cmd cmds ih =>
    by_cases hc : cmd.type = .cancel
    · have hcall : (e.call (.apply cmd)).2 = 0 := congrArg Prod.snd (e.apply_cancel hc)
      rw [cancels_cons_cancel hc, Machine.runT_cons, hcall, ih]
      rfl
    · rw [cancels_cons_other hc, ih]

/-- A window and what follows it, beside its cancels and the same. -/
theorem run_window {m : RiskManager} (hlog : e.log = none) (hm : e.risk = some m) (cmds : List Command)
    (after : List EngineCall) :
    ∃ later r, Machine.runT call e (.engageKillSwitch true :: (cmds.map .apply ++ .engageKillSwitch false :: after)) =
        (r.refused (cmds.countP (·.type = .submit)), List.replicate (cmds.length + 2) 0 ++ later) ∧
      Machine.runT call e (cancels cmds ++ .engageKillSwitch false :: after) =
        (r, List.replicate ((cancels cmds).length + 1) 0 ++ later) := by
  have hhalted : (e.call (.engageKillSwitch true)).1.Halted :=
    ⟨hlog, m.engageKillSwitch true, congrArg (Option.map _) hm, rfl⟩
  -- the switch is turned off over whatever it was
  have htwice : ∀ r : ListEngine, ((r.call (.engageKillSwitch true)).1.call (.engageKillSwitch false)).1 =
      (r.call (.engageKillSwitch false)).1 := by
    rintro ⟨⟨risk, log, stats⟩, book⟩
    cases risk <;> rfl
  refine ⟨(Machine.runT call ((Machine.runT call e (cancels cmds)).1.call (.engageKillSwitch false)).1 after).2,
    (Machine.runT call ((Machine.runT call e (cancels cmds)).1.call (.engageKillSwitch false)).1 after).1, ?_, ?_⟩
  · rw [Machine.runT_cons, Machine.runT_append, hhalted.window cmds, cancels_engaged, Machine.runT_cons, call_refused,
      htwice, run_refused]
    refine Prod.ext rfl ?_
    show 0 :: (List.replicate cmds.length 0 ++ 0 :: _) = _
    rw [List.replicate_succ, List.replicate_succ']
    simp
  · rw [Machine.runT_append, Machine.runT_cons, cancels_out]
    refine Prod.ext rfl ?_
    show List.replicate _ 0 ++ 0 :: _ = _
    rw [List.replicate_succ']
    simp

theorem call_unlogged (e : ListEngine) (c : EngineCall) :
    e.unlogged.call c = ((e.call c).1.unlogged, (e.call c).2) := by
  cases c with
  | apply cmd => exact e.apply_unlogged cmd
  | engageKillSwitch on => rfl

theorem runCalls_unlogged (e : ListEngine) (calls : List EngineCall) :
    Machine.runT call e.unlogged calls =
      ((Machine.runT call e calls).1.unlogged, (Machine.runT call e calls).2) := by
  have := Machine.runT_map (f := unlogged) (g := id) (k := id) (fun e c => call_unlogged e c) e calls
  rwa [List.map_id, List.map_id] at this

end ListEngine

namespace MatchingEngine

open ListEngine (cancels)

/-- **A halt costs nothing but its submissions.** Engaging the kill switch, applying any commands and
releasing it leaves the engine that was given the cancels alone, but for the submissions it has counted
as commands and as refused: whatever is applied afterwards is answered alike and shows the same. -/
theorem halt_window (stp : SelfTradePolicy) (cfg : RiskConfig) (poolCapacity : UInt64) (host : Option Bytes.ByteOrder)
    (before : List EngineCall) (window : List Command) (after : List EngineCall) :
    ∃ e₀ e e' counts later, fresh stp poolCapacity (some cfg) host = some e₀ ∧
      Machine.run call e₀ (before ++ .engageKillSwitch true :: (window.map .apply ++ .engageKillSwitch false :: after)) =
        some (e, counts ++ (List.replicate (window.length + 2) 0 ++ later)) ∧
      Machine.run call e₀ (before ++ (cancels window ++ .engageKillSwitch false :: after)) =
        some (e', counts ++ (List.replicate ((cancels window).length + 1) 0 ++ later)) ∧
      e.observe = e'.observe.refused (window.countP (·.type = .submit)) := by
  obtain ⟨e₀, hr, h₀⟩ := fresh_spec stp poolCapacity (some cfg) host
  obtain ⟨e, hrun, h⟩ := call_refines.run h₀
    (before ++ .engageKillSwitch true :: (window.map .apply ++ .engageKillSwitch false :: after))
  obtain ⟨e', hrun', h'⟩ := call_refines.run h₀ (before ++ (cancels window ++ .engageKillSwitch false :: after))
  obtain ⟨m, hm, -⟩ := Machine.runT_invariant (P := fun r : ListEngine => r.Guarded cfg) (fun r c hr => hr.call c)
    (ListEngine.fresh_guarded stp cfg host) before
  rw [Machine.runT_append] at hrun hrun' h h'
  generalize Machine.runT ListEngine.call (ListEngine.fresh stp (some cfg) host) before = start at *
  obtain ⟨later, r, hwindow, hcancels⟩ := ListEngine.run_window (e := start.1.unlogged) rfl hm window after
  rw [ListEngine.runCalls_unlogged] at hwindow hcancels
  obtain ⟨hstate, hout⟩ := Prod.mk.inj hwindow
  obtain ⟨hstate', hout'⟩ := Prod.mk.inj hcancels
  refine ⟨e₀, e, e', start.2, later, hr, ?_, ?_, ?_⟩
  · rw [hrun, hout]
  · rw [hrun', hout']
  · have hobserve : ∀ r : ListEngine, r.unlogged.observe = r.observe := fun _ => rfl
    rw [h.observe, h'.observe, ← hobserve, hstate, ListEngine.refused_observe, ← hstate', hobserve]

end MatchingEngine

end Obe
