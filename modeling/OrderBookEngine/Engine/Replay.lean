/-
Replay of a journal. An engine without a journal follows one that has it, so what is read back of a
journal cut anywhere rebuilds the state after the events it holds in full. The kill switch is not
journaled: replay agrees with the live run as long as the switch only stops what the other checks
of the gate stop as well.
-/
import OrderBookEngine.Engine.MatchingEngine

namespace Obe

open Bytes (ByteOrder)

/-! ## Replay -/

/-- `replay`: the recorded commands, applied in order. -/
def MatchingEngine.replay (events : List Command) (e : MatchingEngine) : Option MatchingEngine :=
  (Machine.run apply e events).map (·.1)

/-- `replay_log`: nothing is applied when the file cannot be read. -/
def MatchingEngine.replayLog (host : ByteOrder) (path : String) (file : Option (List UInt8)) (e : MatchingEngine) :
    Except String (Option MatchingEngine) :=
  (readEventLog host path file).map fun events => replay events e

def ListEngine.replay (events : List Command) (e : ListEngine) : ListEngine := (Machine.runT apply e events).1

theorem MatchingEngine.replay_refines {e : MatchingEngine} {r : ListEngine} (h : e.Represents r)
    (events : List Command) :
    ∃ e', replay events e = some e' ∧ e'.Represents (r.replay events) := by
  obtain ⟨e', hrun, h'⟩ := apply_refines.run h events
  exact ⟨e', by rw [replay, hrun]; rfl, h'⟩

/-! ## What is journaled -/

/-- The commands among the calls. -/
def EngineCall.command : EngineCall → Option Command
  | .apply cmd => some cmd
  | .engageKillSwitch _ => none

namespace Controls

variable {e : Controls} {cmd : Command} {reference : Option Price}

/-- Only the journal changes; the sentinel is dropped here or by the writer. -/
theorem journal_eq (e : Controls) (cmd : Command) : e.journal cmd = { e with log := e.log.map (·.append cmd) } := by
  obtain ⟨risk, log, stats⟩ := e
  cases log with
  | none => rfl
  | some log =>
    by_cases hc : cmd.type = .shutdown
    · have happ : log.append cmd = log := if_pos hc
      unfold journal
      simp [hc, happ]
    · unfold journal
      simp [hc]

theorem journal_log (e : Controls) (cmd : Command) : (e.journal cmd).log = e.log.map (·.append cmd) := by
  rw [journal_eq]

/-- The engine without its journal. -/
def unlogged (e : Controls) : Controls := { e with log := none }

theorem check_unlogged (e : Controls) (cmd : Command) (reference : Option Price) :
    e.unlogged.check cmd reference = ((e.check cmd reference).1.unlogged, (e.check cmd reference).2) := by
  obtain ⟨risk, log, stats⟩ := e
  cases risk <;> rfl

theorem check_log (e : Controls) (cmd : Command) (reference : Option Price) :
    (e.check cmd reference).1.log = e.log := by
  obtain ⟨risk, log, stats⟩ := e
  cases risk <;> rfl

theorem unlogged_journal (e : Controls) (cmd : Command) : (e.journal cmd).unlogged = e.unlogged := by
  rw [journal_eq]; rfl

theorem journal_unlogged (e : Controls) (cmd : Command) : e.unlogged.journal cmd = e.unlogged := by
  rw [journal_eq]; rfl

end Controls

namespace ListEngine

variable {e r : ListEngine} {cmd : Command}

def unlogged (e : ListEngine) : ListEngine := { e with toControls := e.toControls.unlogged }

/-- What `apply` does to the journal. -/
theorem apply_log (e : ListEngine) (cmd : Command) : (e.apply cmd).1.log = e.log.map (·.append cmd) := by
  have hj := Controls.journal_log e.toControls cmd
  have hc := Controls.check_log (e.toControls.journal cmd) cmd (e.reference cmd)
  unfold apply enter
  dsimp only
  split
  · split
    · exact hc.trans hj
    · exact hc.trans hj
  · split
    · exact hj
    · exact hj

theorem call_log (e : ListEngine) (c : EngineCall) :
    (e.call c).1.log = e.log.map fun w => (c.command.toList).foldl EventLogWriter.append w := by
  cases c with
  | apply cmd => exact apply_log e cmd
  | engageKillSwitch on => exact Option.map_id'.symm

theorem run_log (e : ListEngine) (cmds : List Command) :
    (Machine.runT apply e cmds).1.log = e.log.map fun w => cmds.foldl EventLogWriter.append w := by
  induction cmds generalizing e with
  | nil => exact Option.map_id'.symm
  | cons c cmds ih =>
    show (Machine.runT apply (e.apply c).1 cmds).1.log = _
    rw [ih, apply_log, Option.map_map]; rfl

theorem runCalls_log (e : ListEngine) (calls : List EngineCall) :
    (Machine.runT call e calls).1.log =
      e.log.map fun w => (calls.filterMap EngineCall.command).foldl EventLogWriter.append w := by
  induction calls generalizing e with
  | nil => exact Option.map_id'.symm
  | cons c calls ih =>
    show (Machine.runT call (e.call c).1 calls).1.log = _
    rw [ih, call_log, Option.map_map]
    cases c with
    | apply cmd => rfl
    | engageKillSwitch on => rfl

/-- Without its journal the engine does the same. -/
theorem apply_unlogged (e : ListEngine) (cmd : Command) :
    e.unlogged.apply cmd = ((e.apply cmd).1.unlogged, (e.apply cmd).2) := by
  have href : e.unlogged.reference cmd = e.reference cmd := rfl
  have hjournal : e.unlogged.toControls.journal cmd = e.toControls.unlogged :=
    Controls.journal_unlogged e.toControls cmd
  have hcheck : e.toControls.unlogged.check cmd (e.reference cmd) =
      (((e.toControls.journal cmd).check cmd (e.reference cmd)).1.unlogged,
        ((e.toControls.journal cmd).check cmd (e.reference cmd)).2) := by
    rw [← Controls.unlogged_journal, Controls.check_unlogged]
  unfold apply
  dsimp only
  rw [href, hjournal, hcheck]
  by_cases hs : cmd.type = .submit
  · rw [if_pos hs, if_pos hs]
    unfold enter
    dsimp only
    split <;> rfl
  · rw [if_neg hs, if_neg hs]
    by_cases hc : cmd.type = .cancel
    · rw [if_pos hc, if_pos hc]
      unfold unlogged
      simp only [Controls.unlogged, Controls.cancelled, Controls.journal_eq]
    · rw [if_neg hc, if_neg hc]
      unfold unlogged
      simp only [Controls.unlogged, Controls.journal_eq]

theorem run_unlogged (e : ListEngine) (cmds : List Command) :
    (Machine.runT apply e.unlogged cmds).1 = (Machine.runT apply e cmds).1.unlogged := by
  induction cmds generalizing e with
  | nil => rfl
  | cons c cmds ih =>
    show (Machine.runT apply (e.unlogged.apply c).1 cmds).1 = (Machine.runT apply (e.apply c).1 cmds).1.unlogged
    rw [apply_unlogged, ih]

/-- The journal of an engine is not part of what it shows. -/
theorem replay_observe (r : ListEngine) (cmds : List Command) :
    (r.unlogged.replay cmds).observe = (r.replay cmds).observe := by
  unfold replay
  rw [run_unlogged]
  rfl

/-- Nor does it show that it was given a journal. -/
theorem replay_logging (r : ListEngine) (next : Option ByteOrder) (cmds : List Command) :
    (ListEngine.replay cmds { r with toControls := r.enableLogging next }).observe = (r.replay cmds).observe := by
  have hunlogged : ({ r with toControls := r.enableLogging next } : ListEngine).unlogged = r.unlogged := by
    cases next <;> rfl
  rw [← replay_observe, hunlogged, replay_observe]

/-- The sentinel does nothing, so a run is the run of its events. -/
theorem apply_shutdown (e : ListEngine) (h : isEvent cmd = false) : (e.unlogged.apply cmd).1 = e.unlogged := by
  have hc : cmd.type = .shutdown := by simpa [isEvent] using h
  have hjournal : e.unlogged.toControls.journal cmd = e.toControls.unlogged :=
    Controls.journal_unlogged e.toControls cmd
  unfold apply
  dsimp only
  rw [hjournal, if_neg (by rw [hc]; decide), if_neg (by rw [hc]; decide)]
  rfl

theorem run_events (e : ListEngine) (cmds : List Command) :
    (Machine.runT apply e.unlogged (cmds.filter isEvent)).1 = (Machine.runT apply e.unlogged cmds).1 := by
  induction cmds generalizing e with
  | nil => rfl
  | cons c cmds ih =>
    cases hc : isEvent c with
    | true =>
      rw [List.filter_cons_of_pos hc]
      show (Machine.runT apply (e.unlogged.apply c).1 _).1 = (Machine.runT apply (e.unlogged.apply c).1 cmds).1
      rw [apply_unlogged, ih]
    | false =>
      rw [List.filter_cons_of_neg (by simp [hc]), ih]
      show _ = (Machine.runT apply (e.unlogged.apply c).1 cmds).1
      rw [apply_shutdown e hc]

end ListEngine

/-! ## Recovery from a torn journal -/

theorem fresh_unlogged (stp : SelfTradePolicy) (risk : Option RiskConfig) (host : ByteOrder) :
    ListEngine.fresh stp risk none = (ListEngine.fresh stp risk (some host)).unlogged := by
  cases risk <;> rfl

theorem fresh_log (stp : SelfTradePolicy) (risk : Option RiskConfig) (host : ByteOrder) :
    (ListEngine.fresh stp risk (some host)).log = some (.create host) := by
  cases risk <;> rfl

namespace MatchingEngine

/-- Replaying a journal cut at `n` applies the events it holds in full. -/
theorem replayLog_spec {e : MatchingEngine} {r : ListEngine} (h : e.Represents r) (host : ByteOrder) (path : String)
    (cmds : List Command) {n : Nat} (h8 : 8 ≤ n)
    (hn : n ≤ (cmds.foldl EventLogWriter.append (.create host)).out.length) :
    ∃ e', replayLog host path (some ((cmds.foldl EventLogWriter.append (.create host)).out.take n)) e =
      .ok (some e') ∧
      e'.Represents (r.replay ((cmds.filter isEvent).take ((n - 8) / 40))) := by
  obtain ⟨-, hout⟩ := append_out (.create host) cmds
  rw [journal_length] at hn
  obtain ⟨e', hr, h'⟩ := replay_refines h ((cmds.filter isEvent).take ((n - 8) / 40))
  refine ⟨e', ?_, h'⟩
  have hread := readEventLog_take host path (cmds.filter isEvent) h8 hn
  rw [hout, replayLog]
  show Except.map _ (readEventLog host path
    (some ((EventLogWriter.header host ++ ((cmds.filter isEvent).map (encode host)).flatten).take n))) = _
  rw [hread]
  exact congrArg Except.ok hr

/-- A prefix with a given number of events. -/
theorem exists_prefix {cmds : List Command} {k : Nat} (h : k ≤ (cmds.filter isEvent).length) :
    ∃ pre post, cmds = pre ++ post ∧ (pre.filter isEvent).length = k := by
  induction cmds generalizing k with
  | nil => exact ⟨[], [], rfl, (Nat.le_zero.1 h).symm⟩
  | cons c cmds ih =>
    cases k with
    | zero => exact ⟨[], c :: cmds, rfl, rfl⟩
    | succ k =>
      cases hc : isEvent c with
      | true =>
        rw [List.filter_cons_of_pos hc, List.length_cons] at h
        obtain ⟨pre, post, rfl, hp⟩ := ih (Nat.le_of_succ_le_succ h)
        exact ⟨c :: pre, post, rfl, by rw [List.filter_cons_of_pos hc, List.length_cons, hp]⟩
      | false =>
        have hc' : ¬ isEvent c = true := by simp [hc]
        rw [List.filter_cons_of_neg hc'] at h
        obtain ⟨pre, post, rfl, hp⟩ := ih h
        exact ⟨c :: pre, post, rfl, by rw [List.filter_cons_of_neg hc', hp]⟩

/-- **Recovery from a torn journal.** The journal of a run is its header and a record for each event. Of it,
cut at any length that holds the header, replay rebuilds the state the live engine had after the events whose
records are complete; a shorter file is refused and nothing is applied. -/
theorem torn_journal (stp : SelfTradePolicy) (poolCapacity : UInt64) (risk : Option RiskConfig) (host : ByteOrder)
    (path : String) (cmds : List Command) :
    ∃ live₀ live outs log e₀, fresh stp poolCapacity risk (some host) = some live₀ ∧
      Machine.run apply live₀ cmds = some (live, outs) ∧ live.log = some log ∧
      fresh stp poolCapacity risk none = some e₀ ∧ log.out.length = 8 + (cmds.filter isEvent).length * 40 ∧
      (∀ n, 8 ≤ n → n ≤ log.out.length →
        ∃ e, replayLog host path (some (log.out.take n)) e₀ = .ok (some e) ∧
          (∃ pre post, cmds = pre ++ post ∧ (pre.filter isEvent).length = (n - 8) / 40) ∧
          ∀ pre post, cmds = pre ++ post → (pre.filter isEvent).length = (n - 8) / 40 →
            ∃ before outs', Machine.run apply live₀ pre = some (before, outs') ∧ e.observe = before.observe) ∧
      (∀ n < 8, replayLog host path (some (log.out.take n)) e₀ = .error ("read_event_log: bad magic in " ++ path)) := by
  obtain ⟨live₀, hr, h₀⟩ := fresh_spec stp poolCapacity risk (some host)
  obtain ⟨e₀, hre, he₀⟩ := fresh_spec stp poolCapacity risk none
  obtain ⟨live, hrun, h⟩ := apply_refines.run h₀ cmds
  rw [fresh_unlogged stp risk host] at he₀
  have hlog : live.log = some (cmds.foldl EventLogWriter.append (.create host)) := by
    have hl := ListEngine.run_log (ListEngine.fresh stp risk (some host)) cmds
    rw [fresh_log] at hl
    exact (congrArg Controls.log h.controls).trans hl
  refine ⟨live₀, live, _, _, e₀, hr, hrun, hlog, hre, journal_length host cmds, fun n h8 hn => ?_, fun n hn => ?_⟩
  · obtain ⟨e, hrep, he⟩ := replayLog_spec he₀ host path cmds h8 hn
    have hcount : (n - 8) / 40 ≤ (cmds.filter isEvent).length := by
      rw [journal_length] at hn
      unfold EventLogWriter.kRecordSize at hn
      omega
    refine ⟨e, hrep, exists_prefix hcount, fun pre post hcmds hpre => ?_⟩
    obtain ⟨before, hb, hbefore⟩ := apply_refines.run h₀ pre
    refine ⟨before, _, hb, ?_⟩
    have htake : (cmds.filter isEvent).take ((n - 8) / 40) = pre.filter isEvent := by
      rw [hcmds, List.filter_append, ← hpre, List.take_left]
    have hstate : (ListEngine.fresh stp risk (some host)).unlogged.replay (pre.filter isEvent) =
        (Machine.runT ListEngine.apply (ListEngine.fresh stp risk (some host)) pre).1.unlogged := by
      unfold ListEngine.replay
      rw [ListEngine.run_events, ListEngine.run_unlogged]
    rw [htake, hstate] at he
    exact he.observe.trans hbefore.observe.symm
  · have hshort : ((cmds.foldl EventLogWriter.append (.create host)).out.take n).length < 8 :=
      lt_of_le_of_lt (List.length_take_le ..) hn
    rw [replayLog, readEventLog_short host path hshort]
    rfl

end MatchingEngine

/-! ## The kill switch -/

/-- The kill switch alone refuses a submission: the other checks of the gate would pass it. -/
def Controls.onlyHalted (e : Controls) (cmd : Command) (reference : Option Price) : Bool :=
  cmd.type = .submit &&
    e.risk.any fun m => m.killSwitch && !m.refuses cmd.id cmd.price cmd.quantity reference

def MatchingEngine.onlyHalted (e : MatchingEngine) (cmd : Command) : Bool :=
  e.toControls.onlyHalted cmd (e.reference cmd)

/-- `m'` is `m` with its kill switch off and any tallies. -/
structure RiskManager.Released (m m' : RiskManager) : Prop where
  cfg : m'.cfg = m.cfg
  seenIds : m'.seenIds = m.seenIds
  killSwitch : m'.killSwitch = false

namespace RiskManager.Released

variable {m m' : RiskManager} {id : OrderId} {price : Price} {qty : Quantity} {reference : Option Price}

theorem refuses (h : m.Released m') : m'.refuses id price qty reference = m.refuses id price qty reference := by
  unfold RiskManager.refuses
  rw [h.cfg, h.seenIds]

theorem count (h : m.Released m') (reason reason' : RejectReason) : (m.count reason).Released (m'.count reason') :=
  ⟨h.cfg, h.seenIds, h.killSwitch⟩

/-- Unless the kill switch alone decides, both gates refuse or both accept. -/
theorem check (h : m.Released m') (side : Side) (hk : (m.killSwitch && !m.refuses id price qty reference) = false) :
    (m.check id side price qty reference).1.Released (m'.check id side price qty reference).1 ∧
      ((m'.check id side price qty reference).2 = .accepted ↔
        (m.check id side price qty reference).2 = .accepted) := by
  rcases m'.check_cases id side price qty reference with ⟨h1, -⟩ | ⟨-, h2, reason', hr', he'⟩ | ⟨-, h2, he'⟩
  · rw [h.killSwitch] at h1; cases h1
  · -- the released gate refuses
    rw [h.refuses] at h2
    rcases m.check_cases id side price qty reference with ⟨-, he⟩ | ⟨-, -, reason, hr, he⟩ | ⟨-, h3, -⟩
    · rw [he, he']
      exact ⟨h.count _ _, fun hc => absurd hc hr', fun hc => by cases hc⟩
    · rw [he, he']
      exact ⟨h.count _ _, fun hc => absurd hc hr', fun hc => absurd hc hr⟩
    · rw [h2] at h3; cases h3
  · -- it accepts, and so does the live one
    rw [h.refuses] at h2
    rcases m.check_cases id side price qty reference with ⟨h1, -⟩ | ⟨-, h3, -⟩ | ⟨-, -, he⟩
    · rw [h1, h2] at hk; cases hk
    · rw [h2] at h3; cases h3
    · rw [he, he']
      refine ⟨⟨h.cfg, ?_, h.killSwitch⟩, Iff.rfl⟩
      simp only [RiskManager.count, h.cfg, h.seenIds]

end RiskManager.Released

namespace ListEngine

/-- The replayed engine `r` has recovered the live one. -/
structure Recovers (r live : ListEngine) : Prop where
  book : r.book = live.book
  stats : r.stats = live.stats
  log : r.log = none
  gate : ∃ m m', live.risk = some m ∧ r.risk = some m' ∧ m.Released m'

variable {r live : ListEngine} {cmd : Command}

def onlyHalted (e : ListEngine) (cmd : Command) : Bool := e.toControls.onlyHalted cmd (e.reference cmd)

/-- A submission, with the verdicts of both gates. -/
theorem enter_recovers {book : ListBook} {c c' : Controls} {reason reason' : RejectReason}
    (hs : c'.stats = c.stats) (hl : c'.log = none) (hg : ∃ m m', c.risk = some m ∧ c'.risk = some m' ∧ m.Released m')
    (hr : reason' = .accepted ↔ reason = .accepted) :
    Recovers (enter book cmd (c', reason')).1 (enter book cmd (c, reason)).1 := by
  unfold enter
  by_cases ha : reason = .accepted
  · rw [if_neg (not_not.2 (hr.2 ha)), if_neg (not_not.2 ha)]
    exact ⟨rfl, by simp only [Controls.submitted, hs], hl, hg⟩
  · rw [if_pos (fun h => ha (hr.1 h)), if_pos ha]
    exact ⟨rfl, by simp only [Controls.received, hs], hl, hg⟩

/-- A replayed command recovers what the live one did, unless the kill switch alone stopped it. -/
theorem Recovers.apply (h : Recovers r live) (hk : live.onlyHalted cmd = false) :
    Recovers (r.apply cmd).1 (live.apply cmd).1 := by
  obtain ⟨m, m', hm, hm', hrel⟩ := h.gate
  have href : r.reference cmd = live.reference cmd := by unfold reference; rw [h.book]
  have hjournal : r.toControls.journal cmd = r.toControls := by
    rw [Controls.journal_eq, h.log, Option.map_none, ← h.log]
  unfold ListEngine.apply
  dsimp only
  rw [href, hjournal, h.book, Controls.journal_eq]
  by_cases hs : cmd.type = .submit
  · rw [if_pos hs, if_pos hs]
    have hk' : (m.killSwitch && !m.refuses cmd.id cmd.price cmd.quantity (live.reference cmd)) = false := by
      simpa [onlyHalted, Controls.onlyHalted, hs, hm] using hk
    obtain ⟨hrel', hacc⟩ := hrel.check cmd.side hk'
    unfold Controls.check
    rw [hm']
    dsimp only
    rw [hm]
    exact enter_recovers h.stats h.log ⟨_, _, rfl, rfl, hrel'⟩ hacc
  · rw [if_neg hs, if_neg hs]
    by_cases hc : cmd.type = .cancel
    · rw [if_pos hc, if_pos hc]
      exact ⟨rfl, by simp only [Controls.cancelled, h.stats], h.log, m, m', hm, hm', hrel⟩
    · rw [if_neg hc, if_neg hc]
      exact ⟨rfl, h.stats, h.log, m, m', hm, hm', hrel⟩

/-- Where the kill switch alone stopped a submission, the counters tell the two engines apart. -/
theorem Recovers.differs (h : Recovers r live) (hk : live.onlyHalted cmd = true) :
    (r.apply cmd).1.stats ≠ (live.apply cmd).1.stats := by
  obtain ⟨m, m', hm, hm', hrel⟩ := h.gate
  have href : r.reference cmd = live.reference cmd := by unfold reference; rw [h.book]
  simp only [onlyHalted, Controls.onlyHalted, hm, Option.any_some, Bool.and_eq_true, decide_eq_true_eq,
    Bool.not_eq_true'] at hk
  obtain ⟨hs, hkill, hpass⟩ := hk
  have hlive : (live.apply cmd).1.stats.submits = live.stats.submits := by
    have hcheck : (m.check cmd.id cmd.side cmd.price cmd.quantity (live.reference cmd)).2 = .killSwitch := by
      unfold RiskManager.check
      rw [if_pos hkill]
    unfold ListEngine.apply
    dsimp only
    rw [if_pos hs, Controls.journal_eq]
    unfold enter Controls.check
    simp [hm, hcheck, Controls.received]
  have hrep : (r.apply cmd).1.stats.submits = live.stats.submits + 1 := by
    have hcheck : (m'.check cmd.id cmd.side cmd.price cmd.quantity (live.reference cmd)).2 = .accepted := by
      rcases m'.check_cases cmd.id cmd.side cmd.price cmd.quantity (live.reference cmd) with ⟨h1, -⟩ | ⟨-, h2, -⟩ |
        ⟨-, -, he⟩
      · rw [hrel.killSwitch] at h1; cases h1
      · rw [hrel.refuses, hpass] at h2; cases h2
      · rw [he]
    unfold ListEngine.apply
    dsimp only
    rw [if_pos hs, Controls.journal_eq, href]
    unfold enter Controls.check
    simp [hm', hcheck, Controls.submitted, h.stats]
  intro he
  rw [he, hlive] at hrep
  have : ∀ x : UInt64, x ≠ x + 1 := by intro x; grind
  exact this _ hrep

theorem Recovers.engageKillSwitch (h : Recovers r live) (on : Bool) :
    Recovers r (live.call (.engageKillSwitch on)).1 := by
  obtain ⟨m, m', hm, hm', hrel⟩ := h.gate
  refine ⟨h.book, h.stats, h.log, m.engageKillSwitch on, m', ?_, hm', hrel.cfg, hrel.seenIds, hrel.killSwitch⟩
  show live.risk.map _ = _
  rw [hm]; rfl

/-- Replay recovers every run in which the kill switch alone stops nothing. -/
theorem Recovers.run (h : Recovers r live) (calls : List EngineCall)
    (hk : ∀ pre cmd post, calls = pre ++ .apply cmd :: post →
      Recovers (r.replay (pre.filterMap EngineCall.command)) (Machine.runT call live pre).1 →
      (Machine.runT call live pre).1.onlyHalted cmd = false) :
    Recovers (r.replay (calls.filterMap EngineCall.command)) (Machine.runT call live calls).1 := by
  induction calls generalizing r live with
  | nil => exact h
  | cons c calls ih =>
    cases c with
    | apply cmd =>
      have hstep := h.apply (hk [] cmd calls rfl h)
      exact ih hstep fun pre cmd' post hsplit => hk (.apply cmd :: pre) cmd' post (by rw [hsplit]; rfl)
    | engageKillSwitch on =>
      exact ih (h.engageKillSwitch on) fun pre cmd' post hsplit =>
        hk (.engageKillSwitch on :: pre) cmd' post (by rw [hsplit]; rfl)

end ListEngine

namespace MatchingEngine

/-- A live run, and the replay of its whole journal. -/
theorem replay_run {live₀ e₀ : MatchingEngine} {stp : SelfTradePolicy} {risk : Option RiskConfig} {host : ByteOrder}
    (h₀ : live₀.Represents (.fresh stp risk (some host))) (he₀ : e₀.Represents (.fresh stp risk none)) (path : String)
    (calls : List EngineCall) :
    ∃ live outs log e, Machine.run call live₀ calls = some (live, outs) ∧
      live.Represents (Machine.runT ListEngine.call (.fresh stp risk (some host)) calls).1 ∧ live.log = some log ∧
      replayLog host path (some log.out) e₀ = .ok (some e) ∧
      e.Represents ((ListEngine.fresh stp risk none).replay (calls.filterMap EngineCall.command)) := by
  obtain ⟨live, hrun, h⟩ := call_refines.run h₀ calls
  have hlog : live.log = some ((calls.filterMap EngineCall.command).foldl EventLogWriter.append (.create host)) := by
    have hl := ListEngine.runCalls_log (ListEngine.fresh stp risk (some host)) calls
    rw [fresh_log] at hl
    exact (congrArg Controls.log h.controls).trans hl
  have hlen := journal_length host (calls.filterMap EngineCall.command)
  obtain ⟨e, hrep, he⟩ := replayLog_spec he₀ host path (calls.filterMap EngineCall.command)
    (by rw [hlen]; exact Nat.le_add_right 8 _) (Nat.le_refl _)
  have hcount :
      (8 + ((calls.filterMap EngineCall.command).filter isEvent).length * EventLogWriter.kRecordSize - 8) / 40 =
      ((calls.filterMap EngineCall.command).filter isEvent).length := by
    unfold EventLogWriter.kRecordSize
    omega
  rw [List.take_length] at hrep
  rw [hlen, hcount, List.take_length, fresh_unlogged stp risk host, ListEngine.replay, ListEngine.run_events] at he
  refine ⟨live, _, _, e, hrun, h, hlog, hrep, ?_⟩
  rw [fresh_unlogged stp risk host]
  exact he

/-- **Replay and the kill switch.** The replay of the journal agrees with the live engine after every
step of a run exactly when the kill switch never is the only reason to refuse a submission. -/
theorem replay_agrees_iff (stp : SelfTradePolicy) (poolCapacity : UInt64) (cfg : RiskConfig) (host : ByteOrder)
    (path : String) :
    ∃ live₀ e₀, fresh stp poolCapacity (some cfg) (some host) = some live₀ ∧
      fresh stp poolCapacity (some cfg) none = some e₀ ∧
      ∀ calls, (∀ pre post, calls = pre ++ post →
          ∃ live outs log e, Machine.run call live₀ pre = some (live, outs) ∧ live.log = some log ∧
            replayLog host path (some log.out) e₀ = .ok (some e) ∧ e.book.observe = live.book.observe ∧
            e.stats = live.stats) ↔
        ∀ pre cmd post live outs, calls = pre ++ .apply cmd :: post → Machine.run call live₀ pre = some (live, outs) →
          live.onlyHalted cmd = false := by
  obtain ⟨live₀, hr, h₀⟩ := fresh_spec stp poolCapacity (some cfg) (some host)
  obtain ⟨e₀, hre, he₀⟩ := fresh_spec stp poolCapacity (some cfg) none
  have hstart : ListEngine.Recovers (.fresh stp (some cfg) none) (.fresh stp (some cfg) (some host)) :=
    ⟨rfl, rfl, rfl, .create cfg, .create cfg, rfl, rfl, ⟨rfl, rfl, rfl⟩⟩
  have honly : ∀ {e : MatchingEngine} {r : ListEngine} (_ : e.Represents r) cmd,
      e.onlyHalted cmd = r.onlyHalted cmd := by
    intro e r h cmd
    unfold onlyHalted ListEngine.onlyHalted
    rw [h.controls, h.reference]
  refine ⟨live₀, e₀, hr, hre, fun calls => ⟨fun hagree => ?_, fun hcond => ?_⟩⟩
  · -- a submission only the kill switch stopped would show in the counters right after it
    have hstep : ∀ pre cmd post, calls = pre ++ .apply cmd :: post →
        ListEngine.Recovers ((ListEngine.fresh stp (some cfg) none).replay (pre.filterMap EngineCall.command))
          (Machine.runT ListEngine.call (.fresh stp (some cfg) (some host)) pre).1 →
        (Machine.runT ListEngine.call (.fresh stp (some cfg) (some host)) pre).1.onlyHalted cmd = false := by
      intro pre cmd post hsplit hrec
      by_contra hk
      apply hrec.differs (Bool.eq_true_of_not_eq_false hk)
      obtain ⟨live, outs, log, e, hrun, hlog, hrep, -, hstats⟩ := hagree (pre ++ [.apply cmd]) post (by simp [hsplit])
      obtain ⟨live', outs', log', e', hrun', h, hlog', hrep', he⟩ := replay_run h₀ he₀ path (pre ++ [.apply cmd])
      rw [hrun] at hrun'
      cases hrun'
      rw [hlog] at hlog'
      cases hlog'
      rw [hrep] at hrep'
      cases hrep'
      have hl : live.stats = _ := congrArg Controls.stats h.controls
      have he : e.stats = _ := congrArg Controls.stats he.controls
      rw [List.filterMap_append, ListEngine.replay, Machine.runT_append] at he
      rw [Machine.runT_append] at hl
      exact he.symm.trans (hstats.trans hl)
    intro pre cmd post live outs hsplit hrun
    have hrec := hstart.run pre fun p c q hp => hstep p c (q ++ .apply cmd :: post) (by rw [hsplit, hp]; simp)
    obtain ⟨live', hrun', h⟩ := call_refines.run h₀ pre
    rw [hrun] at hrun'
    cases hrun'
    rw [honly h]
    exact hstep pre cmd post hsplit hrec
  · intro pre post hsplit
    have hrec := hstart.run pre fun p cmd q hp _ => by
      obtain ⟨live, hrun, h⟩ := call_refines.run h₀ p
      rw [← honly h]
      exact hcond p cmd (q ++ post) live _ (by rw [hsplit, hp]; simp) hrun
    obtain ⟨live, outs, log, e, hrun, h, hlog, hrep, he⟩ := replay_run h₀ he₀ path pre
    refine ⟨live, outs, log, e, hrun, hlog, hrep, ?_, ?_⟩
    · rw [he.bookObserve, h.bookObserve, hrec.book]
    · have hl : live.stats = _ := congrArg Controls.stats h.controls
      have he : e.stats = _ := congrArg Controls.stats he.controls
      rw [he, hl]
      exact hrec.stats

/-- One submission under an engaged kill switch: refused live, rested by the replay. -/
theorem halted_submit_replayed :
    ∃ live₀ live outs log e₀ e, fresh .none 1 (some .new) (some .little) = some live₀ ∧
      Machine.run call live₀ [.engageKillSwitch true, .apply (.makeSubmit 1 1 .buy 100 10)] = some (live, outs) ∧
      live.log = some log ∧ fresh .none 1 (some .new) none = some e₀ ∧
      replayLog .little "session.bin" (some log.out) e₀ = .ok (some e) ∧
      live.book.orderCount = 0 ∧ e.book.orderCount = 1 ∧ live.stats ≠ e.stats := by
  obtain ⟨live₀, hr, h₀⟩ := fresh_spec .none 1 (some .new) (some .little)
  obtain ⟨e₀, hre, he₀⟩ := fresh_spec .none 1 (some .new) none
  obtain ⟨live, outs, log, e, hrun, h, hlog, hrep, he⟩ := replay_run h₀ he₀ "session.bin"
    [.engageKillSwitch true, .apply (.makeSubmit 1 1 .buy 100 10)]
  have hl : live.stats = _ := congrArg Controls.stats h.controls
  have hes : e.stats = _ := congrArg Controls.stats he.controls
  refine ⟨live₀, live, outs, log, e₀, e, hr, hrun, hlog, hre, hrep, ?_, ?_, ?_⟩
  · exact (congrArg Observation.orderCount h.bookObserve).trans (by decide)
  · exact (congrArg Observation.orderCount he.bookObserve).trans (by decide)
  · rw [hl, hes]; decide

end MatchingEngine

end Obe
