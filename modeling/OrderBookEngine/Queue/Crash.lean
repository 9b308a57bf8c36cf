/-
A crash of the threaded engine. Wherever the interleaving of the producer and the consumer stops, and
wherever the journal is cut behind its header, replay rebuilds the engine that was given a front part of
the producer's commands inline. An engine started from there and sent the others ends as one that was
never interrupted.
-/
import OrderBookEngine.Engine.Replay
import OrderBookEngine.Queue.Pipeline

namespace Obe

open Bytes (ByteOrder)

namespace Pipeline

open MatchingEngine (apply fresh replayLog)

variable {e₀ : MatchingEngine} {r₀ : ListEngine} {cmds done : List Command} {s : Pipeline}

/-- The journal of a pipeline holds what was applied. -/
theorem Inv.log (h : Inv e₀ (cmds ++ [.makeShutdown]) s done) (h₀ : e₀.Represents r₀) {host : ByteOrder}
    (hlog : r₀.log = some (.create host)) : s.engine.log = some (done.foldl EventLogWriter.append (.create host)) := by
  obtain ⟨outs, hrun⟩ := h.engine
  obtain ⟨e, hrun', he⟩ := MatchingEngine.apply_refines.run h₀ done
  rw [hrun] at hrun'
  cases hrun'
  have hl := ListEngine.run_log r₀ done
  rw [hlog] at hl
  exact (congrArg Controls.log he.controls).trans hl

theorem Inv.filter_done (h : Inv e₀ (cmds ++ [.makeShutdown]) s done) : done.filter isEvent = done :=
  List.filter_eq_self.2 fun cmd hc => by simpa [isEvent] using h.events cmd hc

/-- It is the header and a record for each command applied. -/
theorem Inv.length (h : Inv e₀ (cmds ++ [.makeShutdown]) s done) (host : ByteOrder) :
    (done.foldl EventLogWriter.append (.create host)).out.length = 8 + done.length * 40 := by
  have hlen := journal_length host done
  rwa [h.filter_done] at hlen

/-- What a journal that is cut holds of what was applied. -/
theorem Inv.cut (h : Inv e₀ (cmds ++ [.makeShutdown]) s done) {host : ByteOrder} {n : Nat}
    (hn : n ≤ (done.foldl EventLogWriter.append (.create host)).out.length) :
    (n - 8) / 40 ≤ done.length ∧ (done.filter isEvent).take ((n - 8) / 40) = cmds.take ((n - 8) / 40) := by
  rw [h.length] at hn
  have hk : (n - 8) / 40 ≤ done.length := by omega
  obtain ⟨rest, rfl⟩ := h.applied
  refine ⟨hk, ?_⟩
  rw [h.filter_done, List.take_append_of_le_length hk]

/-- **A crash of the threaded engine is a pause.** Wherever an interleaving of the two threads stops and
wherever the journal is cut behind its header, what replay recovers is the engine that was given inline
as many of the producer's first commands as the file holds records, none of them lost, repeated or out
of order; and when it is started, with or without a journal of its own, and is sent the others, it can end,
and ends as one that was never interrupted. A file cut within its header is refused. -/
theorem crash_resume (queueCapacity queueCapacity' : UInt64) (stp : SelfTradePolicy) (poolCapacity : UInt64)
    (risk : Option RiskConfig) (host : ByteOrder) (path : String) (next : Option ByteOrder) (cmds : List Command)
    (hcmds : ∀ cmd ∈ cmds, cmd.type ≠ .shutdown) :
    ∃ live₀ e₀ whole trades, fresh stp poolCapacity risk (some host) = some live₀ ∧
      fresh stp poolCapacity risk none = some e₀ ∧ Machine.run apply e₀ cmds = some (whole, trades) ∧
      ∀ acts s outs, Machine.run step (start queueCapacity live₀ cmds) acts = some (s, outs) →
        ∃ log, s.engine.log = some log ∧ log.out.length = 8 + (outs.filterMap id).length * 40 ∧
          (∀ n < 8, replayLog host path (some (log.out.take n)) e₀ = .error ("read_event_log: bad magic in " ++ path)) ∧
          ∀ n, 8 ≤ n → n ≤ log.out.length →
            (n - 8) / 40 ≤ (outs.filterMap id).length ∧
            ∃ e, replayLog host path (some (log.out.take n)) e₀ = .ok (some e) ∧
              (∃ e' trades', Machine.run apply e₀ (cmds.take ((n - 8) / 40)) = some (e', trades') ∧
                e.observe = e'.observe) ∧
              (∀ acts' s' outs',
                Machine.run step (start queueCapacity' { e with toControls := e.enableLogging next }
                  (cmds.drop ((n - 8) / 40))) acts' = some (s', outs') →
                s'.loop = .exited → s'.engine.observe = whole.observe) ∧
              (queueCapacity'.toNat ≤ 2 ^ 63 → ∃ acts' s' outs',
                Machine.run step (start queueCapacity' { e with toControls := e.enableLogging next }
                  (cmds.drop ((n - 8) / 40))) acts' = some (s', outs') ∧ s'.loop = .exited) := by
  obtain ⟨live₀, hr, h₀⟩ := MatchingEngine.fresh_spec stp poolCapacity risk (some host)
  obtain ⟨e₀, hre, he₀⟩ := MatchingEngine.fresh_spec stp poolCapacity risk none
  obtain ⟨whole, hwhole, hw⟩ := MatchingEngine.apply_refines.run he₀ cmds
  refine ⟨live₀, e₀, whole, _, hr, hre, hwhole, fun acts s outs hacts => ?_⟩
  have hinv := (Inv.start queueCapacity live₀ cmds).run hacts
  rw [List.nil_append] at hinv
  generalize outs.filterMap id = done at hinv ⊢
  refine ⟨_, hinv.log h₀ (fresh_log stp risk host), hinv.length host, fun n hn => ?_, fun n h8 hn => ?_⟩
  · have hshort : ((done.foldl EventLogWriter.append (.create host)).out.take n).length < 8 :=
      lt_of_le_of_lt (List.length_take_le ..) hn
    rw [replayLog, readEventLog_short host path hshort]
    rfl
  obtain ⟨hk, hcut⟩ := hinv.cut hn
  obtain ⟨e, hrep, he⟩ := MatchingEngine.replayLog_spec he₀ host path done h8 hn
  rw [hcut] at he
  obtain ⟨e', hrun', he'⟩ := MatchingEngine.apply_refines.run he₀ (cmds.take ((n - 8) / 40))
  -- the engine that goes on
  have hrest : ∀ cmd ∈ cmds.drop ((n - 8) / 40), cmd.type ≠ .shutdown := fun cmd hc =>
    hcmds cmd (List.mem_of_mem_drop hc)
  have hsame := he.observe.trans he'.observe.symm
  generalize hreplay : (ListEngine.fresh stp risk none).replay (cmds.take ((n - 8) / 40)) = r at he
  have hlive : ({ e with toControls := e.enableLogging next } : MatchingEngine).Represents
      { r with toControls := r.enableLogging next } := ⟨congrArg (·.enableLogging next) he.controls, he.book⟩
  refine ⟨hk, e, hrep, ⟨e', _, hrun', hsame⟩, fun acts' s' outs' hacts' hexit => ?_,
    fun hcap => start_completes hcap hlive hrest⟩
  have hinv' := (Inv.start queueCapacity' { e with toControls := e.enableLogging next }
    (cmds.drop ((n - 8) / 40))).run hacts'
  rw [List.nil_append] at hinv'
  have hdone := hinv'.exited hrest hexit
  obtain ⟨last, hlast, hl⟩ := MatchingEngine.apply_refines.run hlive (cmds.drop ((n - 8) / 40))
  obtain ⟨trades', hgo⟩ := hinv'.engine
  rw [hdone, hlast] at hgo
  cases hgo
  have hsplit := Machine.runT_append ListEngine.apply (.fresh stp risk none) (cmds.take ((n - 8) / 40))
    (cmds.drop ((n - 8) / 40))
  rw [List.take_append_drop] at hsplit
  rw [hl.observe, hw.observe, hsplit]
  rw [← hreplay]
  exact ListEngine.replay_logging _ next (cmds.drop ((n - 8) / 40))

/-- The first of two commands is handed over and applied, and the process stops. -/
def crashActs : List PipelineAct :=
  [.queue (.pushTail (.makeSubmit 1 1 .buy 100 10)), .queue (.pushHead 0), .queue .construct, .queue .publishTail,
    .queue .popHead, .queue (.popTail 1), .queue .moveOut, .queue .publishHead, .apply]

theorem crashActs_applied :
    ((fresh .cancelResting 4 none (some .little)).bind fun live₀ =>
      (Machine.run step (start 2 live₀ [.makeSubmit 1 1 .buy 100 10, .makeCancel 1]) crashActs).map fun r =>
        r.2.filterMap id) = some [.makeSubmit 1 1 .buy 100 10] := by
  decide +kernel

/-- Two commands over a queue of two, with a crash after the first of them; the engine that is recovered is sent
the other one. -/
theorem crash_resume_two :
    ∃ live₀ e₀ whole trades s outs log e acts' s' outs', fresh .cancelResting 4 none (some .little) = some live₀ ∧
      fresh .cancelResting 4 none none = some e₀ ∧
      Machine.run apply e₀ [.makeSubmit 1 1 .buy 100 10, .makeCancel 1] = some (whole, trades) ∧
      Machine.run step (start 2 live₀ [.makeSubmit 1 1 .buy 100 10, .makeCancel 1]) crashActs = some (s, outs) ∧
      s.engine.log = some log ∧ log.out.length = 48 ∧
      replayLog .little "log.bin" (some (log.out.take 48)) e₀ = .ok (some e) ∧
      Machine.run step (start 2 { e with toControls := e.enableLogging none } [.makeCancel 1]) acts' =
        some (s', outs') ∧
      s'.loop = .exited ∧ s'.engine.observe = whole.observe := by
  obtain ⟨live₀, e₀, whole, trades, hr, hre, hwhole, hcrash⟩ := crash_resume 2 2 .cancelResting 4 none .little
    "log.bin" none [.makeSubmit 1 1 .buy 100 10, .makeCancel 1] (by decide)
  have happlied := crashActs_applied
  rw [hr, Option.bind_some] at happlied
  obtain ⟨⟨s, outs⟩, hacts, houts⟩ := Option.map_eq_some_iff.1 happlied
  have hone : outs.filterMap id = [.makeSubmit 1 1 .buy 100 10] := houts
  obtain ⟨log, hlog, hlen, -, hcut⟩ := hcrash crashActs s outs hacts
  rw [hone] at hlen
  obtain ⟨-, e, hrep, -, hgo, hcompletes⟩ := hcut 48 (by decide) (Nat.le_of_eq hlen.symm)
  obtain ⟨acts', s', outs', hacts', hexit⟩ := hcompletes (by decide)
  exact ⟨live₀, e₀, whole, trades, s, outs, log, e, acts', s', outs', hr, hre, hwhole, hacts, hlog, hlen, hrep, hacts',
    hexit, hgo acts' s' outs' hacts' hexit⟩

end Pipeline

end Obe
