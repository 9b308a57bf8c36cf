/-
Recovery over many sessions. Each one starts a fresh engine, replays the journals of the sessions
before it, opens a journal of its own and dies at some point, which leaves the journal cut at any
length that holds the header. Whatever is lost, the recovered engine is the one that was given what
the journals hold, and journals replayed under a new one are merged into it.
-/
import OrderBookEngine.Engine.Replay

namespace Obe

open Bytes (ByteOrder)

/-- A session: the path of its journal, the commands it applies, and how many bytes of the journal
outlive it, the header among them. -/
structure Session where
  path : String
  cmds : List Command
  kept : Nat
  header : 8 ≤ kept

/-- A session of three commands of which one outlives it, with a part of the next. -/
def tornSession : Session :=
  { path := "monday.bin"
    cmds := [.makeSubmit 1 1 .sell 100 5, .makeSubmit 2 1 .buy 99 5, .makeCancel 1]
    kept := 60
    header := by decide }

def nextSession : Session :=
  { path := "tuesday.bin"
    cmds := [.makeSubmit 3 2 .buy 100 3]
    kept := 8
    header := by decide }

/-- The commands whose records outlive the session. -/
def Session.durable (s : Session) : List Command :=
  (s.cmds.filter isEvent).take ((s.kept - 8) / EventLogWriter.kRecordSize)

/-- What the paths name. -/
abbrev Disk := String → Option (List UInt8)

/-- What a session shows: the engine it recovered, and the engine when it died. -/
structure SessionLog where
  recovered : EngineObservation
  died : EngineObservation

namespace MatchingEngine

/-- The journals at some paths, replayed one after the other. -/
def recover (host : ByteOrder) (disk : Disk) : List String → MatchingEngine → Except String (Option MatchingEngine)
  | [], e => .ok (some e)
  | path :: paths, e => (replayLog host path (disk path) e).bind fun
    | some e => recover host disk paths e
    | none => .ok none

/-- A session over a disk and the paths of the journals on it, for an engine constructed as `e₀`;
`none` when a journal cannot be read or a call does not return. -/
def session (host : ByteOrder) (e₀ : MatchingEngine) (d : Disk × List String) (s : Session) :
    Option ((Disk × List String) × SessionLog) :=
  match recover host d.1 d.2 e₀ with
  | .ok (some e) =>
    (Machine.run apply { e with toControls := e.enableLogging (some host) } s.cmds).bind fun r =>
      r.1.log.map fun log =>
        ((Function.update d.1 s.path (some (log.out.take s.kept)), d.2 ++ [s.path]), ⟨e.observe, r.1.observe⟩)
  | _ => none

end MatchingEngine

/-! ## The journals of the sessions before -/

/-- A path names a journal of some commands. -/
def Disk.Holds (host : ByteOrder) (disk : Disk) (path : String) (cmds : List Command) : Prop :=
  readEventLog host path (disk path) = .ok cmds ∧ ∀ c ∈ cmds, isEvent c = true

section

variable {host : ByteOrder} {disk : Disk} {path : String} {paths : List String} {cmds : List Command}
  {parts : List (List Command)} {e : MatchingEngine} {r : ListEngine}

/-- What is written elsewhere does not matter. -/
theorem Disk.Holds.update (h : disk.Holds host path cmds) {path' : String} (hne : path ≠ path')
    (bytes : Option (List UInt8)) : Disk.Holds host (Function.update disk path' bytes) path cmds := by
  unfold Disk.Holds
  rw [Function.update_of_ne hne]
  exact h

/-- A journal that is not cut holds its events. -/
theorem readEventLog_journal (host : ByteOrder) (path : String) (cmds : List Command) :
    readEventLog host path (some (cmds.foldl EventLogWriter.append (.create host)).out) =
      .ok (cmds.filter isEvent) := by
  have hout := (append_out (.create host) cmds).2
  have hlen := journal_length host cmds
  have hread := readEventLog_take host path (cmds.filter isEvent)
    (n := 8 + (cmds.filter isEvent).length * EventLogWriter.kRecordSize) (Nat.le_add_right ..) (Nat.le_refl _)
  rw [Nat.add_sub_cancel_left, Nat.mul_div_cancel _ (by decide), List.take_length] at hread
  rw [← hlen, hout] at hread
  rw [hout]
  refine Eq.trans ?_ hread
  congr 2
  exact (List.take_length (l := _)).symm

/-- A journal cut behind its header holds the events whose records are complete. -/
theorem readEventLog_cut (host : ByteOrder) (path : String) (s : Session) :
    readEventLog host path (some ((s.cmds.foldl EventLogWriter.append (.create host)).out.take s.kept)) =
      .ok s.durable := by
  have hlen := journal_length host s.cmds
  by_cases hn : s.kept ≤ 8 + (s.cmds.filter isEvent).length * EventLogWriter.kRecordSize
  · rw [(append_out (.create host) s.cmds).2]
    exact readEventLog_take host path (s.cmds.filter isEvent) s.header hn
  · -- nothing is lost
    have hdurable : s.durable = s.cmds.filter isEvent := by
      apply List.take_of_length_le
      unfold EventLogWriter.kRecordSize at hn ⊢
      omega
    rw [hdurable, List.take_of_length_le (by rw [hlen]; omega)]
    exact readEventLog_journal host path s.cmds

theorem Session.isEvent_of_mem_durable {s : Session} {c : Command} (h : c ∈ s.durable) : isEvent c = true :=
  (List.mem_filter.1 (List.mem_of_mem_take h)).2

/-- A new journal, beside those that are there. -/
theorem Disk.Holds.write (s : Session) (h : List.Forall₂ (disk.Holds host) paths parts) (hnew : s.path ∉ paths) :
    List.Forall₂
      (Disk.Holds host (Function.update disk s.path
        (some ((s.cmds.foldl EventLogWriter.append (.create host)).out.take s.kept))))
      (paths ++ [s.path]) (parts ++ [s.durable]) := by
  apply List.rel_append
  · refine List.forall₂_iff_get.2 ⟨h.length_eq, fun i h1 h2 => ?_⟩
    apply Disk.Holds.update (h.get h1 h2)
    intro he
    exact hnew (he ▸ List.get_mem ..)
  · refine .cons ⟨?_, fun c hc => s.isEvent_of_mem_durable hc⟩ .nil
    rw [Function.update_self]
    exact readEventLog_cut host s.path s

/-! ## Recovery -/

theorem ListEngine.replay_append (r : ListEngine) (cmds cmds' : List Command) :
    r.replay (cmds ++ cmds') = (r.replay cmds).replay cmds' := by
  unfold replay
  rw [Machine.runT_append]

/-- Replaying journals applies all that they hold, in order. -/
theorem MatchingEngine.recover_spec (h : e.Represents r) (hd : List.Forall₂ (disk.Holds host) paths parts) :
    ∃ e', recover host disk paths e = .ok (some e') ∧ e'.Represents (r.replay parts.flatten) := by
  induction hd generalizing e r with
  | nil => exact ⟨e, rfl, h⟩
  | @cons path cmds paths parts hfile _ ih =>
    obtain ⟨e₁, hrep, h₁⟩ := replay_refines h cmds
    obtain ⟨e', hrec, h'⟩ := ih h₁
    refine ⟨e', ?_, ?_⟩
    · have hlog : replayLog host path (disk path) e = .ok (some e₁) := by
        rw [replayLog, hfile.1]
        exact congrArg Except.ok hrep
      show (replayLog host path (disk path) e).bind _ = _
      rw [hlog]
      exact hrec
    · rw [List.flatten_cons, ListEngine.replay_append]
      exact h'

namespace ListEngine

/-- The same session over what the journals hold. -/
def session (r₀ : ListEngine) (durable : List Command) (s : Session) : List Command × SessionLog :=
  (durable ++ s.durable, ⟨(r₀.replay durable).observe, (r₀.replay (durable ++ s.cmds)).observe⟩)

theorem session_fst (r₀ : ListEngine) (durable : List Command) (sessions : List Session) :
    (Machine.runT r₀.session durable sessions).1 = durable ++ sessions.flatMap Session.durable := by
  induction sessions generalizing durable with
  | nil => exact (List.append_nil _).symm
  | cons s sessions ih =>
    show (Machine.runT r₀.session (durable ++ s.durable) sessions).1 = _
    rw [ih, List.flatMap_cons, List.append_assoc]

end ListEngine

end

/-- Over a disk that holds journals of `parts`, a session does what it does over `parts`. -/
theorem MatchingEngine.session_spec {host : ByteOrder} {disk : Disk} {paths : List String}
    {parts : List (List Command)} {e₀ : MatchingEngine} {r₀ : ListEngine} (h : e₀.Represents r₀)
    (hd : List.Forall₂ (disk.Holds host) paths parts) (s : Session) (hnew : s.path ∉ paths) :
    ∃ disk', session host e₀ (disk, paths) s = some ((disk', paths ++ [s.path]), (r₀.session parts.flatten s).2) ∧
      List.Forall₂ (disk'.Holds host) (paths ++ [s.path]) (parts ++ [s.durable]) := by
  obtain ⟨e, hrec, he⟩ := recover_spec h hd
  have hlive : { e with toControls := e.enableLogging (some host) : MatchingEngine }.Represents
      { r₀.replay parts.flatten with toControls := (r₀.replay parts.flatten).enableLogging (some host) } :=
    ⟨congrArg (·.enableLogging (some host)) he.controls, he.book⟩
  obtain ⟨live, hrun, hl⟩ := apply_refines.run hlive s.cmds
  have hout : live.log = some (s.cmds.foldl EventLogWriter.append (.create host)) :=
    (congrArg Controls.log hl.controls).trans (ListEngine.run_log _ s.cmds)
  have hdied : live.observe = (r₀.replay (parts.flatten ++ s.cmds)).observe := by
    rw [hl.observe, ListEngine.replay_append]
    exact ListEngine.replay_logging _ _ s.cmds
  refine ⟨_, ?_, Disk.Holds.write s hd hnew⟩
  unfold session
  dsimp only
  rw [hrec]
  dsimp only
  rw [hrun, Option.bind_some]
  dsimp only
  rw [hout, Option.map_some, he.observe, hdied]
  rfl

/-- The run lemma: sessions with journals of their own, over a disk that holds some already. -/
theorem MatchingEngine.sessions_run (host : ByteOrder) {disk : Disk} {paths : List String}
    {parts : List (List Command)} {e₀ : MatchingEngine} {r₀ : ListEngine} (h : e₀.Represents r₀)
    (hd : List.Forall₂ (disk.Holds host) paths parts) (sessions : List Session)
    (hpaths : (paths ++ sessions.map Session.path).Nodup) :
    ∃ disk' parts', Machine.run (session host e₀) (disk, paths) sessions =
        some ((disk', paths ++ sessions.map Session.path), (Machine.runT r₀.session parts.flatten sessions).2) ∧
      List.Forall₂ (disk'.Holds host) (paths ++ sessions.map Session.path) parts' ∧
      parts'.flatten = (Machine.runT r₀.session parts.flatten sessions).1 := by
  induction sessions generalizing disk paths parts with
  | nil =>
    rw [List.map_nil, List.append_nil]
    exact ⟨disk, parts, rfl, hd, rfl⟩
  | cons s sessions ih =>
    have hnew : s.path ∉ paths := by
      rw [List.map_cons, List.nodup_append] at hpaths
      exact fun hm => hpaths.2.2 s.path hm s.path (List.mem_cons_self ..) rfl
    obtain ⟨disk₁, hstep, hd₁⟩ := session_spec h hd s hnew
    have hcons : paths ++ (s :: sessions).map Session.path = paths ++ [s.path] ++ sessions.map Session.path := by
      rw [List.map_cons, List.append_assoc]; rfl
    rw [hcons] at hpaths ⊢
    obtain ⟨disk', parts', hrun, hd', hflat⟩ := ih hd₁ hpaths
    have hparts : (parts ++ [s.durable]).flatten = (r₀.session parts.flatten s).1 := by
      rw [List.flatten_append, List.flatten_singleton]; rfl
    rw [hparts] at hrun hflat
    refine ⟨disk', parts', ?_, hd', hflat⟩
    rw [Machine.run_cons _ hstep, hrun]
    rfl

namespace MatchingEngine

/-- **Recovery over any number of sessions.** Each session, of engines configured alike and with a
journal of its own, recovers what an uninterrupted run of the commands that outlived the sessions
before it comes to, and goes on as that run does. -/
theorem sessions_recover (stp : SelfTradePolicy) (poolCapacity : UInt64) (risk : Option RiskConfig) (host : ByteOrder)
    (sessions : List Session) (hpaths : (sessions.map Session.path).Nodup) :
    ∃ e₀ disk logs, fresh stp poolCapacity risk none = some e₀ ∧
      Machine.run (session host e₀) (fun _ => none, []) sessions =
        some ((disk, sessions.map Session.path), logs) ∧
      ∀ before s after, sessions = before ++ s :: after → ∃ shown, logs[before.length]? = some shown ∧
        (∃ e outs, Machine.run apply e₀ (before.flatMap Session.durable) = some (e, outs) ∧
          shown.recovered = e.observe) ∧
        ∃ e outs, Machine.run apply e₀ (before.flatMap Session.durable ++ s.cmds) = some (e, outs) ∧
          shown.died = e.observe := by
  obtain ⟨e₀, hr, h₀⟩ := fresh_spec stp poolCapacity risk none
  obtain ⟨disk, parts, hrun, -⟩ := sessions_run host h₀ .nil sessions hpaths
  refine ⟨e₀, disk, _, hr, hrun, ?_⟩
  rintro before s after rfl
  have hbefore := ListEngine.session_fst (.fresh stp risk none) [] before
  rw [List.nil_append] at hbefore
  refine ⟨((ListEngine.fresh stp risk none).session (before.flatMap Session.durable) s).2, ?_, ?_, ?_⟩
  · have hlen := Machine.runT_length (ListEngine.fresh stp risk none).session [] before
    rw [List.flatten_nil, Machine.runT_append, hbefore, List.getElem?_append_right (Nat.le_of_eq hlen), hlen,
      Nat.sub_self]
    rfl
  · obtain ⟨e, hrun', he⟩ := apply_refines.run h₀ (before.flatMap Session.durable)
    exact ⟨e, _, hrun', he.observe.symm⟩
  · obtain ⟨e, hrun', he⟩ := apply_refines.run h₀ (before.flatMap Session.durable ++ s.cmds)
    exact ⟨e, _, hrun', he.observe.symm⟩

/-- Two sessions: the first loses the record of its second command, which is torn. -/
theorem sessions_recover_two :
    ∃ e₀ disk logs, fresh .cancelResting 16 none none = some e₀ ∧
      Machine.run (session .little e₀) (fun _ => none, []) [tornSession, nextSession] =
        some ((disk, ["monday.bin", "tuesday.bin"]), logs) ∧
      ∃ shown, logs[1]? = some shown ∧
        (∃ e outs, Machine.run apply e₀ [.makeSubmit 1 1 .sell 100 5] = some (e, outs) ∧
          shown.recovered = e.observe) ∧
        ∃ e outs, Machine.run apply e₀ [.makeSubmit 1 1 .sell 100 5, .makeSubmit 3 2 .buy 100 3] = some (e, outs) ∧
          shown.died = e.observe := by
  obtain ⟨e₀, disk, logs, hr, hrun, hshown⟩ := sessions_recover .cancelResting 16 none .little
    [tornSession, nextSession] (by decide)
  exact ⟨e₀, disk, logs, hr, hrun, hshown [tornSession] nextSession [] rfl⟩

/-- **Journals are merged by replaying them under a new one.** An engine that logs while it recovers
writes the journal of one uninterrupted session of the commands that outlived, and its replay
recovers what the old journals do. -/
theorem recover_merges (stp : SelfTradePolicy) (poolCapacity : UInt64) (risk : Option RiskConfig) (host : ByteOrder)
    (path : String) (sessions : List Session) (hpaths : (sessions.map Session.path).Nodup) :
    ∃ e₀ live₀ disk paths logs, fresh stp poolCapacity risk none = some e₀ ∧
      fresh stp poolCapacity risk (some host) = some live₀ ∧
      Machine.run (session host e₀) (fun _ => none, []) sessions = some ((disk, paths), logs) ∧
      ∃ live log e e', recover host disk paths live₀ = .ok (some live) ∧ live.log = some log ∧
        log.out = ((sessions.flatMap Session.durable).foldl EventLogWriter.append (.create host)).out ∧
        replayLog host path (some log.out) e₀ = .ok (some e) ∧ recover host disk paths e₀ = .ok (some e') ∧
        e.observe = e'.observe ∧ live.observe = e'.observe := by
  obtain ⟨e₀, hr, h₀⟩ := fresh_spec stp poolCapacity risk none
  obtain ⟨live₀, hrl, hl₀⟩ := fresh_spec stp poolCapacity risk (some host)
  obtain ⟨disk, parts, hrun, hd, hparts⟩ :=
    sessions_run host h₀ .nil sessions hpaths
  rw [List.flatten_nil, ListEngine.session_fst, List.nil_append] at hparts
  obtain ⟨live, hlive, hl⟩ := recover_spec hl₀ hd
  obtain ⟨e', hrec, he'⟩ := recover_spec h₀ hd
  rw [hparts] at hl he'
  have hout : live.log = some ((sessions.flatMap Session.durable).foldl EventLogWriter.append (.create host)) := by
    have := ListEngine.run_log (.fresh stp risk (some host)) (sessions.flatMap Session.durable)
    rw [fresh_log] at this
    exact (congrArg Controls.log hl.controls).trans this
  have hevents : (sessions.flatMap Session.durable).filter isEvent = sessions.flatMap Session.durable := by
    apply List.filter_eq_self.2
    intro c hc
    obtain ⟨s, -, hs⟩ := List.mem_flatMap.1 hc
    exact s.isEvent_of_mem_durable hs
  have hread := readEventLog_journal host path (sessions.flatMap Session.durable)
  rw [hevents] at hread
  obtain ⟨e, hrep, he⟩ := replay_refines h₀ (sessions.flatMap Session.durable)
  have hlive_observe := ListEngine.replay_observe (.fresh stp risk (some host)) (sessions.flatMap Session.durable)
  rw [← fresh_unlogged] at hlive_observe
  refine ⟨e₀, live₀, disk, _, _, hr, hrl, hrun, live, _, e, e', hlive, hout, rfl, ?_, hrec, ?_, ?_⟩
  · rw [replayLog, hread]
    exact congrArg Except.ok hrep
  · rw [he.observe, he'.observe]
  · rw [hl.observe, he'.observe, hlive_observe]

/-- The journals of the two sessions above, under a third. -/
theorem recover_merges_two :
    ∃ e₀ live₀ disk paths logs, fresh .cancelResting 16 none none = some e₀ ∧
      fresh .cancelResting 16 none (some .little) = some live₀ ∧
      Machine.run (session .little e₀) (fun _ => none, []) [tornSession, nextSession] = some ((disk, paths), logs) ∧
      ∃ live log e e', recover .little disk paths live₀ = .ok (some live) ∧ live.log = some log ∧
        log.out = (EventLogWriter.create .little |>.append (.makeSubmit 1 1 .sell 100 5)).out ∧
        replayLog .little "merged.bin" (some log.out) e₀ = .ok (some e) ∧
        recover .little disk paths e₀ = .ok (some e') ∧ e.observe = e'.observe ∧ live.observe = e'.observe :=
  recover_merges .cancelResting 16 none .little "merged.bin" [tornSession, nextSession] (by decide)

end MatchingEngine

end Obe
