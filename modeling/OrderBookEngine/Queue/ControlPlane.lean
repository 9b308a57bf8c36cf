/-
The pipeline under supervision: while the producer and the consumer run, other threads turn the kill
switch of the gate and read the counters of `stats()` and `metrics()`. A load of an atomic returns a
value that is not older than the last one its thread read of it, and need not be the newest. What
comes of it is always what one thread would have got that turned the switch between two commands.
-/
import OrderBookEngine.Engine.Gate
import OrderBookEngine.Queue.Pipeline

namespace Obe

open Bytes (ByteOrder)

/-! ## The threads -/

/-- The atomic counters that `stats()` and `metrics()` load, one by one. -/
inductive Counter
  | commands
  | submits
  | cancels
  | trades
  | accepted
  | maxOrderSize
  | maxNotional
  | priceCollar
  | killSwitch
  | duplicate
  deriving DecidableEq, Repr

/-- The value of a counter; without a gate there are no counters of its verdicts. -/
def MatchingEngine.counter (e : MatchingEngine) : Counter → Option UInt64
  | .commands => some e.stats.commands
  | .submits => some e.stats.submits
  | .cancels => some e.stats.cancels
  | .trades => some e.stats.trades
  | .accepted => e.risk.map (·.metrics.accepted)
  | .maxOrderSize => e.risk.map (·.metrics.maxOrderSize)
  | .maxNotional => e.risk.map (·.metrics.maxNotional)
  | .priceCollar => e.risk.map (·.metrics.priceCollar)
  | .killSwitch => e.risk.map (·.metrics.killSwitch)
  | .duplicate => e.risk.map (·.metrics.duplicate)

/-- The engine with the value of the kill switch that its next check works with. -/
def MatchingEngine.withSwitch (e : MatchingEngine) (on : Bool) : MatchingEngine :=
  { e with toControls := e.toControls.engageKillSwitch on }

/-- `switches` are the values the kill switch was given and `switchRead` is the place of the one the
consumer last read; `counters` holds the counters after each command applied, and `counterRead` the
places that the monitoring threads, named by `ι`, last read of them. -/
structure ControlPlane (ι : Type) where
  pipeline : Pipeline
  switches : List Bool
  switchRead : Nat
  counters : List (Counter → Option UInt64)
  counterRead : ι → Counter → Nat

/-- A step of the queue, the consumer's work on a command, a store to the kill switch, or a load of a
counter. A load names the place it reads. The increments of one command are published together: a
load that sees the first of them and not the second one is a load that reads an older place. -/
inductive ControlAct (ι : Type)
  | queue (act : SpscAct Command)
  | apply (place : Nat)
  | engageKillSwitch (on : Bool)
  | load (monitor : ι) (counter : Counter) (place : Nat)
  deriving DecidableEq, Repr

inductive ControlRet
  | applied (cmd : Command)
  | loaded (value : UInt64)
  deriving DecidableEq, Repr

namespace ControlPlane

variable {ι : Type}

def start (queueCapacity : UInt64) (engine : MatchingEngine) (cmds : List Command) : ControlPlane ι :=
  { pipeline := .start queueCapacity engine cmds, switches := [false], switchRead := 0, counters := [engine.counter],
    counterRead := fun _ _ => 0 }

/-- The command in hand is one that the gate checks. -/
def checks (s : ControlPlane ι) : Bool :=
  match s.pipeline.loop with
  | .received cmd => cmd.type = .submit && s.pipeline.engine.risk.isSome
  | _ => false

/-- The load at the top of `check`. -/
def loadSwitch (s : ControlPlane ι) (place : Nat) : Option (ControlPlane ι) :=
  if s.checks then
    if s.switchRead ≤ place then
      s.switches[place]?.map fun on =>
        { s with switchRead := place, pipeline := { s.pipeline with engine := s.pipeline.engine.withSwitch on } }
    else none
  else some s

/-- The consumer's work on the command it received. -/
def work (s : ControlPlane ι) : Option (ControlPlane ι × Option ControlRet) :=
  (s.pipeline.step .apply).map fun r =>
    ({ s with pipeline := r.1, counters := s.counters ++ (r.2.map fun _ => r.1.engine.counter).toList },
      r.2.map .applied)

/-- A monitoring thread has read a counter at a place. -/
def noted [DecidableEq ι] (s : ControlPlane ι) (monitor : ι) (counter : Counter) (place : Nat) : ControlPlane ι :=
  let read := Function.update (s.counterRead monitor) counter place
  { s with counterRead := Function.update s.counterRead monitor read }

def step [DecidableEq ι] (s : ControlPlane ι) : ControlAct ι → Option (ControlPlane ι × Option ControlRet)
  | .queue act => (s.pipeline.step (.queue act)).map fun r => ({ s with pipeline := r.1 }, none)
  | .apply place => (s.loadSwitch place).bind work
  | .engageKillSwitch on =>
    if s.pipeline.engine.risk.isSome then some ({ s with switches := s.switches ++ [on] }, none) else none
  | .load monitor counter place =>
    if s.counterRead monitor counter ≤ place then
      (s.counters[place]?.bind (· counter)).map fun value => (s.noted monitor counter place, some (.loaded value))
    else none

end ControlPlane

/-! ## Schedules -/

/-- A command, and the stores to the kill switch that come before it. -/
abbrev Round := List Bool × Command

def Round.calls (r : Round) : List EngineCall := r.1.map .engageKillSwitch ++ [.apply r.2]

/-- The calls of one thread. -/
def scheduled (rounds : List Round) : List EngineCall := rounds.flatMap Round.calls

section Schedule

variable {e : MatchingEngine} {on : Bool}

@[simp] theorem MatchingEngine.withSwitch_withSwitch (e : MatchingEngine) (on on' : Bool) :
    (e.withSwitch on).withSwitch on' = e.withSwitch on' := by
  obtain ⟨⟨risk, log, stats⟩, book⟩ := e
  cases risk <;> rfl

/-- The switch of the gate, where there is one. -/
def MatchingEngine.Switched (e : MatchingEngine) (on : Bool) : Prop := ∀ m, e.risk = some m → m.killSwitch = on

theorem MatchingEngine.withSwitch_switched (e : MatchingEngine) (on : Bool) : (e.withSwitch on).Switched on := by
  intro m hm
  obtain ⟨m', -, rfl⟩ := Option.map_eq_some_iff.1 hm
  rfl

theorem MatchingEngine.Switched.withSwitch (h : e.Switched on) : e.withSwitch on = e := by
  obtain ⟨⟨risk, log, stats⟩, book⟩ := e
  cases risk with
  | none => rfl
  | some m =>
    have hm : m.killSwitch = on := h m rfl
    obtain ⟨cfg, killSwitch, seenIds, metrics⟩ := m
    cases hm
    rfl

/-- Of several stores the last one counts. -/
theorem run_switches (h : e.Switched on) (ons : List Bool) :
    ∃ outs, Machine.run MatchingEngine.call e (ons.map .engageKillSwitch) =
      some (e.withSwitch ((on :: ons).getLast (List.cons_ne_nil _ _)), outs) := by
  induction ons generalizing e on with
  | nil => exact ⟨[], by rw [List.map_nil, Machine.run, List.getLast_singleton, h.withSwitch]⟩
  | cons on' ons ih =>
    obtain ⟨outs, hrun⟩ := ih (e.withSwitch_switched on')
    have hcall : e.call (.engageKillSwitch on') = some (e.withSwitch on', 0) := rfl
    refine ⟨0 :: outs, ?_⟩
    rw [List.map_cons, Machine.run_cons _ hcall, hrun, List.getLast_cons (List.cons_ne_nil _ _),
      MatchingEngine.withSwitch_withSwitch]
    rfl

theorem RiskManager.check_killSwitch (m : RiskManager) (id : OrderId) (side : Side) (price : Price) (qty : Quantity)
    (reference : Option Price) : (m.check id side price qty reference).1.killSwitch = m.killSwitch := by
  rcases m.check_cases id side price qty reference with ⟨-, h⟩ | ⟨-, -, reason, -, h⟩ | ⟨-, -, h⟩ <;> rw [h] <;> rfl

/-- A command leaves the switch alone. -/
theorem MatchingEngine.Switched.apply (h : e.Switched on) {cmd : Command} {e' : MatchingEngine} {n : Nat}
    (ha : e.apply cmd = some (e', n)) : e'.Switched on := by
  have hjournal : ∀ m, (e.toControls.journal cmd).risk = some m → m.killSwitch = on := by
    intro m hm
    rw [Controls.journal_risk] at hm
    exact h m hm
  have hcheck : ∀ m, ((e.toControls.journal cmd).check cmd (e.reference cmd)).1.risk = some m → m.killSwitch = on := by
    intro m hm
    unfold Controls.check at hm
    split at hm
    · exact hjournal m hm
    · rename_i risk hrisk
      cases hm
      rw [RiskManager.check_killSwitch]
      exact hjournal risk hrisk
  unfold MatchingEngine.apply at ha
  dsimp only at ha
  split at ha
  · split at ha
    · cases ha
      exact hcheck
    · obtain ⟨r, -, he⟩ := Option.map_eq_some_iff.1 ha
      cases he
      exact hcheck
  · split at ha
    · obtain ⟨r, -, he⟩ := Option.map_eq_some_iff.1 ha
      cases he
      exact hjournal
    · cases ha
      exact hjournal

theorem scheduled_append (rounds rounds' : List Round) :
    scheduled (rounds ++ rounds') = scheduled rounds ++ scheduled rounds' := List.flatMap_append ..

/-- After the commands of some rounds a counter has a value. -/
def ValueAfter (e₀ : MatchingEngine) (rounds : List Round) (counter : Counter) (value : UInt64) : Prop :=
  ∃ e outs, Machine.run MatchingEngine.call e₀ (scheduled rounds) = some (e, outs) ∧ e.counter counter = some value

end Schedule

/-! ## Steps of the pipeline -/

namespace Pipeline

variable {s s' : Pipeline} {r : Option Command}

/-- The queue does not see the engine. -/
theorem step_queue {act : SpscAct Command} (h : s.step (.queue act) = some (s', r)) (e : MatchingEngine) :
    r = none ∧ s'.engine = s.engine ∧
      ({ s with engine := e } : Pipeline).step (.queue act) = some ({ s' with engine := e }, none) := by
  simp only [step] at h ⊢
  split at h
  · rename_i ha
    rw [if_pos ha]
    split at h
    · obtain ⟨q, hq, he⟩ := Option.map_eq_some_iff.1 h
      cases he
      exact ⟨rfl, rfl, by simp only [hq, Option.map_some]⟩
    · cases h
  · rename_i ha
    rw [if_neg ha]
    split at h
    · rename_i hb
      obtain ⟨q, hq, he⟩ := Option.map_eq_some_iff.1 h
      cases he
      exact ⟨rfl, rfl, by simp only [hb, if_true, hq, Option.map_some]⟩
    · cases h

/-- The consumer leaves its loop at the sentinel and applies anything else. -/
theorem step_apply (h : s.step .apply = some (s', r)) : ∃ cmd, s.loop = .received cmd ∧
    ((cmd.type = .shutdown ∧ s' = { s with loop := .exited } ∧ r = none) ∨
      (cmd.type ≠ .shutdown ∧ ∃ e n, s.engine.apply cmd = some (e, n) ∧ s' = { s with engine := e, loop := .popping } ∧
        r = some cmd)) := by
  simp only [step] at h
  split at h
  · rename_i cmd hloop
    split at h
    · rename_i hcmd
      cases h
      exact ⟨cmd, hloop, .inl ⟨hcmd, rfl, rfl⟩⟩
    · rename_i hcmd
      obtain ⟨⟨e, n⟩, ha, he⟩ := Option.map_eq_some_iff.1 h
      cases he
      exact ⟨cmd, hloop, .inr ⟨hcmd, e, n, ha, rfl, rfl⟩⟩
  · cases h

end Pipeline

namespace ControlPlane

variable {ι : Type} {s s' : ControlPlane ι}

/-! ## The load of the kill switch -/

section Stores

variable {α : Type} {l : List α} {a b : ℕ} {x : α}

/-- What was stored up to a place, and from there up to another. -/
theorem stores_append (hab : a ≤ b) (ha : a < l.length) :
    (l.take (a + 1)).drop 1 ++ (l.take (b + 1)).drop (a + 1) = (l.take (b + 1)).drop 1 := by
  have htake : l.take (a + 1) = (l.take (b + 1)).take (a + 1) := by rw [List.take_take, Nat.min_eq_left (by omega)]
  have hlen : 1 ≤ ((l.take (b + 1)).take (a + 1)).length := by
    rw [List.length_take, List.length_take]
    omega
  rw [htake, ← List.drop_append_of_le_length hlen, List.take_append_drop]

/-- The last value stored, counting from a place on, is the value at the other place. -/
theorem stores_last {y : α} (hab : a ≤ b) (hx : l[a]? = some x) (hy : l[b]? = some y) :
    (x :: (l.take (b + 1)).drop (a + 1)).getLast (List.cons_ne_nil _ _) = y := by
  obtain ⟨ha, rfl⟩ := List.getElem?_eq_some_iff.1 hx
  obtain ⟨hb, rfl⟩ := List.getElem?_eq_some_iff.1 hy
  have hlen : a < (l.take (b + 1)).length := by
    rw [List.length_take]
    omega
  have hcons : l[a] :: (l.take (b + 1)).drop (a + 1) = (l.take (b + 1)).drop a := by
    rw [List.drop_eq_getElem_cons hlen, List.getElem_take]
  rw [List.getLast_eq_getElem]
  simp only [hcons, List.getElem_drop, List.getElem_take, List.length_drop, List.length_take]
  congr 1
  omega

end Stores

/-- The pipeline of an engine `e₀` and a producer of `list`, after some rounds. The pipeline's own
invariant is about the commands alone, so it is kept for an engine whose switch nobody turns. -/
structure Inv (e₀ : MatchingEngine) (list : List Command) (s : ControlPlane ι) (rounds : List Round) : Prop where
  queue : ∃ shadow, Pipeline.Inv e₀ list { s.pipeline with engine := shadow } (rounds.map (·.2))
  engine : ∃ outs, Machine.run MatchingEngine.call e₀ (scheduled rounds) = some (s.pipeline.engine, outs)
  stores : rounds.flatMap (·.1) = (s.switches.take (s.switchRead + 1)).drop 1
  switched : ∃ on, s.switches[s.switchRead]? = some on ∧ s.pipeline.engine.Switched on
  counted : s.counters.length = rounds.length + 1
  counters : ∀ place values counter value, s.counters[place]? = some values → values counter = some value →
    ValueAfter e₀ (rounds.take place) counter value

variable {e₀ : MatchingEngine} {list : List Command} {rounds : List Round}

/-- What the consumer has when its check loads the switch: the engine after the stores it has not
seen before. -/
structure Loaded (s t : ControlPlane ι) (ons : List Bool) : Prop where
  engine : ∃ outs, Machine.run MatchingEngine.call s.pipeline.engine (ons.map .engageKillSwitch) =
    some (t.pipeline.engine, outs)
  pipeline : t.pipeline = { s.pipeline with engine := t.pipeline.engine }
  stores : (s.switches.take (s.switchRead + 1)).drop 1 ++ ons = (t.switches.take (t.switchRead + 1)).drop 1
  switches : t.switches = s.switches
  switched : ∃ on, t.switches[t.switchRead]? = some on ∧ t.pipeline.engine.Switched on
  counters : t.counters = s.counters

theorem Inv.loadSwitch (h : Inv e₀ list s rounds) {t : ControlPlane ι} {place : Nat}
    (ht : s.loadSwitch place = some t) : ∃ ons, Loaded s t ons := by
  obtain ⟨on, hon, hsw⟩ := h.switched
  unfold ControlPlane.loadSwitch at ht
  split at ht
  · split at ht
    · rename_i hle
      obtain ⟨on', hon', rfl⟩ := Option.map_eq_some_iff.1 ht
      obtain ⟨hread, -⟩ := List.getElem?_eq_some_iff.1 hon
      obtain ⟨outs, hrun⟩ := run_switches hsw ((s.switches.take (place + 1)).drop (s.switchRead + 1))
      rw [stores_last hle hon hon'] at hrun
      exact ⟨_, ⟨outs, hrun⟩, rfl, stores_append hle hread, rfl, ⟨on', hon', s.pipeline.engine.withSwitch_switched on'⟩,
        rfl⟩
    · cases ht
  · -- nothing is loaded
    cases ht
    exact ⟨[], ⟨[], rfl⟩, rfl, List.append_nil _, rfl, ⟨on, hon, hsw⟩, rfl⟩

/-! ## The steps -/

theorem Inv.start (queueCapacity : UInt64) (stp : SelfTradePolicy) (risk : Option RiskConfig) (host : Option ByteOrder)
    {r : ListEngine} (hr : r = .fresh stp risk host) (h₀ : e₀.Represents r) (cmds : List Command) :
    Inv e₀ (cmds ++ [.makeShutdown]) (start queueCapacity e₀ cmds : ControlPlane ι) [] := by
  have hswitch : e₀.Switched false := by
    intro m hm
    rw [h₀.controls, hr] at hm
    cases risk with
    | none => cases host <;> cases hm
    | some cfg => cases host <;> (cases hm; rfl)
  constructor
  case queue => exact ⟨e₀, Pipeline.Inv.start queueCapacity e₀ cmds⟩
  case engine => exact ⟨[], rfl⟩
  case stores => rfl
  case switched => exact ⟨false, rfl, hswitch⟩
  case counted => rfl
  case counters =>
    intro place values counter value hv hc
    rcases place with _ | place
    · cases hv
      exact ⟨e₀, [], rfl, hc⟩
    · cases hv

/-- A step of the queue. -/
theorem Inv.enqueue (h : Inv e₀ list s rounds) {act : SpscAct Command} {p : Pipeline} {r : Option Command}
    (hs : s.pipeline.step (.queue act) = some (p, r)) : Inv e₀ list { s with pipeline := p } rounds := by
  obtain ⟨shadow, hq⟩ := h.queue
  obtain ⟨-, he, hswap⟩ := Pipeline.step_queue hs shadow
  have hq' := hq.step hswap
  rw [Option.toList_none, List.append_nil] at hq'
  constructor
  case queue => exact ⟨shadow, hq'⟩
  case engine => rw [he]; exact h.engine
  case stores => exact h.stores
  case switched => rw [he]; exact h.switched
  case counted => exact h.counted
  case counters => exact h.counters

/-- The sentinel ends the loop, whatever the switch. -/
theorem Inv.exit (h : Inv e₀ list s rounds) {cmd : Command} (hloop : s.pipeline.loop = .received cmd)
    (hcmd : cmd.type = .shutdown) :
    Inv e₀ list { s with pipeline := { s.pipeline with loop := .exited } } rounds := by
  obtain ⟨shadow, hq⟩ := h.queue
  exact { h with queue := ⟨shadow, hq.exit hloop hcmd⟩ }

/-- The command is the last of its round, behind the stores its check has seen. -/
theorem Inv.round (h : Inv e₀ list s rounds) {t : ControlPlane ι} {ons : List Bool} (hl : Loaded s t ons)
    {cmd : Command} {e : MatchingEngine} {n : Nat} (ha : t.pipeline.engine.apply cmd = some (e, n)) :
    ∃ outs, Machine.run MatchingEngine.call e₀ (scheduled (rounds ++ [(ons, cmd)])) = some (e, outs) := by
  obtain ⟨outs, hrun⟩ := h.engine
  obtain ⟨outs₁, hrun₁⟩ := hl.engine
  have happ : Machine.run MatchingEngine.call t.pipeline.engine [.apply cmd] = some (e, [n]) := by
    rw [Machine.run_cons _ (show t.pipeline.engine.call (.apply cmd) = some (e, n) from ha)]
    rfl
  refine ⟨outs ++ (outs₁ ++ [n]), ?_⟩
  rw [scheduled_append]
  refine Machine.run_append hrun ?_
  show Machine.run _ _ (Round.calls (ons, cmd) ++ []) = _
  rw [List.append_nil]
  exact Machine.run_append hrun₁ happ

/-- A command is applied after the stores its check has seen. -/
theorem Inv.apply (h : Inv e₀ list s rounds) {r₀ : ListEngine} (h₀ : e₀.Represents r₀) {t : ControlPlane ι}
    {ons : List Bool} (hl : Loaded s t ons) {cmd : Command} (hloop : s.pipeline.loop = .received cmd)
    (hcmd : cmd.type ≠ .shutdown) {e : MatchingEngine} {n : Nat} (ha : t.pipeline.engine.apply cmd = some (e, n)) :
    Inv e₀ list { t with pipeline := { t.pipeline with engine := e, loop := .popping },
                         counters := t.counters ++ [e.counter] } (rounds ++ [(ons, cmd)]) := by
  obtain ⟨shadow, hq⟩ := h.queue
  obtain ⟨on, hon, hsw⟩ := hl.switched
  obtain ⟨outs, hall⟩ := h.round hl ha
  constructor
  case queue =>
    -- the engine whose switch nobody turns applies the command as well
    obtain ⟨outs', hshadow⟩ := hq.engine
    obtain ⟨u, hu, hR⟩ := MatchingEngine.apply_refines.run h₀ (rounds.map (·.2))
    rw [hshadow] at hu
    cases hu
    obtain ⟨shadow', hstep, -⟩ := MatchingEngine.apply_refines _ _ cmd hR
    have hq' := hq.apply hloop hcmd hstep
    rw [hl.pipeline, List.map_append]
    exact ⟨shadow', hq'⟩
  case engine => exact ⟨_, hall⟩
  case stores =>
    rw [List.flatMap_append, h.stores]
    show _ ++ (ons ++ []) = _
    rw [List.append_nil]
    exact hl.stores
  case switched => exact ⟨on, hon, hsw.apply ha⟩
  case counted =>
    rw [hl.counters, List.length_append, List.length_append, h.counted]
    rfl
  case counters =>
    intro place values counter value hv hc
    rw [hl.counters] at hv
    by_cases hlt : place < s.counters.length
    · rw [List.getElem?_append_left hlt] at hv
      rw [List.take_append_of_le_length (by have := h.counted; omega)]
      exact h.counters place values counter value hv hc
    · rw [List.getElem?_append_right (by omega)] at hv
      obtain ⟨hz, rfl⟩ := List.getElem?_eq_some_iff.1 hv
      have hcounted := h.counted
      have hplace : place = (rounds ++ [(ons, cmd)]).length := by
        rw [List.length_append]
        simp only [List.length_singleton] at hz ⊢
        omega
      rw [hplace, List.take_length]
      refine ⟨e, _, hall, ?_⟩
      simpa using hc

/-! ## What a run stored and read -/

/-- What a monitoring thread read of a counter. -/
structure CounterReading (ι : Type) where
  monitor : ι
  counter : Counter
  place : Nat
  value : UInt64

def reading : ControlAct ι × Option ControlRet → Option (CounterReading ι)
  | (.load monitor counter place, some (.loaded value)) => some ⟨monitor, counter, place, value⟩
  | _ => none

/-- The loads of a run, in order. -/
def readings (acts : List (ControlAct ι)) (outs : List (Option ControlRet)) : List (CounterReading ι) :=
  (acts.zip outs).filterMap reading

def ControlAct.stored : ControlAct ι → Option Bool
  | .engageKillSwitch on => some on
  | _ => none

/-- The values stored to the kill switch, in order. -/
def stored (acts : List (ControlAct ι)) : List Bool := acts.filterMap ControlAct.stored

section Run

variable [DecidableEq ι] {a : ControlAct ι} {r : Option ControlRet} {r₀ : ListEngine} {acts : List (ControlAct ι)}
  {outs : List (Option ControlRet)}

/-- **One step of any thread**: at most one round is new, and what was read is the value after the
rounds the place stands for. -/
theorem Inv.step (h : Inv e₀ list s rounds) (h₀ : e₀.Represents r₀) (hs : s.step a = some (s', r)) :
    ∃ more, Inv e₀ list s' (rounds ++ more) ∧ s'.switches = s.switches ++ stored [a] ∧
      ∀ x, reading (a, r) = some x →
        x.place ≤ rounds.length ∧ ValueAfter e₀ (rounds.take x.place) x.counter x.value := by
  cases a with
  | queue act =>
    obtain ⟨⟨p, ret⟩, hp, he⟩ := Option.map_eq_some_iff.1 hs
    cases he
    refine ⟨[], by rw [List.append_nil]; exact h.enqueue hp, (List.append_nil _).symm, fun x hx => by cases hx⟩
  | apply place =>
    obtain ⟨t, ht, hw⟩ := Option.bind_eq_some_iff.1 hs
    obtain ⟨⟨p, ret⟩, hp, he⟩ := Option.map_eq_some_iff.1 hw
    cases he
    obtain ⟨ons, hl⟩ := h.loadSwitch ht
    obtain ⟨cmd, hloop, hcase⟩ := Pipeline.step_apply hp
    have hloop' : s.pipeline.loop = .received cmd := by
      rw [hl.pipeline] at hloop
      exact hloop
    have hstored : t.switches = s.switches ++ stored [ControlAct.apply (ι := ι) place] := by
      rw [hl.switches]
      exact (List.append_nil _).symm
    rcases hcase with ⟨hcmd, rfl, rfl⟩ | ⟨hcmd, e, n, ha, rfl, rfl⟩
    · -- the sentinel is not checked
      have hne : cmd.type ≠ .submit := by rw [hcmd]; decide
      have hno : s.checks = false := by simp [checks, hloop', hne]
      have hsame : t = s := by
        unfold ControlPlane.loadSwitch at ht
        rw [hno] at ht
        cases ht
        rfl
      subst hsame
      refine ⟨[], ?_, hstored, fun x hx => by cases hx⟩
      rw [List.append_nil]
      have hexit := h.exit hloop' hcmd
      simpa using hexit
    · exact ⟨[(ons, cmd)], h.apply h₀ hl hloop' hcmd ha, hstored, fun x hx => by cases hx⟩
  | engageKillSwitch on =>
    simp only [ControlPlane.step] at hs
    split at hs
    · cases hs
      obtain ⟨on', hon', hsw⟩ := h.switched
      obtain ⟨hlt, -⟩ := List.getElem?_eq_some_iff.1 hon'
      refine ⟨[], ?_, rfl, fun x hx => by cases hx⟩
      rw [List.append_nil]
      refine { h with stores := ?_, switched := ⟨on', ?_, hsw⟩ }
      · show _ = ((s.switches ++ [on]).take (s.switchRead + 1)).drop 1
        rw [List.take_append_of_le_length (by omega)]
        exact h.stores
      · show (s.switches ++ [on])[s.switchRead]? = some on'
        rw [List.getElem?_append_left hlt]
        exact hon'
    · cases hs
  | load monitor counter place =>
    simp only [ControlPlane.step] at hs
    split at hs
    · obtain ⟨value, hv, he⟩ := Option.map_eq_some_iff.1 hs
      cases he
      obtain ⟨values, hvalues, hv⟩ := Option.bind_eq_some_iff.1 hv
      refine ⟨[], by rw [List.append_nil]; exact { h with }, (List.append_nil _).symm, fun x hx => ?_⟩
      cases hx
      obtain ⟨hlt, -⟩ := List.getElem?_eq_some_iff.1 hvalues
      have hcounted := h.counted
      exact ⟨by show place ≤ rounds.length; omega, h.counters place values counter value hvalues hv⟩
    · cases hs

/-- A run of all the threads. -/
theorem Inv.run (h : Inv e₀ list s rounds) (h₀ : e₀.Represents r₀)
    (hr : Machine.run ControlPlane.step s acts = some (s', outs)) :
    ∃ more, Inv e₀ list s' (rounds ++ more) ∧ s'.switches = s.switches ++ stored acts ∧
      ∀ x ∈ readings acts outs, ValueAfter e₀ ((rounds ++ more).take x.place) x.counter x.value := by
  induction acts generalizing s rounds outs with
  | nil =>
    cases hr
    exact ⟨[], by rw [List.append_nil]; exact h, (List.append_nil _).symm, fun x hx => by cases hx⟩
  | cons a acts ih =>
    obtain ⟨t, r, outs', hs, hr', rfl⟩ := Machine.run_cons_some hr
    obtain ⟨one, ht, hst, hread⟩ := h.step h₀ hs
    obtain ⟨more, hs', hst', hreads⟩ := ih ht hr'
    rw [List.append_assoc] at hs' hreads
    refine ⟨one ++ more, hs', ?_, fun x hx => ?_⟩
    · rw [hst', hst, List.append_assoc]
      exact congrArg (s.switches ++ ·) (@List.filterMap_append _ _ [a] acts _).symm
    · unfold readings at hx
      rw [List.zip_cons_cons, List.filterMap_cons] at hx
      split at hx
      · exact hreads x hx
      · rename_i y hy
        rcases List.mem_cons.1 hx with rfl | hx
        · obtain ⟨hle, hshows⟩ := hread x hy
          rw [List.take_append_of_le_length hle]
          exact hshows
        · exact hreads x hx

/-- The place a monitoring thread last read of a counter only grows. -/
theorem step_counterRead (hs : s.step a = some (s', r)) (monitor : ι) (counter : Counter) :
    s.counterRead monitor counter ≤ s'.counterRead monitor counter ∧
      ∀ x, reading (a, r) = some x → s.counterRead x.monitor x.counter ≤ x.place ∧
        x.place = s'.counterRead x.monitor x.counter := by
  cases a with
  | queue act =>
    obtain ⟨q, -, he⟩ := Option.map_eq_some_iff.1 hs
    cases he
    exact ⟨Nat.le_refl _, fun x hx => by cases hx⟩
  | apply place =>
    obtain ⟨t, ht, hw⟩ := Option.bind_eq_some_iff.1 hs
    obtain ⟨q, -, he⟩ := Option.map_eq_some_iff.1 hw
    cases he
    have hsame : t.counterRead = s.counterRead := by
      unfold ControlPlane.loadSwitch at ht
      split at ht
      · split at ht
        · obtain ⟨on, -, rfl⟩ := Option.map_eq_some_iff.1 ht
          rfl
        · cases ht
      · cases ht
        rfl
    refine ⟨by rw [hsame], fun x hx => ?_⟩
    cases hret : q.2 with
    | none => rw [hret] at hx; cases hx
    | some cmd => rw [hret] at hx; cases hx
  | engageKillSwitch on =>
    simp only [ControlPlane.step] at hs
    split at hs
    · cases hs
      exact ⟨Nat.le_refl _, fun x hx => by cases hx⟩
    · cases hs
  | load m c place =>
    simp only [ControlPlane.step] at hs
    split at hs
    · rename_i hle
      obtain ⟨value, -, he⟩ := Option.map_eq_some_iff.1 hs
      cases he
      refine ⟨?_, fun x hx => ?_⟩
      · unfold noted
        by_cases hm : monitor = m
        · subst hm
          by_cases hc : counter = c
          · subst hc
            simpa using hle
          · simp [hc]
        · simp [hm]
      · cases hx
        exact ⟨hle, by simp [noted]⟩
    · cases hs

theorem run_counterRead (hr : Machine.run ControlPlane.step s acts = some (s', outs)) :
    (∀ x ∈ readings acts outs, s.counterRead x.monitor x.counter ≤ x.place) ∧
      (readings acts outs).Pairwise fun x y => x.monitor = y.monitor → x.counter = y.counter → x.place ≤ y.place := by
  induction acts generalizing s outs with
  | nil =>
    cases hr
    exact ⟨fun x hx => (by cases hx), .nil⟩
  | cons a acts ih =>
    obtain ⟨t, r, outs', hs, hr', rfl⟩ := Machine.run_cons_some hr
    obtain ⟨hlater, hpairs⟩ := ih hr'
    have hgrow : ∀ x ∈ readings acts outs', s.counterRead x.monitor x.counter ≤ x.place := fun x hx =>
      Nat.le_trans (step_counterRead hs x.monitor x.counter).1 (hlater x hx)
    unfold readings
    rw [List.zip_cons_cons, List.filterMap_cons]
    split
    · exact ⟨hgrow, hpairs⟩
    · rename_i y hy
      obtain ⟨hle, hplace⟩ := (step_counterRead hs y.monitor y.counter).2 y hy
      refine ⟨fun x hx => ?_, List.pairwise_cons.2 ⟨fun x hx hm hc => ?_, hpairs⟩⟩
      · rcases List.mem_cons.1 hx with rfl | hx
        · exact hle
        · exact hgrow x hx
      · rw [hplace, hm, hc]
        exact hlater x hx

end Run

/-- What was applied is a front part of the commands, the sentinel never. -/
theorem Inv.applied {cmds : List Command} (h : Inv e₀ (cmds ++ [.makeShutdown]) s rounds) :
    rounds.map (·.2) <+: cmds := by
  obtain ⟨shadow, hq⟩ := h.queue
  exact hq.applied

/-- **Whatever the threads do, one thread could have done.** In every run of a producer, the consumer,
threads that turn the kill switch and threads that read counters, in any interleaving and with loads
as old as coherence allows, what was applied is a front part of the commands, all of them once the
consumer has left its loop; the engine is the one that a single thread makes of them when it turns
the switch between two commands, in the order of the stores; every value read of a counter is the
value after some of these commands, and no thread ever sees a counter go back. -/
theorem run_linearizes [DecidableEq ι] (queueCapacity : UInt64) (stp : SelfTradePolicy) (poolCapacity : UInt64)
    (risk : Option RiskConfig) (host : Option ByteOrder) (cmds : List Command)
    (hcmds : ∀ cmd ∈ cmds, cmd.type ≠ .shutdown) :
    ∃ e₀, MatchingEngine.fresh stp poolCapacity risk host = some e₀ ∧
      ∀ (acts : List (ControlAct ι)) s outs,
        Machine.run step (start queueCapacity e₀ cmds) acts = some (s, outs) →
        ∃ rounds : List Round, rounds.map (·.2) <+: cmds ∧
          (s.pipeline.loop = .exited → rounds.map (·.2) = cmds) ∧
          rounds.flatMap (·.1) <+: stored acts ∧
          (∃ rets, Machine.run MatchingEngine.call e₀ (scheduled rounds) = some (s.pipeline.engine, rets)) ∧
          (∀ x ∈ readings acts outs, ValueAfter e₀ (rounds.take x.place) x.counter x.value) ∧
          (readings acts outs).Pairwise fun x y =>
            x.monitor = y.monitor → x.counter = y.counter → x.place ≤ y.place := by
  obtain ⟨e₀, hr, h₀⟩ := MatchingEngine.fresh_spec stp poolCapacity risk host
  refine ⟨e₀, hr, fun acts s outs hrun => ?_⟩
  obtain ⟨rounds, h, hswitches, hreads⟩ := (Inv.start queueCapacity stp risk host rfl h₀ cmds).run h₀ hrun
  rw [List.nil_append] at h hreads
  obtain ⟨shadow, hq⟩ := h.queue
  have hall := Pipeline.Inv.exited (s := { s.pipeline with engine := shadow }) hcmds hq
  refine ⟨rounds, h.applied, hall, ?_, h.engine, hreads, (run_counterRead hrun).2⟩
  rw [h.stores, hswitches]
  show ((false :: stored acts).take (s.switchRead + 1)).drop 1 <+: stored acts
  rw [List.take_succ_cons, List.drop_one, List.tail_cons]
  exact List.take_prefix _ _

/-- A push and a pop, undisturbed; the other thread's index is read at a place. -/
def pushes (cmd : Command) (place : Nat) : List (ControlAct Unit) :=
  [.queue (.pushTail cmd), .queue (.pushHead place), .queue .construct, .queue .publishTail]

def pops (place : Nat) : List (ControlAct Unit) :=
  [.queue .popHead, .queue (.popTail place), .queue .moveOut, .queue .publishHead]

/-- An order and its cancel. The switch is turned before the order is checked, which still reads the value
before; the counter of commands is read when it is no longer new, and then again. -/
def supervised : List (ControlAct Unit) :=
  pushes (.makeSubmit 1 1 .buy 100 10) 0 ++ pushes (.makeCancel 1) 0 ++ pops 1 ++
    [.engageKillSwitch true, .apply 0, .load () .accepted 1] ++ pushes .makeShutdown 1 ++ pops 2 ++ [.apply 0] ++
    pops 3 ++ [.apply 0, .load () .commands 1, .load () .commands 2]

/-- What the run reports to the consumer and to the monitoring thread. -/
theorem supervised_run :
    ((MatchingEngine.fresh .cancelResting 4 (some .new) none).bind fun e₀ =>
      (Machine.run step (start 2 e₀ [.makeSubmit 1 1 .buy 100 10, .makeCancel 1]) supervised).map fun r =>
        (r.1.pipeline.loop, r.2.filterMap id)) =
      some (.exited, [.applied (.makeSubmit 1 1 .buy 100 10), .loaded 1, .applied (.makeCancel 1), .loaded 1,
        .loaded 2]) := by
  decide +kernel

theorem run_linearizes_two :
    ∃ e₀ s outs, MatchingEngine.fresh .cancelResting 4 (some .new) none = some e₀ ∧
      Machine.run step (start 2 e₀ [.makeSubmit 1 1 .buy 100 10, .makeCancel 1]) supervised = some (s, outs) ∧
      s.pipeline.loop = .exited ∧
      outs.filterMap id = [.applied (.makeSubmit 1 1 .buy 100 10), .loaded 1, .applied (.makeCancel 1), .loaded 1,
        .loaded 2] ∧
      ∃ rounds : List Round, rounds.map (·.2) = [.makeSubmit 1 1 .buy 100 10, .makeCancel 1] ∧
        rounds.flatMap (·.1) <+: stored supervised ∧
        (∃ rets, Machine.run MatchingEngine.call e₀ (scheduled rounds) = some (s.pipeline.engine, rets)) ∧
        (∀ x ∈ readings supervised outs, ValueAfter e₀ (rounds.take x.place) x.counter x.value) ∧
        (readings supervised outs).Pairwise fun x y =>
          x.monitor = y.monitor → x.counter = y.counter → x.place ≤ y.place := by
  obtain ⟨e₀, hfresh, h⟩ := run_linearizes (ι := Unit) 2 .cancelResting 4 (some .new) none
    [.makeSubmit 1 1 .buy 100 10, .makeCancel 1] (by decide)
  have hall := supervised_run
  rw [hfresh, Option.bind_some] at hall
  obtain ⟨⟨s, outs⟩, hrun, he⟩ := Option.map_eq_some_iff.1 hall
  obtain ⟨hloop, houts⟩ := Prod.mk.inj he
  obtain ⟨rounds, -, hexit, hstores, hengine, hreads, hforward⟩ := h supervised s outs hrun
  exact ⟨e₀, s, outs, hfresh, hrun, hloop, houts, rounds, hexit hloop, hstores, hengine, hreads, hforward⟩

end ControlPlane

end Obe
