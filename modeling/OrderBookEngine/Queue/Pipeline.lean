/-
The threaded pipeline: a producer pushes its commands and then the shutdown sentinel of
`drain_and_join`, each again while the queue refuses it, and the consumer loop applies what it pops
until it meets the sentinel. However the atomic steps of the two threads interleave, a run that
completes has applied the producer's list, and so ends as if it had been applied inline.
-/
import OrderBookEngine.Engine.MatchingEngine
import OrderBookEngine.Queue.Lossless

namespace Obe

open Bytes (ByteOrder)

/-- Where the consumer is in `consume_loop`. -/
inductive Loop
  | popping
  | received (cmd : Command)
  | exited
  deriving DecidableEq, Repr

/-- `todo` is what is still to be pushed, the push under way included. -/
structure Pipeline where
  spsc : Spsc Command
  todo : List Command
  loop : Loop
  engine : MatchingEngine

/-- A step of the queue by either thread, or the consumer's work on the command it received. -/
inductive PipelineAct
  | queue (act : SpscAct Command)
  | apply
  deriving DecidableEq, Repr

/-- A push begins with the next command to be pushed. -/
def SpscAct.begins (todo : List Command) : SpscAct Command → Bool
  | .pushTail value => todo.head? = some value
  | _ => true

namespace Pipeline

/-- The worker has been started and nothing is pushed yet. -/
def start (queueCapacity : UInt64) (engine : MatchingEngine) (cmds : List Command) : Pipeline :=
  { spsc := .create queueCapacity, todo := cmds ++ [.makeShutdown], loop := .popping, engine }

/-- A refused push leaves its command to be pushed. -/
def remaining (todo : List Command) : Option (QueueRet Command) → List Command
  | some (.pushed _) => todo.tail
  | _ => todo

/-- An empty queue sends the consumer back to `pop`. -/
def next : Option (QueueRet Command) → Loop
  | some (.popped cmd) => .received cmd
  | _ => .popping

/-- A step, with the command it applied. -/
def step (s : Pipeline) : PipelineAct → Option (Pipeline × Option Command)
  | .queue act =>
    if act.ofConsumer then
      match s.loop with
      | .popping => (s.spsc.step act).map fun r => ({ s with spsc := r.1, loop := next r.2 }, none)
      | _ => none
    else if act.begins s.todo then
      (s.spsc.step act).map fun r => ({ s with spsc := r.1, todo := remaining s.todo r.2 }, none)
    else none
  | .apply =>
    match s.loop with
    | .received cmd =>
      if cmd.type = .shutdown then some ({ s with loop := .exited }, none)
      else (s.engine.apply cmd).map fun r => ({ s with engine := r.1, loop := .popping }, some cmd)
    | _ => none

end Pipeline

/-! ## What a queue step reports -/

/-- The command of the push under way. -/
def Pushing.value {T : Type _} : Pushing T → Option T
  | .idle => none
  | .tailLoaded value _ => some value
  | .headLoaded value _ => some value
  | .constructed value _ => some value

namespace Spsc

variable {T : Type _} {s s' : Spsc T} {act : SpscAct T} {r : Option (QueueRet T)}

/-- The consumer reports no push and leaves the producer where it is. -/
theorem step_consumer (ha : act.ofConsumer = true) (h : s.step act = some (s', r)) :
    s'.producer = s.producer ∧ pushedValues [r] = [] := by
  have hrun : Machine.run step s [act] = some (s', [r]) := by rw [Machine.run_cons _ h]; rfl
  constructor
  · exact run_keeps_producer (by simpa using ha) hrun
  · cases act with
    | pushTail value => cases ha
    | pushHead place => cases ha
    | construct => cases ha
    | publishTail => cases ha
    | popHead =>
      simp only [step] at h
      split at h <;> cases h
      rfl
    | popTail place =>
      simp only [step] at h
      split at h
      · split at h
        · obtain ⟨tail, -, h⟩ := Option.map_eq_some_iff.1 h
          split at h <;> cases h <;> rfl
        · cases h
      · cases h
    | moveOut =>
      simp only [step] at h
      split at h
      · obtain ⟨out, -, h⟩ := Option.map_eq_some_iff.1 h
        cases h; rfl
      · cases h
    | publishHead =>
      simp only [step] at h
      split at h <;> cases h
      rfl

/-- The producer reports no pop. It begins with a value, keeps it, and reports it when it ends. -/
theorem step_pushing (ha : act.ofConsumer = false) (h : s.step act = some (s', r)) :
    poppedValues [r] = [] ∧
      ((∃ value, act = .pushTail value ∧ s'.producer.value = some value ∧ r = none) ∨
        (s'.producer.value = s.producer.value ∧ r = none) ∨
        (∃ value, s'.producer.value = none ∧ r = some (.refused value)) ∨
        ∃ value, s.producer.value = some value ∧ s'.producer.value = none ∧ r = some (.pushed value)) := by
  cases act with
  | popHead => cases ha
  | popTail place => cases ha
  | moveOut => cases ha
  | publishHead => cases ha
  | pushTail value =>
    simp only [step] at h
    split at h <;> cases h
    exact ⟨rfl, .inl ⟨value, rfl, rfl, rfl⟩⟩
  | pushHead place =>
    simp only [step] at h
    split at h
    · rename_i value tail hp
      split at h
      · obtain ⟨head, -, h⟩ := Option.map_eq_some_iff.1 h
        split at h
        · cases h
          exact ⟨rfl, .inr (.inr (.inl ⟨value, rfl, rfl⟩))⟩
        · cases h
          exact ⟨rfl, .inr (.inl ⟨by rw [hp]; rfl, rfl⟩)⟩
      · cases h
    · cases h
  | construct =>
    simp only [step] at h
    split at h
    · rename_i value tail hp
      cases h
      exact ⟨rfl, .inr (.inl ⟨by rw [hp]; rfl, rfl⟩)⟩
    · cases h
  | publishTail =>
    simp only [step] at h
    split at h
    · rename_i value tail hp
      cases h
      exact ⟨rfl, .inr (.inr (.inr ⟨value, by rw [hp]; rfl, rfl, rfl⟩))⟩
    · cases h

end Spsc

/-! ## The invariant -/

namespace Pipeline

/-- The consumer has worked off `done`, and what it popped beyond that it is working on. -/
def Working (done popped : List Command) : Loop → Prop
  | .popping => popped = done
  | .received cmd => popped = done ++ [cmd]
  | .exited => ∃ cmd, cmd.type = .shutdown ∧ popped = done ++ [cmd]

/-- The pipeline of an engine `e₀` and a producer of `list`, after `done` was applied. -/
structure Inv (e₀ : MatchingEngine) (list : List Command) (s : Pipeline) (done : List Command) : Prop where
  queue : ∃ pushed popped, s.spsc.Inv pushed popped ∧ pushed ++ s.todo = list ∧ Working done popped s.loop
  value : ∀ value, s.spsc.producer.value = some value → s.todo.head? = some value
  events : ∀ cmd ∈ done, cmd.type ≠ .shutdown
  engine : ∃ outs, Machine.run MatchingEngine.apply e₀ done = some (s.engine, outs)

variable {e₀ : MatchingEngine} {list done : List Command} {s s' : Pipeline}

theorem Inv.start (queueCapacity : UInt64) (e₀ : MatchingEngine) (cmds : List Command) :
    Inv e₀ (cmds ++ [.makeShutdown]) (start queueCapacity e₀ cmds) [] :=
  ⟨⟨[], [], Spsc.create_inv queueCapacity, rfl, rfl⟩, fun _ h => (by cases h), fun _ h => (by cases h), [], rfl⟩

/-- A consumer step on the queue: at most the received command is new. -/
theorem Inv.consumer (h : Inv e₀ list s done) {act : SpscAct Command} {q : Spsc Command}
    {r : Option (QueueRet Command)}
    (ha : act.ofConsumer = true) (hloop : s.loop = .popping) (hs : s.spsc.step act = some (q, r)) :
    Inv e₀ list { s with spsc := q, loop := next r } done := by
  obtain ⟨pushed, popped, hq, hlist, hwork⟩ := h.queue
  obtain ⟨hprod, hpush⟩ := Spsc.step_consumer ha hs
  have hq' := hq.step hs
  rw [hpush, List.append_nil] at hq'
  rw [hloop] at hwork
  obtain rfl : popped = done := hwork
  refine { h with queue := ⟨pushed, _, hq', hlist, ?_⟩, value := fun value hv => h.value value (by rwa [hprod] at hv) }
  cases r with
  | none => exact List.append_nil _
  | some ret =>
    cases ret with
    | pushed value => exact List.append_nil _
    | refused value => exact List.append_nil _
    | popped value => rfl
    | empty => exact List.append_nil _

/-- A producer step on the queue: what is pushed was the next to be pushed. -/
theorem Inv.producer (h : Inv e₀ list s done) {act : SpscAct Command} {q : Spsc Command}
    {r : Option (QueueRet Command)}
    (ha : act.ofConsumer = false) (hb : act.begins s.todo = true) (hs : s.spsc.step act = some (q, r)) :
    Inv e₀ list { s with spsc := q, todo := remaining s.todo r } done := by
  obtain ⟨pushed, popped, hq, hlist, hwork⟩ := h.queue
  have hq' := hq.step hs
  obtain ⟨hpop, hcase⟩ := Spsc.step_pushing ha hs
  rw [hpop, List.append_nil] at hq'
  rcases hcase with ⟨value, rfl, hv, rfl⟩ | ⟨hv, rfl⟩ | ⟨value, hv, rfl⟩ | ⟨value, hv, hv', rfl⟩
  · rw [show pushedValues [none] = ([] : List Command) from rfl, List.append_nil] at hq'
    refine { h with queue := ⟨pushed, popped, hq', hlist, hwork⟩, value := fun v hv' => ?_ }
    obtain rfl : value = v := by rw [hv] at hv'; exact Option.some.inj hv'
    show s.todo.head? = some value
    simpa [SpscAct.begins] using hb
  · rw [show pushedValues [none] = ([] : List Command) from rfl, List.append_nil] at hq'
    exact { h with queue := ⟨pushed, popped, hq', hlist, hwork⟩, value := fun v hv' => h.value v (by rwa [hv] at hv') }
  · rw [show pushedValues [some (.refused value)] = ([] : List Command) from rfl, List.append_nil] at hq'
    exact { h with queue := ⟨pushed, popped, hq', hlist, hwork⟩,
                   value := fun v hv' => (by rw [hv] at hv'; cases hv') }
  · have hhead := h.value value hv
    have htodo : s.todo = value :: s.todo.tail := (List.cons_head?_tail (by simpa using hhead)).symm
    refine { h with queue := ⟨pushed ++ [value], popped, hq', ?_, hwork⟩, value := fun v hv'' => ?_ }
    · rw [← hlist, htodo]; simp [remaining]
    · rw [hv'] at hv''; cases hv''

/-- The consumer works on the command it received. -/
theorem Inv.apply (h : Inv e₀ list s done) {cmd : Command} (hloop : s.loop = .received cmd) {e : MatchingEngine}
    {n : Nat}
    (hcmd : cmd.type ≠ .shutdown) (ha : s.engine.apply cmd = some (e, n)) :
    Inv e₀ list { s with engine := e, loop := .popping } (done ++ [cmd]) := by
  obtain ⟨pushed, popped, hq, hlist, hwork⟩ := h.queue
  obtain ⟨outs, hrun⟩ := h.engine
  rw [hloop] at hwork
  constructor
  case queue => exact ⟨pushed, popped, hq, hlist, hwork⟩
  case value => exact h.value
  case events =>
    intro c hc
    rcases List.mem_append.1 hc with hc | hc
    · exact h.events c hc
    · rw [List.mem_singleton.1 hc]; exact hcmd
  case engine => exact ⟨outs ++ [n], Machine.run_append hrun (by rw [Machine.run_cons _ ha]; rfl)⟩

theorem Inv.exit (h : Inv e₀ list s done) {cmd : Command} (hloop : s.loop = .received cmd)
    (hcmd : cmd.type = .shutdown) :
    Inv e₀ list { s with loop := .exited } done := by
  obtain ⟨pushed, popped, hq, hlist, hwork⟩ := h.queue
  rw [hloop] at hwork
  exact { h with queue := ⟨pushed, popped, hq, hlist, cmd, hcmd, hwork⟩ }

/-- Every step keeps the invariant, with the command it applied. -/
theorem Inv.step (h : Inv e₀ list s done) {a : PipelineAct} {r : Option Command} (hs : s.step a = some (s', r)) :
    Inv e₀ list s' (done ++ r.toList) := by
  cases a with
  | queue act =>
    simp only [Pipeline.step] at hs
    split at hs
    · rename_i ha
      split at hs
      · rename_i hloop
        obtain ⟨⟨q, ret⟩, hq, hs⟩ := Option.map_eq_some_iff.1 hs
        cases hs
        rw [Option.toList_none, List.append_nil]
        exact h.consumer ha hloop hq
      · cases hs
    · rename_i ha
      split at hs
      · rename_i hb
        obtain ⟨⟨q, ret⟩, hq, hs⟩ := Option.map_eq_some_iff.1 hs
        cases hs
        rw [Option.toList_none, List.append_nil]
        exact h.producer (Bool.eq_false_iff.2 ha) hb hq
      · cases hs
  | apply =>
    simp only [Pipeline.step] at hs
    split at hs
    · rename_i cmd hloop
      split at hs
      · rename_i hcmd
        cases hs
        rw [Option.toList_none, List.append_nil]
        exact h.exit hloop hcmd
      · rename_i hcmd
        obtain ⟨⟨e, n⟩, ha, hs⟩ := Option.map_eq_some_iff.1 hs
        cases hs
        exact h.apply hloop hcmd ha
    · cases hs

theorem Inv.run {acts : List PipelineAct} {outs : List (Option Command)} (h : Inv e₀ list s done)
    (hr : Machine.run Pipeline.step s acts = some (s', outs)) : Inv e₀ list s' (done ++ outs.filterMap id) :=
  Machine.run_reports (fun _ _ _ _ _ _ ht hs => ht.step hs) h hr

/-- When the consumer has left its loop, it has applied everything before the sentinel. -/
theorem Inv.exited {cmds : List Command} (hcmds : ∀ cmd ∈ cmds, cmd.type ≠ .shutdown)
    (h : Inv e₀ (cmds ++ [.makeShutdown]) s done) (hloop : s.loop = .exited) : done = cmds := by
  obtain ⟨pushed, popped, hq, hlist, hwork⟩ := h.queue
  rw [hloop] at hwork
  obtain ⟨cmd, hcmd, rfl⟩ := hwork
  obtain ⟨rest, hrest⟩ := (hq.fifo.trans (List.prefix_append pushed s.todo))
  rw [hlist] at hrest
  rcases List.eq_nil_or_concat rest with rfl | ⟨rest', last, rfl⟩
  · rw [List.append_nil] at hrest
    exact (List.append_inj' hrest rfl).1
  · -- the sentinel would be one of the producer's commands
    rw [List.concat_eq_append, ← List.append_assoc] at hrest
    have hmem : cmd ∈ cmds := by
      rw [← (List.append_inj' hrest rfl).1]
      simp
    exact absurd hcmd (hcmds cmd hmem)

/-- What was applied is a front part of the commands, the sentinel never. -/
theorem Inv.applied {cmds : List Command} (h : Inv e₀ (cmds ++ [.makeShutdown]) s done) : done <+: cmds := by
  obtain ⟨pushed, popped, hq, hlist, hwork⟩ := h.queue
  have hdone : done <+: popped := by
    unfold Working at hwork
    split at hwork
    · rw [hwork]
    · rw [hwork]
      exact List.prefix_append _ _
    · obtain ⟨cmd, -, rfl⟩ := hwork
      exact List.prefix_append _ _
  have hprefix : done <+: cmds ++ [.makeShutdown] := by
    rw [← hlist]
    exact (hdone.trans hq.fifo).trans (List.prefix_append _ _)
  rcases List.prefix_concat_iff.1 hprefix with he | hp
  · exact absurd rfl (h.events .makeShutdown (by rw [he]; simp))
  · exact hp

/-! ## Runs that complete -/

section Completes

variable {q : Spsc Command} {value : Command} {todo : List Command} {place : Nat}

/-- A push in the pipeline, undisturbed. -/
theorem push_run (htodo : s.todo = value :: todo)
    (h : Machine.run Spsc.step s.spsc [.pushTail value, .pushHead place, .construct, .publishTail] =
      some (q, [none, none, none, some (.pushed value)])) :
    Machine.run step s [.queue (.pushTail value), .queue (.pushHead place), .queue .construct, .queue .publishTail] =
      some ({ s with spsc := q, todo }, [none, none, none, none]) := by
  obtain ⟨q₁, q₂, q₃, h₁, h₂, h₃, h₄⟩ := Machine.run_four h
  simp [Machine.run, step, SpscAct.ofConsumer, SpscAct.begins, remaining, htodo, h₁, h₂, h₃, h₄]

/-- A pop in the pipeline, undisturbed. -/
theorem pop_run (hloop : s.loop = .popping)
    (h : Machine.run Spsc.step s.spsc [.popHead, .popTail place, .moveOut, .publishHead] =
      some (q, [none, none, none, some (.popped value)])) :
    Machine.run step s [.queue .popHead, .queue (.popTail place), .queue .moveOut, .queue .publishHead] =
      some ({ s with spsc := q, loop := .received value }, [none, none, none, none]) := by
  obtain ⟨q₁, q₂, q₃, h₁, h₂, h₃, h₄⟩ := Machine.run_four h
  simp [Machine.run, step, SpscAct.ofConsumer, next, hloop, h₁, h₂, h₃, h₄]

/-- Both threads are between two operations and the queue is empty. -/
structure Resting (s : Pipeline) : Prop where
  queue : ∃ pushed, s.spsc.Inv pushed pushed
  producer : s.spsc.producer = .idle
  consumer : s.spsc.consumer = .idle
  loop : s.loop = .popping
  room : 0 < s.spsc.queue.capacity.toNat
  engine : ∃ r, s.engine.Represents r

/-- One command goes through the queue. -/
theorem Resting.handOver (h : Resting s) (htodo : s.todo = value :: todo) :
    ∃ acts q outs, Machine.run step s acts = some ({ s with spsc := q, todo, loop := .received value }, outs) ∧
      (∃ pushed, q.Inv pushed pushed) ∧ q.producer = .idle ∧ q.consumer = .idle ∧
      q.queue.capacity = s.spsc.queue.capacity := by
  obtain ⟨pushed, hq⟩ := h.queue
  have hroom := h.room
  obtain ⟨q₁, hpush, hp₁, hc₁, hq₁⟩ := Spsc.push_alone hq h.producer (by omega) value
  have hinv₁ := hq.run hpush
  change q₁.Inv (pushed ++ [value]) (pushed ++ []) at hinv₁
  rw [List.append_nil] at hinv₁
  have hlt : pushed.length < (pushed ++ [value]).length := by simp
  obtain ⟨q₂, hpop, hp₂, hc₂, hq₂⟩ := Spsc.pop_alone hinv₁ (hc₁.trans h.consumer) hlt
  have hinv₂ := hinv₁.run hpop
  have hvalue : (pushed ++ [value])[pushed.length] = value := by simp
  rw [hvalue] at hpop hinv₂
  change q₂.Inv (pushed ++ [value] ++ []) (pushed ++ [value]) at hinv₂
  rw [List.append_nil] at hinv₂
  have hrun := Machine.run_append (push_run htodo hpush)
    (pop_run (s := { s with spsc := q₁, todo := todo }) h.loop hpop)
  refine ⟨_, q₂, _, hrun, ⟨_, hinv₂⟩, hp₂.trans hp₁, hc₂, ?_⟩
  have hcap₁ := s.spsc.queue.push_capacity value
  rw [hq₁] at hcap₁
  exact (SpscRingBuffer.pop_capacity hq₂).trans hcap₁

/-- Each command can be handed over and applied before the next. -/
theorem Resting.completes {cmds : List Command} (h : Resting s) (hcmds : ∀ cmd ∈ cmds, cmd.type ≠ .shutdown)
    (htodo : s.todo = cmds ++ [.makeShutdown]) :
    ∃ acts s' outs, Machine.run step s acts = some (s', outs) ∧ s'.loop = .exited := by
  induction cmds generalizing s with
  | nil =>
    obtain ⟨acts, q, outs, hrun, -⟩ := h.handOver htodo
    exact ⟨acts ++ [.apply], _, outs ++ [none], Machine.run_append hrun rfl, rfl⟩
  | cons cmd cmds ih =>
    obtain ⟨acts, q, outs, hrun, hq, hp, hc, hcap⟩ := h.handOver htodo
    obtain ⟨r, hr⟩ := h.engine
    obtain ⟨e, happly, he⟩ := MatchingEngine.apply_refines _ _ cmd hr
    have hcmd := hcmds cmd (List.mem_cons_self ..)
    have hstep : step { s with spsc := q, todo := cmds ++ [.makeShutdown], loop := .received cmd } .apply =
        some ({ s with spsc := q, todo := cmds ++ [.makeShutdown], loop := .popping, engine := e }, some cmd) := by
      simp only [step, if_neg hcmd, happly, Option.map_some]
    have hrest : Resting { s with spsc := q, todo := cmds ++ [.makeShutdown], loop := .popping, engine := e } :=
      ⟨hq, hp, hc, rfl, by rw [hcap]; exact h.room, _, he⟩
    obtain ⟨acts', s', outs', hrun', hexit⟩ := ih hrest (fun c hc => hcmds c (List.mem_cons_of_mem _ hc)) rfl
    have hwork : Machine.run step { s with spsc := q, todo := cmds ++ [.makeShutdown], loop := .received cmd }
        (.apply :: acts') = some (s', some cmd :: outs') := by
      rw [Machine.run_cons _ hstep, hrun']; rfl
    exact ⟨_, s', _, Machine.run_append hrun hwork, hexit⟩

/-- Some interleaving completes, for every capacity that can be rounded up. -/
theorem start_completes {queueCapacity : UInt64} (hcap : queueCapacity.toNat ≤ 2 ^ 63) {engine : MatchingEngine}
    {r : ListEngine} (he : engine.Represents r) {cmds : List Command} (hcmds : ∀ cmd ∈ cmds, cmd.type ≠ .shutdown) :
    ∃ acts s outs, Machine.run step (start queueCapacity engine cmds) acts = some (s, outs) ∧ s.loop = .exited := by
  obtain ⟨k, -, -, hround, -⟩ := roundUpPow2_spec hcap
  have hroom : 0 < (roundUpPow2 queueCapacity).toNat := by rw [hround]; exact Nat.two_pow_pos k
  exact Resting.completes ⟨⟨[], Spsc.create_inv queueCapacity⟩, rfl, rfl, rfl, hroom, r, he⟩ hcmds rfl

end Completes

/-! ## The pipeline and inline execution -/

/-- **The pipeline equals inline execution.** For every queue capacity, policy and gate, a run that
completes has applied exactly the producer's commands, each once and in order, and its engine is
the engine that applied them inline; and a run that completes there is, for every capacity that can be
rounded up. -/
theorem run_eq_inline (queueCapacity : UInt64) (stp : SelfTradePolicy) (poolCapacity : UInt64)
    (risk : Option RiskConfig)
    (host : Option ByteOrder) (cmds : List Command) (hcmds : ∀ cmd ∈ cmds, cmd.type ≠ .shutdown) :
    ∃ e₀ e trades, MatchingEngine.fresh stp poolCapacity risk host = some e₀ ∧
      Machine.run MatchingEngine.apply e₀ cmds = some (e, trades) ∧
      (∀ acts s outs, Machine.run step (start queueCapacity e₀ cmds) acts = some (s, outs) → s.loop = .exited →
        outs.filterMap id = cmds ∧ s.engine = e ∧ s.engine.observe = e.observe) ∧
      (queueCapacity.toNat ≤ 2 ^ 63 →
        ∃ acts s outs, Machine.run step (start queueCapacity e₀ cmds) acts = some (s, outs) ∧ s.loop = .exited) := by
  obtain ⟨e₀, hr, h₀⟩ := MatchingEngine.fresh_spec stp poolCapacity risk host
  obtain ⟨e, hrun, -⟩ := MatchingEngine.apply_refines.run h₀ cmds
  refine ⟨e₀, e, _, hr, hrun, fun acts s outs hacts hloop => ?_, fun hcap => start_completes hcap h₀ hcmds⟩
  have h := (Inv.start queueCapacity e₀ cmds).run hacts
  rw [List.nil_append] at h
  have hdone := h.exited hcmds hloop
  obtain ⟨outs', hrun'⟩ := h.engine
  rw [hdone, hrun] at hrun'
  cases hrun'
  exact ⟨hdone, rfl, rfl⟩

/-- An order and its cancel, through a queue of two. -/
theorem run_eq_inline_two :
    ∃ e₀ e trades acts s outs, MatchingEngine.fresh .cancelResting 4 (some .new) none = some e₀ ∧
      Machine.run MatchingEngine.apply e₀ [.makeSubmit 1 1 .buy 100 10, .makeCancel 1] = some (e, trades) ∧
      Machine.run step (start 2 e₀ [.makeSubmit 1 1 .buy 100 10, .makeCancel 1]) acts = some (s, outs) ∧
      s.loop = .exited ∧ outs.filterMap id = [.makeSubmit 1 1 .buy 100 10, .makeCancel 1] ∧ s.engine = e ∧
      s.engine.observe = e.observe := by
  obtain ⟨e₀, e, trades, hfresh, hinline, hthreaded, hcompletes⟩ :=
    run_eq_inline 2 .cancelResting 4 (some .new) none [.makeSubmit 1 1 .buy 100 10, .makeCancel 1] (by decide)
  obtain ⟨acts, s, outs, hrun, hloop⟩ := hcompletes (by decide)
  obtain ⟨houts, hengine, hobserve⟩ := hthreaded acts s outs hrun hloop
  exact ⟨e₀, e, trades, acts, s, outs, hfresh, hinline, hrun, hloop, houts, hengine, hobserve⟩

end Pipeline

end Obe
