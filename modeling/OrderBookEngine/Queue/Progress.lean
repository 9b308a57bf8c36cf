/-
The pipeline cannot get stuck. In whatever state the interleaving so far has left the two threads,
half-way through a push, a pop or a command, the run can still be completed, in no more steps than the
commands that are left need.
-/
import OrderBookEngine.Queue.Pipeline

namespace Obe

open Bytes (ByteOrder)

/-- The steps of a push that are done. -/
def Pushing.stepsDone {T : Type _} : Pushing T → Nat
  | .idle => 0
  | .tailLoaded .. => 1
  | .headLoaded .. => 2
  | .constructed .. => 3

/-- The steps of a pop that are done. -/
def Popping.stepsDone {T : Type _} : Popping T → Nat
  | .idle => 0
  | .headLoaded _ => 1
  | .tailLoaded _ => 2
  | .movedOut .. => 3

/-! ## The queue -/

namespace Spsc

variable {T : Type _} {s : Spsc T} {pushed popped : List T}

/-- With an element there, the consumer can take its next step towards it. -/
theorem Inv.consumer_step (h : s.Inv pushed popped) (hlt : popped.length < pushed.length) :
    ∃ act q r, act.ofConsumer = true ∧ s.step act = some (q, r) ∧
      (r = none ∧ q.consumer.stepsDone = s.consumer.stepsDone + 1 ∨
        s.consumer.stepsDone = 3 ∧ ∃ value, r = some (.popped value)) := by
  cases hc : s.consumer with
  | idle => exact ⟨.popHead, { s with consumer := .headLoaded s.queue.head }, none, rfl, by simp only [Spsc.step, hc],
      .inl ⟨rfl, rfl⟩⟩
  | headLoaded head =>
    have hread : s.tails[pushed.length]? = some (UInt64.ofNat pushed.length) := by rw [h.tails, published_last]
    have hhead : head = UInt64.ofNat popped.length := by
      have := h.consumer
      rwa [hc] at this
    have hne : head ≠ UInt64.ofNat pushed.length := by
      intro he
      have := (h.empty_iff h.there (Nat.le_refl _)).1 (hhead.symm.trans he)
      omega
    refine ⟨.popTail pushed.length, { s with consumer := .tailLoaded head, tailRead := pushed.length }, none, rfl, ?_,
      .inl ⟨rfl, rfl⟩⟩
    simp only [Spsc.step, hc, h.there, hread, hne, if_true, Option.map_some, if_false]
  | tailLoaded head =>
    obtain ⟨hslot, -⟩ := h.slot_live hc
    rw [List.getElem?_eq_getElem hlt] at hslot
    refine ⟨.moveOut, { s with queue := s.queue.destroy head, consumer := .movedOut head pushed[popped.length] }, none,
      rfl, ?_, .inl ⟨rfl, rfl⟩⟩
    simp only [Spsc.step, hc, hslot, Option.map_some]
  | movedOut head out =>
    exact ⟨.publishHead,
      { s with queue := { s.queue with head := head + 1 }, heads := s.heads ++ [head + 1], consumer := .idle },
      some (.popped out), rfl, by simp only [Spsc.step, hc], .inr ⟨rfl, out, rfl⟩⟩

/-- With room, and a value to push, the producer can take its next step. -/
theorem Inv.producer_step (h : s.Inv pushed popped) (hroom : pushed.length < popped.length + s.queue.capacity.toNat)
    (value : T) :
    ∃ act q r, act.ofConsumer = false ∧ (∀ v, act = .pushTail v → v = value) ∧ s.step act = some (q, r) ∧
      (r = none ∧ q.producer.stepsDone = s.producer.stepsDone + 1 ∨
        s.producer.stepsDone = 3 ∧ q.producer.stepsDone = 0 ∧ ∃ value, r = some (.pushed value)) := by
  cases hp : s.producer with
  | idle =>
    refine ⟨.pushTail value, { s with producer := .tailLoaded value s.queue.tail }, none, rfl, ?_, ?_, .inl ⟨rfl, rfl⟩⟩
    · rintro v ⟨⟩
      rfl
    · simp only [Spsc.step, hp]
  | tailLoaded v tail =>
    have hread : s.heads[popped.length]? = some (UInt64.ofNat popped.length) := by rw [h.heads, published_last]
    have htail : tail = UInt64.ofNat pushed.length := by
      have := h.producer
      rwa [hp] at this
    have hfull : s.queue.full tail (UInt64.ofNat popped.length) = false := by
      rw [Bool.eq_false_iff]
      intro hf
      rw [htail] at hf
      have := (h.full_iff h.headRead (Nat.le_refl _)).1 hf
      omega
    refine ⟨.pushHead popped.length, { s with producer := .headLoaded v tail, headRead := popped.length }, none, rfl,
      fun _ he => (by cases he), ?_, .inl ⟨rfl, rfl⟩⟩
    simp only [Spsc.step, hp, h.headRead, hread, hfull, if_true, Option.map_some, Bool.false_eq_true, if_false]
  | headLoaded v tail =>
    exact ⟨.construct, { s with queue := s.queue.construct tail v, producer := .constructed v tail }, none, rfl,
      fun _ he => (by cases he), by simp only [Spsc.step, hp], .inl ⟨rfl, rfl⟩⟩
  | constructed v tail =>
    exact ⟨.publishTail,
      { s with queue := { s.queue with tail := tail + 1 }, tails := s.tails ++ [tail + 1], producer := .idle },
      some (.pushed v), rfl, fun _ he => (by cases he), by simp only [Spsc.step, hp], .inr ⟨rfl, rfl, v, rfl⟩⟩

/-- The producer leaves the consumer where it is. -/
theorem step_keeps_consumer {s' : Spsc T} {act : SpscAct T} {r : Option (QueueRet T)} (ha : act.ofConsumer = false)
    (h : s.step act = some (s', r)) : s'.consumer = s.consumer := by
  cases act with
  | popHead => cases ha
  | popTail place => cases ha
  | moveOut => cases ha
  | publishHead => cases ha
  | pushTail value =>
    simp only [step] at h
    split at h <;> cases h
    rfl
  | pushHead place =>
    simp only [step] at h
    split at h
    · split at h
      · obtain ⟨head, -, h⟩ := Option.map_eq_some_iff.1 h
        split at h <;> cases h <;> rfl
      · cases h
    · cases h
  | construct =>
    simp only [step] at h
    split at h <;> cases h
    rfl
  | publishTail =>
    simp only [step] at h
    split at h <;> cases h
    rfl

end Spsc

/-! ## The pipeline -/

namespace Pipeline

variable {e₀ : MatchingEngine} {list done : List Command} {s s' : Pipeline}

/-- The steps of the consumer's turn that are done: of the pop, and then of the loop. -/
def turnDone (s : Pipeline) : Nat :=
  match s.loop with
  | .popping => s.spsc.consumer.stepsDone
  | .received _ => 4
  | .exited => 5

/-- Four steps for each push that is left and five for each turn of the consumer. -/
def stepsLeft (list done : List Command) (s : Pipeline) : Nat :=
  4 * s.todo.length - s.spsc.producer.stepsDone + (5 * (list.length - done.length) - s.turnDone)

theorem step_consumer {act : SpscAct Command} {q : Spsc Command} {r : Option (QueueRet Command)}
    (ha : act.ofConsumer = true) (hloop : s.loop = .popping) (h : s.spsc.step act = some (q, r)) :
    s.step (.queue act) = some ({ s with spsc := q, loop := next r }, none) := by
  simp only [step, ha, hloop, h, if_true, Option.map_some]

theorem step_producer {act : SpscAct Command} {q : Spsc Command} {r : Option (QueueRet Command)}
    (ha : act.ofConsumer = false) (hb : act.begins s.todo = true) (h : s.spsc.step act = some (q, r)) :
    s.step (.queue act) = some ({ s with spsc := q, todo := remaining s.todo r }, none) := by
  simp only [step, ha, hb, h, if_true, Option.map_some, Bool.false_eq_true, if_false]

/-- The state of a run of a producer of `cmds` that has still to complete, with the steps it is from there. -/
structure Alive (e₀ : MatchingEngine) (cmds : List Command) (s : Pipeline) (left : Nat) : Prop where
  inv : ∃ done, Inv e₀ (cmds ++ [.makeShutdown]) s done ∧ left = stepsLeft (cmds ++ [.makeShutdown]) done s
  room : 0 < s.spsc.queue.capacity.toNat
  engine : ∃ r, s.engine.Represents r

/-- A queue step of the consumer, which has an element to go for. -/
theorem Alive.consumer {cmds done : List Command} {left : Nat} (h : Alive e₀ cmds s left)
    (hinv : Inv e₀ (cmds ++ [.makeShutdown]) s done) (hleft : left = stepsLeft (cmds ++ [.makeShutdown]) done s)
    (hloop : s.loop = .popping) {pushed : List Command} (hq : s.spsc.Inv pushed done)
    (hlist : pushed ++ s.todo = cmds ++ [.makeShutdown]) (hlt : done.length < pushed.length) :
    ∃ a s' r m, s.step a = some (s', r) ∧ Alive e₀ cmds s' m ∧ m < left := by
  obtain ⟨act, q, r, ha, hs, hr⟩ := hq.consumer_step hlt
  have hstep := step_consumer ha hloop hs
  have hinv' := hinv.step hstep
  rw [Option.toList_none, List.append_nil] at hinv'
  have hroom := h.room
  rw [← Spsc.step_capacity hs] at hroom
  refine ⟨_, _, _, _, hstep, ⟨⟨done, hinv', rfl⟩, hroom, h.engine⟩, ?_⟩
  have hlen := congrArg List.length hlist
  rw [List.length_append] at hlen
  have hprod : q.producer = s.spsc.producer := (Spsc.step_consumer ha hs).1
  have hdone : s.turnDone = s.spsc.consumer.stepsDone := by
    unfold turnDone
    rw [hloop]
  have hsteps : s.spsc.consumer.stepsDone ≤ 3 := by cases s.spsc.consumer <;> simp [Popping.stepsDone]
  have hmore : ({ s with spsc := q, loop := next r } : Pipeline).turnDone = s.turnDone + 1 := by
    rcases hr with ⟨rfl, hc⟩ | ⟨hc, value, rfl⟩
    · rw [hdone, ← hc]
      rfl
    · rw [hdone, hc]
      rfl
  rw [hleft]
  unfold stepsLeft
  rw [hmore, hprod]
  dsimp only
  omega

/-- A queue step of the producer, which finds room. -/
theorem Alive.producer {cmds done : List Command} {left : Nat} (h : Alive e₀ cmds s left)
    (hinv : Inv e₀ (cmds ++ [.makeShutdown]) s done) (hleft : left = stepsLeft (cmds ++ [.makeShutdown]) done s)
    {pushed popped : List Command} (hq : s.spsc.Inv pushed popped)
    (hroom : pushed.length < popped.length + s.spsc.queue.capacity.toNat) {value : Command} {todo : List Command}
    (htodo : s.todo = value :: todo) : ∃ a s' r m, s.step a = some (s', r) ∧ Alive e₀ cmds s' m ∧ m < left := by
  obtain ⟨act, q, r, ha, hv, hs, hr⟩ := hq.producer_step hroom value
  have hb : act.begins s.todo = true := by
    cases act with
    | pushTail v => simp [SpscAct.begins, htodo, hv v rfl]
    | _ => rfl
  have hstep := step_producer ha hb hs
  have hinv' := hinv.step hstep
  rw [Option.toList_none, List.append_nil] at hinv'
  have hcap := h.room
  rw [← Spsc.step_capacity hs] at hcap
  refine ⟨_, _, _, _, hstep, ⟨⟨done, hinv', rfl⟩, hcap, h.engine⟩, ?_⟩
  have hcons : q.consumer = s.spsc.consumer := Spsc.step_keeps_consumer ha hs
  have hturn : ({ s with spsc := q, todo := remaining s.todo r } : Pipeline).turnDone = s.turnDone := by
    unfold turnDone
    rw [hcons]
  have hsteps : s.spsc.producer.stepsDone ≤ 3 := by cases s.spsc.producer <;> simp [Pushing.stepsDone]
  rw [hleft]
  unfold stepsLeft
  rw [hturn]
  rcases hr with ⟨rfl, hp⟩ | ⟨hp, hp', v, rfl⟩
  · simp only [remaining, htodo, List.length_cons, hp]
    omega
  · simp only [remaining, htodo, List.length_cons, List.tail_cons, hp, hp']
    omega

/-- The consumer works on the command it received. -/
theorem Alive.turn {cmds done : List Command} {left : Nat} (h : Alive e₀ cmds s left)
    (hinv : Inv e₀ (cmds ++ [.makeShutdown]) s done) (hleft : left = stepsLeft (cmds ++ [.makeShutdown]) done s)
    {cmd : Command} (hloop : s.loop = .received cmd) :
    ∃ a s' r m, s.step a = some (s', r) ∧ Alive e₀ cmds s' m ∧ m < left := by
  obtain ⟨pushed, popped, hq, hlist, hwork⟩ := hinv.queue
  rw [hloop] at hwork
  -- the command is one of those still to be worked off
  have hlen := (hq.fifo.trans (List.prefix_append pushed s.todo)).length_le
  rw [hlist, show popped = done ++ [cmd] from hwork, List.length_append, List.length_singleton] at hlen
  have hturn : s.turnDone = 4 := by
    unfold turnDone
    rw [hloop]
  by_cases hcmd : cmd.type = .shutdown
  · have hstep : s.step .apply = some ({ s with loop := .exited }, none) := by
      simp only [step, hloop, hcmd, if_true]
    refine ⟨_, _, _, _, hstep, ⟨⟨done, hinv.exit hloop hcmd, rfl⟩, h.room, h.engine⟩, ?_⟩
    have hexit : ({ s with loop := .exited } : Pipeline).turnDone = 5 := rfl
    rw [hleft]
    unfold stepsLeft
    rw [hexit, hturn]
    dsimp only
    omega
  · obtain ⟨r, hr⟩ := h.engine
    obtain ⟨e, happly, he⟩ := MatchingEngine.apply_refines _ _ cmd hr
    have hstep : s.step .apply = some ({ s with engine := e, loop := .popping }, some cmd) := by
      simp only [step, hloop, if_neg hcmd, happly, Option.map_some]
    refine ⟨_, _, _, _, hstep, ⟨⟨done ++ [cmd], hinv.apply hloop hcmd happly, rfl⟩, h.room, _, he⟩, ?_⟩
    rw [hleft]
    unfold stepsLeft
    rw [hturn]
    simp only [List.length_append, List.length_singleton] at hlen ⊢
    omega

/-- The step lemma: whatever the two threads are at, one of them can bring the end nearer. -/
theorem Alive.advances {cmds : List Command} {left : Nat} (h : Alive e₀ cmds s left) (hloop : s.loop ≠ .exited) :
    ∃ a s' r m, s.step a = some (s', r) ∧ Alive e₀ cmds s' m ∧ m < left := by
  obtain ⟨done, hinv, hleft⟩ := h.inv
  cases hl : s.loop with
  | exited => exact absurd hl hloop
  | received cmd => exact h.turn hinv hleft hl
  | popping =>
    obtain ⟨pushed, popped, hq, hlist, hwork⟩ := hinv.queue
    rw [hl] at hwork
    obtain rfl : popped = done := hwork
    by_cases hlt : popped.length < pushed.length
    · exact h.consumer hinv hleft hl hq hlist hlt
    · have hle := hq.fifo.length_le
      have hroom := h.room
      cases htodo : s.todo with
      | nil =>
        -- all is popped, so the sentinel would have been applied
        rw [htodo, List.append_nil] at hlist
        have hall : popped = pushed := hq.fifo.eq_of_length (by omega)
        have hmem : (.makeShutdown : Command) ∈ popped := by
          rw [hall, hlist]
          simp
        exact absurd rfl (hinv.events _ hmem)
      | cons value todo => exact h.producer hinv hleft hq (by omega) htodo

theorem step_capacity {a : PipelineAct} {r : Option Command} (h : s.step a = some (s', r)) :
    s'.spsc.queue.capacity = s.spsc.queue.capacity := by
  cases a with
  | queue act =>
    simp only [step] at h
    split at h
    · split at h
      · obtain ⟨q, hq, h⟩ := Option.map_eq_some_iff.1 h
        cases h
        exact Spsc.step_capacity hq
      · cases h
    · split at h
      · obtain ⟨q, hq, h⟩ := Option.map_eq_some_iff.1 h
        cases h
        exact Spsc.step_capacity hq
      · cases h
  | apply =>
    simp only [step] at h
    split at h
    · split at h
      · cases h
        rfl
      · obtain ⟨e, -, h⟩ := Option.map_eq_some_iff.1 h
        cases h
        rfl
    · cases h

/-- **The pipeline never gets stuck.** From every state that any interleaving can reach, some
continuation completes, within four steps for each command still to be pushed and five for each still
to be applied, the sentinel included. -/
theorem completion_reachable (queueCapacity : UInt64) (hcap : queueCapacity.toNat ≤ 2 ^ 63) (stp : SelfTradePolicy)
    (poolCapacity : UInt64) (risk : Option RiskConfig) (host : Option ByteOrder) (cmds : List Command) :
    ∃ e₀, MatchingEngine.fresh stp poolCapacity risk host = some e₀ ∧
      ∀ acts s outs, Machine.run step (start queueCapacity e₀ cmds) acts = some (s, outs) →
        ∃ more s' outs', Machine.run step s more = some (s', outs') ∧ s'.loop = .exited ∧
          more.length ≤ 4 * s.todo.length + 5 * (cmds.length + 1 - (outs.filterMap id).length) := by
  obtain ⟨e₀, hr, h₀⟩ := MatchingEngine.fresh_spec stp poolCapacity risk host
  refine ⟨e₀, hr, fun acts s outs hacts => ?_⟩
  have hinv := (Inv.start queueCapacity e₀ cmds).run hacts
  rw [List.nil_append] at hinv
  obtain ⟨k, -, -, hround, -⟩ := roundUpPow2_spec hcap
  have hroom : s.spsc.queue.capacity = roundUpPow2 queueCapacity :=
    Machine.run_invariant (P := fun s : Pipeline => s.spsc.queue.capacity = roundUpPow2 queueCapacity)
      (Q := fun _ => True) (fun _ _ _ _ h hs _ => (step_capacity hs).trans h) rfl hacts fun _ _ => trivial
  obtain ⟨trades, hrun⟩ := hinv.engine
  obtain ⟨e, hrun', he⟩ := MatchingEngine.apply_refines.run h₀ (outs.filterMap id)
  rw [hrun] at hrun'
  cases hrun'
  have halive : Alive e₀ cmds s (stepsLeft (cmds ++ [.makeShutdown]) (outs.filterMap id) s) :=
    ⟨⟨_, hinv, rfl⟩, by rw [hroom, hround]; exact Nat.two_pow_pos k, _, he⟩
  obtain ⟨more, s', outs', hmore, hexit, hlen⟩ :=
    Machine.run_of_variant (fun s : Pipeline => s.loop = .exited) (fun _ _ h hl => h.advances hl) halive
  refine ⟨more, s', outs', hmore, hexit, hlen.trans ?_⟩
  unfold stepsLeft
  rw [List.length_append, List.length_singleton]
  omega

/-- One command and the sentinel, over a queue of two. -/
theorem completion_reachable_two :
    ∃ e₀, MatchingEngine.fresh .none 4 none none = some e₀ ∧
      ∀ acts s outs, Machine.run step (start 2 e₀ [.makeCancel 1]) acts = some (s, outs) →
        ∃ more s' outs', Machine.run step s more = some (s', outs') ∧ s'.loop = .exited ∧
          more.length ≤ 4 * s.todo.length + 5 * (2 - (outs.filterMap id).length) :=
  completion_reachable 2 (by decide) .none 4 none none [.makeCancel 1]

end Pipeline

end Obe
