/-
Sessions of one engine: a controlling thread that calls `start`, `queue().push` and `drain_and_join`
in any order, interleaved with the consumer loop of the worker there may be. A sentinel that no worker
was there to take stays in the queue and ends the next session, so a `drain_and_join` has everything
applied exactly when no command was pushed behind such a sentinel.
-/
import OrderBookEngine.Queue.Pipeline

namespace Obe

open Bytes (ByteOrder)

inductive LifecycleCall
  | start
  | push (cmd : Command)
  | drainAndJoin
  deriving DecidableEq, Repr

/-- Where the controlling thread is: between two calls, in a `push` of its own, or in
`drain_and_join` before or after its sentinel was pushed. -/
inductive Control
  | idle
  | pushing (cmd : Command)
  | draining
  | joining
  deriving DecidableEq, Repr

/-- What the calls of the controlling thread and the worker report. A `drained` tells whether there
was a worker to join. -/
inductive LifecycleEvent
  | started
  | pushed (cmd : Command)
  | refused (cmd : Command)
  | drained (joined : Bool)
  | applied (cmd : Command)
  deriving DecidableEq, Repr

/-- `worker` is `none` when it is not joinable. -/
structure Lifecycle where
  spsc : Spsc Command
  control : Control
  worker : Option Loop
  engine : MatchingEngine

/-- A call begins, either thread makes a step on the queue, the worker works on the command it
received, or `join` returns. -/
inductive LifecycleAct
  | call (c : LifecycleCall)
  | queue (act : SpscAct Command)
  | apply
  | join
  deriving DecidableEq, Repr

namespace Control

/-- What the call under way has to push. -/
def todo : Control → List Command
  | .pushing cmd => [cmd]
  | .draining => [.makeShutdown]
  | _ => []

/-- `push` returns either way, and `drain_and_join` pushes again until it succeeds. -/
def next : Control → Option (QueueRet Command) → Control
  | .pushing _, some (.pushed _) => .idle
  | .pushing _, some (.refused _) => .idle
  | .draining, some (.pushed _) => .joining
  | c, _ => c

def report : Control → Option (QueueRet Command) → Option LifecycleEvent
  | .pushing cmd, some (.pushed _) => some (.pushed cmd)
  | .pushing cmd, some (.refused _) => some (.refused cmd)
  | _, _ => none

@[simp] theorem next_none (c : Control) : c.next none = c := by cases c <;> rfl

@[simp] theorem report_none (c : Control) : c.report none = none := by cases c <;> rfl

/-- The sentinel of a `drain_and_join` that has not returned. -/
def sentinel : Control → List Command
  | .joining => [.makeShutdown]
  | _ => []

end Control

namespace Spsc

/-- A new consumer thread sees every tail published before its creation. -/
def spawn (s : Spsc Command) : Spsc Command := { s with tailRead := s.tails.length - 1 }

/-- After a join the producer sees every head the consumer published. -/
def join (s : Spsc Command) : Spsc Command := { s with headRead := s.heads.length - 1 }

end Spsc

namespace Lifecycle

def create (queueCapacity : UInt64) (engine : MatchingEngine) : Lifecycle :=
  { spsc := .create queueCapacity, control := .idle, worker := none, engine }

/-- A `start` over a joinable worker terminates the program. -/
def call (s : Lifecycle) : LifecycleCall → Option (Lifecycle × Option LifecycleEvent)
  | .start =>
    if s.worker = none then some ({ s with spsc := s.spsc.spawn, worker := some .popping }, some .started) else none
  | .push cmd => some ({ s with control := .pushing cmd }, none)
  | .drainAndJoin => some ({ s with control := .draining }, none)

def step (s : Lifecycle) : LifecycleAct → Option (Lifecycle × Option LifecycleEvent)
  | .call c => if s.control = .idle then s.call c else none
  | .queue act =>
    if act.ofConsumer then
      match s.worker with
      | some .popping =>
        (s.spsc.step act).map fun r => ({ s with spsc := r.1, worker := some (Pipeline.next r.2) }, none)
      | _ => none
    else if act.begins s.control.todo then
      (s.spsc.step act).map fun r => ({ s with spsc := r.1, control := s.control.next r.2 }, s.control.report r.2)
    else none
  | .apply =>
    match s.worker with
    | some (.received cmd) =>
      if cmd.type = .shutdown then some ({ s with worker := some .exited }, none)
      else (s.engine.apply cmd).map fun r => ({ s with engine := r.1, worker := some .popping }, some (.applied cmd))
    | _ => none
  | .join =>
    match s.control, s.worker with
    | .joining, none => some ({ s with control := .idle }, some (.drained false))
    | .joining, some .exited =>
      some ({ s with spsc := s.spsc.join, control := .idle, worker := none }, some (.drained true))
    | _, _ => none

end Lifecycle

/-! ## What a run reported -/

namespace LifecycleEvent

def pushed? : LifecycleEvent → Option Command
  | .pushed cmd => some cmd
  | _ => none

def applied? : LifecycleEvent → Option Command
  | .applied cmd => some cmd
  | _ => none

/-- What the call put into the queue. -/
def sent? : LifecycleEvent → Option Command
  | .pushed cmd => some cmd
  | .drained _ => some .makeShutdown
  | _ => none

def isDrained : LifecycleEvent → Bool
  | .drained _ => true
  | _ => false

end LifecycleEvent

section Reports

/-- The commands whose push succeeded, in order. -/
def pushes (evs : List LifecycleEvent) : List Command := evs.filterMap LifecycleEvent.pushed?

/-- The commands that were applied, in order. -/
def applied (evs : List LifecycleEvent) : List Command := evs.filterMap LifecycleEvent.applied?

def sent (evs : List LifecycleEvent) : List Command := evs.filterMap LifecycleEvent.sent?

def starts (evs : List LifecycleEvent) : Nat := evs.count .started

def drains (evs : List LifecycleEvent) : Nat := evs.countP LifecycleEvent.isDrained

/-- The `drain_and_join` calls that joined a worker. -/
def joins (evs : List LifecycleEvent) : Nat := evs.count (.drained true)

/-- Every command was pushed after fewer `drain_and_join` calls than there were `start` calls in all. -/
def Timely (evs : List LifecycleEvent) : Prop :=
  ∀ before cmd after, evs = before ++ .pushed cmd :: after → drains before < starts evs

theorem pushes_append (evs evs' : List LifecycleEvent) : pushes (evs ++ evs') = pushes evs ++ pushes evs' :=
  List.filterMap_append

theorem applied_append (evs evs' : List LifecycleEvent) : applied (evs ++ evs') = applied evs ++ applied evs' :=
  List.filterMap_append

theorem sent_append (evs evs' : List LifecycleEvent) : sent (evs ++ evs') = sent evs ++ sent evs' :=
  List.filterMap_append

theorem starts_append (evs evs' : List LifecycleEvent) : starts (evs ++ evs') = starts evs + starts evs' :=
  List.count_append

theorem joins_append (evs evs' : List LifecycleEvent) : joins (evs ++ evs') = joins evs + joins evs' :=
  List.count_append

/-- A program that calls `drain_and_join` only when there is a worker leaves no sentinel. -/
theorem Timely.of_joined {evs : List LifecycleEvent} (h : .drained false ∉ evs) (hs : joins evs < starts evs) :
    Timely evs := by
  rintro before cmd after rfl
  have hdrains : drains before = joins before := by
    refine List.countP_congr fun ev hev => ?_
    cases ev with
    | drained joined =>
      cases joined with
      | false => exact absurd (List.mem_append_left _ hev) h
      | true => decide
    | started => decide
    | pushed cmd => simp [LifecycleEvent.isDrained]
    | refused cmd => simp [LifecycleEvent.isDrained]
    | applied cmd => simp [LifecycleEvent.isDrained]
  rw [joins_append] at hs
  omega

/-- What a call reports when its push ends is what it put into the queue. -/
theorem Control.report_spec (c : Control) {r : Option (QueueRet Command)}
    (h : ∀ value, r = some (.pushed value) → c.todo.head? = some value) :
    sent (c.report r).toList ++ (c.next r).sentinel = c.sentinel ++ pushedValues [r] ∧
      applied (c.report r).toList = [] ∧ starts (c.report r).toList = 0 ∧ joins (c.report r).toList = 0 ∧
      ∀ cmd ∈ pushes (c.report r).toList, c = .pushing cmd := by
  rcases r with - | value | value | value | -
  · rw [report_none, next_none]
    exact ⟨(List.append_nil _).symm, rfl, rfl, rfl, nofun⟩
  · have hvalue := h value rfl
    cases c with
    | idle => cases hvalue
    | pushing cmd =>
      obtain rfl : cmd = value := Option.some.inj hvalue
      exact ⟨rfl, rfl, rfl, rfl, fun c hc => by rw [List.mem_singleton.1 hc]⟩
    | draining =>
      obtain rfl : Command.makeShutdown = value := Option.some.inj hvalue
      exact ⟨rfl, rfl, rfl, rfl, nofun⟩
    | joining => cases hvalue
  · cases c <;> exact ⟨rfl, rfl, rfl, rfl, nofun⟩
  · cases c <;> exact ⟨rfl, rfl, rfl, rfl, nofun⟩
  · cases c <;> exact ⟨rfl, rfl, rfl, rfl, nofun⟩

theorem Control.report_ne_drained (c : Control) (r : Option (QueueRet Command)) (joined : Bool) :
    c.report r ≠ some (.drained joined) := by
  unfold report
  split
  · nofun
  · nofun
  · nofun

theorem Control.pushing_of_next {c : Control} {r : Option (QueueRet Command)} {cmd : Command}
    (h : c.next r = .pushing cmd) : c = .pushing cmd := by
  rcases r with - | value | value | value | -
  · rwa [next_none] at h
  · cases c <;> cases h
  · cases c <;> cases h
  · cases c <;> exact h
  · cases c <;> exact h

end Reports

/-! ## Sentinels in the queue -/

section Sentinels

variable {l p rest : List Command} {cmd : Command}

def shutdowns (l : List Command) : Nat := l.countP (·.type = .shutdown)

/-- The commands between the sentinels. -/
def orders (l : List Command) : List Command := l.filter (·.type ≠ .shutdown)

@[simp] theorem shutdowns_nil : shutdowns [] = 0 := rfl

@[simp] theorem orders_nil : orders [] = [] := rfl

@[simp] theorem shutdowns_append (l l' : List Command) : shutdowns (l ++ l') = shutdowns l + shutdowns l' :=
  List.countP_append

@[simp] theorem orders_append (l l' : List Command) : orders (l ++ l') = orders l ++ orders l' :=
  List.filter_append ..

theorem shutdowns_sentinel (h : cmd.type = .shutdown) (l : List Command) : shutdowns (cmd :: l) = shutdowns l + 1 :=
  List.countP_cons_of_pos (by simpa using h)

theorem orders_sentinel (h : cmd.type = .shutdown) (l : List Command) : orders (cmd :: l) = orders l :=
  List.filter_cons_of_neg (by simpa using h)

theorem shutdowns_order (h : cmd.type ≠ .shutdown) (l : List Command) : shutdowns (cmd :: l) = shutdowns l :=
  List.countP_cons_of_neg (by simpa using h)

theorem orders_order (h : cmd.type ≠ .shutdown) (l : List Command) : orders (cmd :: l) = cmd :: orders l :=
  List.filter_cons_of_pos (by simpa using h)

/-- Nothing is left behind a sentinel exactly when no command has more sentinels in front. -/
theorem orders_before_sentinel (hcmd : cmd.type = .shutdown) (hl : l = p ++ cmd :: rest) :
    orders p = orders l ↔ ∀ l₁ c l₂, l = l₁ ++ c :: l₂ → c.type ≠ .shutdown → shutdowns l₁ ≤ shutdowns p := by
  have hsplit : orders l = orders p ++ orders rest := by rw [hl, orders_append, orders_sentinel hcmd]
  have hnil : orders p = orders l ↔ orders rest = [] := by
    rw [hsplit]
    exact List.self_eq_append_right
  rw [hnil]
  constructor
  · intro h l₁ c l₂ he hc
    rw [hl] at he
    rcases List.append_eq_append_iff.1 he with ⟨m, rfl, hm⟩ | ⟨m, rfl, -⟩
    · -- behind the sentinel there is no command
      cases m with
      | nil => simp
      | cons x m =>
        have hrest : rest = m ++ c :: l₂ := (List.cons.inj hm).2
        rw [hrest, orders_append, orders_order hc] at h
        simp at h
    · rw [shutdowns_append]
      exact Nat.le_add_right _ _
  · intro h
    refine List.filter_eq_nil_iff.2 fun c hc => ?_
    obtain ⟨a, b, rfl⟩ := List.append_of_mem hc
    by_contra hne
    have := h (p ++ cmd :: a) c b (by rw [hl]; simp) (by simpa using hne)
    rw [shutdowns_append, shutdowns_sentinel hcmd] at this
    omega

end Sentinels

theorem orders_sent {evs : List LifecycleEvent} (h : ∀ cmd ∈ pushes evs, cmd.type ≠ .shutdown) :
    orders (sent evs) = pushes evs ∧ shutdowns (sent evs) = drains evs := by
  induction evs with
  | nil => exact ⟨rfl, rfl⟩
  | cons ev evs ih =>
    cases ev with
    | pushed cmd =>
      obtain ⟨h1, h2⟩ := ih fun c hc => h c (List.mem_cons_of_mem _ hc)
      have hcmd := h cmd (List.mem_cons_self ..)
      exact ⟨(orders_order hcmd _).trans (congrArg _ h1), (shutdowns_order hcmd _).trans h2⟩
    | drained joined =>
      obtain ⟨h1, h2⟩ := ih h
      exact ⟨(orders_sentinel rfl _).trans h1, ((shutdowns_sentinel rfl _).trans (congrArg (· + 1) h2)).trans
        (List.countP_cons_of_pos rfl).symm⟩
    | started => exact ih h
    | refused cmd => exact ih h
    | applied cmd => exact ih h

/-- The sentinels in front of a command are the `drain_and_join` calls before its push. -/
theorem sentinels_before {evs : List LifecycleEvent} (h : ∀ cmd ∈ pushes evs, cmd.type ≠ .shutdown) (n : Nat) :
    (∀ l₁ c l₂, sent evs ++ [.makeShutdown] = l₁ ++ c :: l₂ → c.type ≠ .shutdown → shutdowns l₁ ≤ n) ↔
      ∀ before cmd after, evs = before ++ .pushed cmd :: after → drains before ≤ n := by
  constructor
  · rintro hl before cmd after rfl
    have hmem : ∀ c ∈ pushes before, c.type ≠ .shutdown := by
      intro c hc
      exact h c (by rw [pushes_append]; exact List.mem_append_left _ hc)
    have hcmd : cmd.type ≠ .shutdown := by
      refine h cmd ?_
      rw [pushes_append]
      exact List.mem_append_right _ (List.mem_cons_self ..)
    rw [← (orders_sent hmem).2]
    refine hl (sent before) cmd (sent after ++ [.makeShutdown]) ?_ hcmd
    rw [sent_append, List.append_assoc]
    rfl
  · intro hevs l₁ c l₂ hl hc
    have hl' : sent (evs ++ [.drained true]) = l₁ ++ c :: l₂ := (sent_append evs [.drained true]).trans hl
    obtain ⟨e₁, e₂, he, h1, h2⟩ := List.filterMap_eq_append_iff.1 hl'
    obtain ⟨m₁, ev, m₂, rfl, -, hev, -⟩ := List.filterMap_eq_cons_iff.1 h2
    obtain rfl : ev = .pushed c := by
      cases ev with
      | pushed cmd => rw [Option.some.inj hev]
      | drained joined => exact absurd (by rw [← Option.some.inj hev]; rfl) hc
      | started => cases hev
      | refused cmd => cases hev
      | applied cmd => cases hev
    -- the last event is not a push
    rcases List.eq_nil_or_concat m₂ with rfl | ⟨m, last, rfl⟩
    · rw [← List.append_assoc] at he
      cases (List.append_inj' he rfl).2
    · rw [List.concat_eq_append, ← List.cons_append, ← List.append_assoc, ← List.append_assoc] at he
      have hevs' := (List.append_inj' he rfl).1
      have hmem : ∀ c ∈ pushes e₁, c.type ≠ .shutdown := by
        intro c' hc'
        refine h c' ?_
        rw [hevs', pushes_append, pushes_append]
        exact List.mem_append_left _ (List.mem_append_left _ hc')
      have hle := hevs (e₁ ++ m₁) c m hevs'
      rw [← h1]
      refine Nat.le_trans (Nat.le_of_eq (orders_sent hmem).2) (Nat.le_trans ?_ hle)
      unfold drains
      rw [List.countP_append]
      exact Nat.le_add_right _ _

/-! ## The invariant -/

namespace Spsc.Inv

variable {s : Spsc Command} {pushed popped : List Command}

theorem spawn (h : s.Inv pushed popped) : s.spawn.Inv pushed popped := by
  have hlast : s.tails.length - 1 = pushed.length := by
    rw [h.tails]
    unfold published
    simp
  have hle : s.tailRead ≤ s.tails.length - 1 := by rw [hlast]; exact h.there
  have hconsumer : s.consumer.Holds popped.length (s.tails.length - 1) pushed := by
    have hholds := h.consumer
    cases hc : s.consumer with
    | idle => trivial
    | headLoaded head => rwa [hc] at hholds
    | tailLoaded head =>
      rw [hc] at hholds
      exact ⟨hholds.1, Nat.lt_of_lt_of_le hholds.2 hle⟩
    | movedOut head out =>
      rw [hc] at hholds
      exact ⟨hholds.1, Nat.lt_of_lt_of_le hholds.2.1 hle, hholds.2.2⟩
  exact { h with tailRead := Nat.le_trans h.tailRead hle, there := Nat.le_of_eq hlast, consumer := hconsumer }

theorem join (h : s.Inv pushed popped) : s.join.Inv pushed popped := by
  have hlast : s.heads.length - 1 = popped.length := by
    rw [h.heads]
    unfold published
    simp
  have hle : s.headRead + s.queue.capacity.toNat ≤ s.heads.length - 1 + s.queue.capacity.toNat := by
    rw [hlast]
    exact Nat.add_le_add_right h.headRead _
  have hproducer : s.producer.Holds pushed.length (s.heads.length - 1 + s.queue.capacity.toNat) := by
    have hholds := h.producer
    cases hp : s.producer with
    | idle => trivial
    | tailLoaded value tail => rwa [hp] at hholds
    | headLoaded value tail =>
      rw [hp] at hholds
      exact ⟨hholds.1, Nat.lt_of_lt_of_le hholds.2 hle⟩
    | constructed value tail =>
      rw [hp] at hholds
      exact ⟨hholds.1, Nat.lt_of_lt_of_le hholds.2 hle⟩
  exact { h with headRead := Nat.le_of_eq hlast, room := Nat.le_trans h.room hle, producer := hproducer }

end Spsc.Inv

namespace Lifecycle

/-- `took` is what the sessions took whose sentinels are `n`. -/
def Took (evs : List LifecycleEvent) (n : Nat) (took : List Command) : Prop :=
  orders took = applied evs ∧ shutdowns took = n

/-- Every session took one sentinel; the worker of the present one not before it leaves its loop. -/
def Working (evs : List LifecycleEvent) (popped : List Command) : Option Loop → Prop
  | none => Took evs (starts evs) popped
  | some .popping => 0 < starts evs ∧ Took evs (starts evs - 1) popped
  | some (.received cmd) => 0 < starts evs ∧ ∃ took, popped = took ++ [cmd] ∧ Took evs (starts evs - 1) took
  | some .exited => 0 < starts evs ∧ ∃ took cmd, cmd.type = .shutdown ∧ popped = took ++ [cmd] ∧
      Took evs (starts evs - 1) took

/-- The sessions of an engine `e₀`, after `evs`. -/
structure Inv (e₀ : MatchingEngine) (s : Lifecycle) (evs : List LifecycleEvent) : Prop where
  queue : ∃ popped, s.spsc.Inv (sent evs ++ s.control.sentinel) popped ∧ Working evs popped s.worker
  value : ∀ value, s.spsc.producer.value = some value → s.control.todo.head? = some value
  pushing : ∀ cmd, s.control = .pushing cmd → cmd.type ≠ .shutdown
  pushed : ∀ cmd ∈ pushes evs, cmd.type ≠ .shutdown
  sessions : starts evs = joins evs + s.worker.toList.length
  engine : ∃ outs, Machine.run MatchingEngine.apply e₀ (applied evs) = some (s.engine, outs)

variable {e₀ : MatchingEngine} {s s' : Lifecycle} {evs : List LifecycleEvent}

theorem Inv.create (queueCapacity : UInt64) (e₀ : MatchingEngine) : Inv e₀ (create queueCapacity e₀) [] :=
  ⟨⟨[], Spsc.create_inv queueCapacity, rfl, rfl⟩, fun _ h => (by cases h), fun _ h => (by cases h),
    fun _ h => (by cases h), rfl, [], rfl⟩

theorem Working.congr {evs' : List LifecycleEvent} (hs : starts evs' = starts evs) (ha : applied evs' = applied evs)
    {popped : List Command} {w : Option Loop} (h : Working evs popped w) : Working evs' popped w := by
  unfold Working Took at h ⊢
  rwa [hs, ha]

/-- A call begins. -/
theorem Inv.call (h : Inv e₀ s evs) (hidle : s.control = .idle) {c : LifecycleCall} {r : Option LifecycleEvent}
    (hc : ∀ cmd, c = .push cmd → cmd.type ≠ .shutdown) (hs : s.call c = some (s', r)) :
    Inv e₀ s' (evs ++ r.toList) := by
  obtain ⟨popped, hq, hwork⟩ := h.queue
  have hidle' : s.spsc.producer.value = none := by
    cases hv : s.spsc.producer.value with
    | none => rfl
    | some value =>
      have := h.value value hv
      rw [hidle] at this
      cases this
  rw [hidle] at hq
  cases c with
  | start =>
    simp only [Lifecycle.call] at hs
    split at hs
    · rename_i hw
      cases hs
      rw [hw] at hwork
      have hstarts : starts (evs ++ [.started]) = starts evs + 1 := starts_append evs [.started]
      have hjoins : joins (evs ++ [.started]) = joins evs := joins_append evs [.started]
      have hsessions := h.sessions
      rw [hw] at hsessions
      constructor
      case queue =>
        refine ⟨popped, ?_, ?_⟩
        · rw [hidle, Option.toList_some, sent_append]
          exact (List.append_nil (sent evs)).symm ▸ hq.spawn
        · rw [Option.toList_some]
          unfold Working Took
          rw [hstarts, applied_append]
          exact ⟨Nat.succ_pos _, hwork.1.trans (List.append_nil _).symm, hwork.2⟩
      case value => exact h.value
      case pushing => exact h.pushing
      case pushed =>
        rw [Option.toList_some, pushes_append]
        exact (List.append_nil (pushes evs)).symm ▸ h.pushed
      case sessions =>
        rw [Option.toList_some, hstarts, hjoins, hsessions]
        rfl
      case engine =>
        rw [Option.toList_some, applied_append]
        exact (List.append_nil (applied evs)).symm ▸ h.engine
    · cases hs
  | push cmd =>
    cases hs
    rw [Option.toList_none, List.append_nil]
    refine { h with queue := ⟨popped, hq, hwork⟩, value := fun v hv => ?_, pushing := fun c' hc' => ?_ }
    · rw [show s.spsc.producer.value = some v from hv] at hidle'
      cases hidle'
    · cases hc'
      exact hc cmd rfl
  | drainAndJoin =>
    cases hs
    rw [Option.toList_none, List.append_nil]
    refine { h with queue := ⟨popped, hq, hwork⟩, value := fun v hv => ?_, pushing := nofun }
    rw [show s.spsc.producer.value = some v from hv] at hidle'
    cases hidle'

/-- A consumer step on the queue: at most the received command is new. -/
theorem Inv.consumer (h : Inv e₀ s evs) {act : SpscAct Command} {q : Spsc Command} {r : Option (QueueRet Command)}
    (ha : act.ofConsumer = true) (hw : s.worker = some .popping) (hs : s.spsc.step act = some (q, r)) :
    Inv e₀ { s with spsc := q, worker := some (Pipeline.next r) } evs := by
  obtain ⟨popped, hq, hwork⟩ := h.queue
  obtain ⟨hprod, hpush⟩ := Spsc.step_consumer ha hs
  have hq' := hq.step hs
  rw [hpush, List.append_nil] at hq'
  have hsessions := h.sessions
  rw [hw] at hwork hsessions
  refine { h with queue := ⟨_, hq', ?_⟩, value := fun v hv => h.value v (by rwa [hprod] at hv),
                  sessions := hsessions }
  have hquiet : popped ++ poppedValues ([none] : List (Option (QueueRet Command))) = popped := List.append_nil _
  cases r with
  | none => exact hquiet.symm ▸ hwork
  | some ret =>
    cases ret with
    | pushed value => exact hquiet.symm ▸ hwork
    | refused value => exact hquiet.symm ▸ hwork
    | popped value => exact ⟨hwork.1, popped, rfl, hwork.2⟩
    | empty => exact hquiet.symm ▸ hwork

/-- A step of a push: what succeeds is what the call under way had to push. -/
theorem Inv.producer (h : Inv e₀ s evs) {act : SpscAct Command} {q : Spsc Command} {r : Option (QueueRet Command)}
    (ha : act.ofConsumer = false) (hb : act.begins s.control.todo = true) (hs : s.spsc.step act = some (q, r)) :
    Inv e₀ { s with spsc := q, control := s.control.next r } (evs ++ (s.control.report r).toList) := by
  obtain ⟨popped, hq, hwork⟩ := h.queue
  have hq' := hq.step hs
  obtain ⟨hpop, hcase⟩ := Spsc.step_pushing ha hs
  have hvalue : ∀ value, r = some (.pushed value) → s.control.todo.head? = some value := by
    rintro value rfl
    rcases hcase with ⟨_, -, -, hr⟩ | ⟨-, hr⟩ | ⟨_, -, hr⟩ | ⟨_, hv, -, hr⟩
    · cases hr
    · cases hr
    · cases hr
    · cases hr
      exact h.value value hv
  obtain ⟨hsent, happlied, hstarts, hjoins, hpushes⟩ := s.control.report_spec hvalue
  rw [hpop, List.append_nil, List.append_assoc, ← hsent, ← List.append_assoc, ← sent_append] at hq'
  constructor
  case queue =>
    refine ⟨popped, hq', hwork.congr ?_ ?_⟩
    · rw [starts_append, hstarts, Nat.add_zero]
    · rw [applied_append, happlied, List.append_nil]
  case value =>
    -- the push that goes on is that of the same call
    intro v hv'
    show (s.control.next r).todo.head? = some v
    rcases hcase with ⟨value, rfl, hv, rfl⟩ | ⟨hv, rfl⟩ | ⟨value, hv, rfl⟩ | ⟨value, -, hv, rfl⟩
    · obtain rfl : value = v := by rw [hv] at hv'; exact Option.some.inj hv'
      rw [Control.next_none]
      simpa [SpscAct.begins] using hb
    · rw [Control.next_none]
      exact h.value v (by rwa [hv] at hv')
    · rw [hv] at hv'; cases hv'
    · rw [hv] at hv'; cases hv'
  case pushing =>
    intro cmd hc
    exact h.pushing cmd (Control.pushing_of_next hc)
  case pushed =>
    intro cmd hc
    rw [pushes_append] at hc
    rcases List.mem_append.1 hc with hc | hc
    · exact h.pushed cmd hc
    · exact h.pushing cmd (hpushes cmd hc)
  case sessions =>
    rw [starts_append, joins_append, hstarts, hjoins]
    exact h.sessions
  case engine =>
    rw [applied_append, happlied, List.append_nil]
    exact h.engine

/-- The worker applies the command it received. -/
theorem Inv.apply (h : Inv e₀ s evs) {cmd : Command} (hw : s.worker = some (.received cmd)) {e : MatchingEngine}
    {n : Nat} (hcmd : cmd.type ≠ .shutdown) (ha : s.engine.apply cmd = some (e, n)) :
    Inv e₀ { s with engine := e, worker := some .popping } (evs ++ [.applied cmd]) := by
  obtain ⟨popped, hq, hwork⟩ := h.queue
  obtain ⟨outs, hrun⟩ := h.engine
  have hsessions := h.sessions
  rw [hw] at hwork hsessions
  obtain ⟨hpos, took, rfl, horders, hshut⟩ := hwork
  have hsent : sent (evs ++ [.applied cmd]) = sent evs := (sent_append evs [.applied cmd]).trans (List.append_nil _)
  have hstarts : starts (evs ++ [.applied cmd]) = starts evs := starts_append evs [.applied cmd]
  have hjoins : joins (evs ++ [.applied cmd]) = joins evs := joins_append evs [.applied cmd]
  have happlied : applied (evs ++ [.applied cmd]) = applied evs ++ [cmd] := applied_append evs [.applied cmd]
  have hpushes : pushes (evs ++ [.applied cmd]) = pushes evs :=
    (pushes_append evs [.applied cmd]).trans (List.append_nil _)
  constructor
  case queue =>
    refine ⟨took ++ [cmd], by rw [hsent]; exact hq, ?_⟩
    unfold Working Took
    rw [hstarts, happlied, orders_append, orders_order hcmd, horders, shutdowns_append, shutdowns_order hcmd]
    exact ⟨hpos, rfl, hshut⟩
  case value => exact h.value
  case pushing => exact h.pushing
  case pushed =>
    rw [hpushes]
    exact h.pushed
  case sessions =>
    rw [hstarts, hjoins]
    exact hsessions
  case engine =>
    rw [happlied]
    exact ⟨outs ++ [n], Machine.run_append hrun (by rw [Machine.run_cons _ ha]; rfl)⟩

/-- The worker leaves its loop. -/
theorem Inv.exit (h : Inv e₀ s evs) {cmd : Command} (hw : s.worker = some (.received cmd))
    (hcmd : cmd.type = .shutdown) : Inv e₀ { s with worker := some .exited } evs := by
  obtain ⟨popped, hq, hwork⟩ := h.queue
  have hsessions := h.sessions
  rw [hw] at hwork hsessions
  obtain ⟨hpos, took, rfl, htook⟩ := hwork
  exact { h with queue := ⟨_, hq, hpos, took, cmd, hcmd, rfl, htook⟩, sessions := hsessions }

/-- A `drain_and_join` returns, and leaves the queue to a later worker. -/
theorem Inv.drained (h : Inv e₀ s evs) (hc : s.control = .joining) (joined : Bool) {q : Spsc Command}
    {w : Option Loop} {popped : List Command} (hq : q.Inv (sent evs ++ [.makeShutdown]) popped)
    (hwork : Working evs popped w) (hp : q.producer = s.spsc.producer)
    (hsessions : starts evs = joins (evs ++ [.drained joined]) + w.toList.length) :
    Inv e₀ { s with spsc := q, control := .idle, worker := w } (evs ++ [.drained joined]) := by
  have hsent : sent (evs ++ [.drained joined]) = sent evs ++ [.makeShutdown] := sent_append evs [.drained joined]
  have hstarts : starts (evs ++ [.drained joined]) = starts evs := starts_append evs [.drained joined]
  have happlied : applied (evs ++ [.drained joined]) = applied evs :=
    (applied_append evs [.drained joined]).trans (List.append_nil _)
  have hpushes : pushes (evs ++ [.drained joined]) = pushes evs :=
    (pushes_append evs [.drained joined]).trans (List.append_nil _)
  constructor
  case queue =>
    refine ⟨popped, ?_, hwork.congr hstarts happlied⟩
    rw [hsent]
    exact (List.append_nil (sent evs ++ [Command.makeShutdown])).symm ▸ hq
  case value =>
    intro v hv
    have := h.value v (by rw [← hp]; exact hv)
    rw [hc] at this
    cases this
  case pushing => nofun
  case pushed =>
    rw [hpushes]
    exact h.pushed
  case sessions =>
    rw [hstarts]
    exact hsessions
  case engine =>
    rw [happlied]
    exact h.engine

/-- The session of the joined worker took the commands up to its sentinel. -/
theorem Inv.exited (h : Inv e₀ s evs) (hc : s.control = .joining) (hw : s.worker = some .exited) :
    ∃ took cmd rest, cmd.type = .shutdown ∧ sent evs ++ [.makeShutdown] = took ++ cmd :: rest ∧
      0 < starts evs ∧ Took evs (starts evs - 1) took := by
  obtain ⟨popped, hq, hwork⟩ := h.queue
  rw [hw] at hwork
  rw [hc] at hq
  obtain ⟨hpos, took, cmd, hcmd, rfl, htook⟩ := hwork
  obtain ⟨rest, hrest⟩ := hq.fifo
  refine ⟨took, cmd, rest, hcmd, ?_, hpos, htook⟩
  rw [List.append_assoc] at hrest
  exact hrest.symm

/-- Every step keeps the invariant, with what it reports. -/
theorem Inv.step (h : Inv e₀ s evs) {a : LifecycleAct} {r : Option LifecycleEvent}
    (ha : ∀ cmd, a = .call (.push cmd) → cmd.type ≠ .shutdown) (hs : s.step a = some (s', r)) :
    Inv e₀ s' (evs ++ r.toList) := by
  cases a with
  | call c =>
    simp only [Lifecycle.step] at hs
    split at hs
    · rename_i hidle
      exact h.call hidle (fun cmd hc => ha cmd (by rw [hc])) hs
    · cases hs
  | queue act =>
    simp only [Lifecycle.step] at hs
    split at hs
    · rename_i hact
      split at hs
      · rename_i hw
        obtain ⟨⟨q, ret⟩, hq, hs⟩ := Option.map_eq_some_iff.1 hs
        cases hs
        rw [Option.toList_none, List.append_nil]
        exact h.consumer hact hw hq
      · cases hs
    · rename_i hact
      split at hs
      · rename_i hb
        obtain ⟨⟨q, ret⟩, hq, hs⟩ := Option.map_eq_some_iff.1 hs
        cases hs
        exact h.producer (Bool.eq_false_iff.2 hact) hb hq
      · cases hs
  | apply =>
    simp only [Lifecycle.step] at hs
    split at hs
    · rename_i cmd hw
      split at hs
      · rename_i hcmd
        cases hs
        rw [Option.toList_none, List.append_nil]
        exact h.exit hw hcmd
      · rename_i hcmd
        obtain ⟨⟨e, n⟩, happly, hs⟩ := Option.map_eq_some_iff.1 hs
        cases hs
        exact h.apply hw hcmd happly
    · cases hs
  | join =>
    simp only [Lifecycle.step] at hs
    obtain ⟨popped, hq, hwork⟩ := h.queue
    split at hs
    · rename_i hc hw
      cases hs
      rw [hc] at hq
      refine h.drained hc false hq hwork rfl ?_
      rw [joins_append]
      exact h.sessions
    · rename_i hc hw
      cases hs
      rw [hc] at hq
      rw [hw] at hwork
      obtain ⟨hpos, took, cmd, hcmd, rfl, horders, hshut⟩ := hwork
      have hsessions := h.sessions
      rw [hw] at hsessions
      refine h.drained hc true hq.join (w := none) ⟨?_, ?_⟩ rfl ?_
      · rw [orders_append, orders_sentinel hcmd, orders_nil, List.append_nil, horders]
      · rw [shutdowns_append, shutdowns_sentinel hcmd, hshut, shutdowns_nil]
        omega
      · rw [joins_append]
        exact hsessions
    · cases hs

theorem Inv.run {acts : List LifecycleAct} {outs : List (Option LifecycleEvent)} (h : Inv e₀ s evs)
    (ha : ∀ cmd, .call (.push cmd) ∈ acts → cmd.type ≠ .shutdown)
    (hr : Machine.run Lifecycle.step s acts = some (s', outs)) : Inv e₀ s' (evs ++ outs.filterMap id) := by
  refine Machine.run_reports (fun t a t' r evs hmem ht hs => ?_) h hr
  exact ht.step (fun cmd he => ha cmd (he ▸ hmem)) hs

/-- Only `join` reports a joined worker, which has left its loop. -/
theorem step_drained {a : LifecycleAct} (h : s.step a = some (s', some (.drained true))) :
    s.control = .joining ∧ s.worker = some .exited := by
  cases a with
  | call c =>
    simp only [Lifecycle.step] at h
    split at h
    · cases c with
      | start =>
        simp only [Lifecycle.call] at h
        split at h <;> cases h
      | push cmd => cases h
      | drainAndJoin => cases h
    · cases h
  | queue act =>
    simp only [Lifecycle.step] at h
    split at h
    · split at h
      · obtain ⟨r, -, h⟩ := Option.map_eq_some_iff.1 h
        cases h
      · cases h
    · split at h
      · obtain ⟨r, -, h⟩ := Option.map_eq_some_iff.1 h
        exact absurd (congrArg Prod.snd h) (s.control.report_ne_drained r.2 true)
      · cases h
  | apply =>
    simp only [Lifecycle.step] at h
    split at h
    · split at h
      · cases h
      · obtain ⟨r, -, h⟩ := Option.map_eq_some_iff.1 h
        cases h
    · cases h
  | join =>
    simp only [Lifecycle.step] at h
    split at h
    · cases h
    · rename_i hc hw
      exact ⟨hc, hw⟩
    · cases h

/-- When `drain_and_join` joins a worker, everything is applied exactly when nothing came too late. -/
theorem Inv.applied_iff (h : Inv e₀ s evs) (hc : s.control = .joining) (hw : s.worker = some .exited) :
    applied evs = pushes evs ↔ Timely evs := by
  obtain ⟨took, cmd, rest, hcmd, hl, hpos, horders, hshut⟩ := h.exited hc hw
  have hpushes : orders (sent evs ++ [.makeShutdown]) = pushes evs := by
    rw [orders_append, (orders_sent h.pushed).1, orders_sentinel rfl, orders_nil, List.append_nil]
  have htimely : Timely evs ↔ ∀ before cmd after, evs = before ++ .pushed cmd :: after →
      drains before ≤ starts evs - 1 := by
    unfold Timely
    simp only [Nat.lt_iff_le_pred hpos]
  rw [htimely, ← sentinels_before h.pushed, ← hpushes, ← horders, ← hshut]
  exact orders_before_sentinel hcmd hl

/-- **Sessions lose nothing unless a command is pushed behind a sentinel that was left over.** For every
queue capacity, policy and gate, every sequence of calls and every interleaving with the consumer
loops: the engine is the one that applied its commands inline, and a `drain_and_join` that joins a
worker returns with every command pushed before it applied, once and in order, exactly when each of
them was pushed after fewer `drain_and_join` calls than there were `start` calls; it is so when every
earlier `drain_and_join` joined a worker. -/
theorem drained_iff (queueCapacity : UInt64) (stp : SelfTradePolicy) (poolCapacity : UInt64)
    (risk : Option RiskConfig) (host : Option ByteOrder) :
    ∃ e₀, MatchingEngine.fresh stp poolCapacity risk host = some e₀ ∧ ∀ acts s outs,
      (∀ cmd, .call (.push cmd) ∈ acts → cmd.type ≠ .shutdown) →
      Machine.run step (create queueCapacity e₀) acts = some (s, outs) →
      (∃ trades, Machine.run MatchingEngine.apply e₀ (applied (outs.filterMap id)) = some (s.engine, trades)) ∧
      ∀ before after, outs.filterMap id = before ++ .drained true :: after →
        (applied before = pushes before ↔ Timely before) ∧ (.drained false ∉ before → Timely before) := by
  obtain ⟨e₀, hr, -⟩ := MatchingEngine.fresh_spec stp poolCapacity risk host
  refine ⟨e₀, hr, fun acts s outs hacts hrun => ?_⟩
  have hstart := Inv.create queueCapacity e₀
  refine ⟨(hstart.run hacts hrun).engine, fun before after hevs => ?_⟩
  -- the state in which this `drain_and_join` returned
  obtain ⟨o₁, o₂, rfl, rfl, h2⟩ := List.filterMap_eq_append_iff.1 hevs
  obtain ⟨m₁, ev, m₂, rfl, hm, rfl, -⟩ := List.filterMap_eq_cons_iff.1 h2
  rw [← List.append_assoc] at hrun
  obtain ⟨acts₁, a, acts₂, t, t', rfl, hrun₁, hstep, -⟩ := Machine.run_split hrun
  have ht := hstart.run (fun cmd hc => hacts cmd (List.mem_append_left _ hc)) hrun₁
  have hquiet : m₁.filterMap id = [] := List.filterMap_eq_nil_iff.2 hm
  rw [List.nil_append, List.filterMap_append, hquiet, List.append_nil] at ht
  obtain ⟨hc, hw⟩ := step_drained hstep
  refine ⟨ht.applied_iff hc hw, fun hall => Timely.of_joined hall ?_⟩
  have hsessions := ht.sessions
  rw [hw] at hsessions
  rw [hsessions]
  exact Nat.lt_succ_self _

/-! ## A session that loses a command -/

section Undisturbed

variable {q : Spsc Command} {value : Command} {place : Nat}

/-- A push of the call under way, undisturbed. -/
theorem push_run (htodo : s.control.todo = [value])
    (h : Machine.run Spsc.step s.spsc [.pushTail value, .pushHead place, .construct, .publishTail] =
      some (q, [none, none, none, some (.pushed value)])) :
    Machine.run step s [.queue (.pushTail value), .queue (.pushHead place), .queue .construct, .queue .publishTail] =
      some ({ s with spsc := q, control := s.control.next (some (.pushed value)) },
        [none, none, none, s.control.report (some (.pushed value))]) := by
  obtain ⟨q₁, q₂, q₃, h₁, h₂, h₃, h₄⟩ := Machine.run_four h
  simp [Machine.run, step, SpscAct.ofConsumer, SpscAct.begins, htodo, h₁, h₂, h₃, h₄]

/-- A pop of the worker, undisturbed. -/
theorem pop_run (hw : s.worker = some .popping)
    (h : Machine.run Spsc.step s.spsc [.popHead, .popTail place, .moveOut, .publishHead] =
      some (q, [none, none, none, some (.popped value)])) :
    Machine.run step s [.queue .popHead, .queue (.popTail place), .queue .moveOut, .queue .publishHead] =
      some ({ s with spsc := q, worker := some (.received value) }, [none, none, none, none]) := by
  obtain ⟨q₁, q₂, q₃, h₁, h₂, h₃, h₄⟩ := Machine.run_four h
  simp [Machine.run, step, SpscAct.ofConsumer, Pipeline.next, hw, h₁, h₂, h₃, h₄]

end Undisturbed

/-- A `drain_and_join` before the first `start` leaves the sentinel that ends the first session. -/
theorem early_drain_loses :
    ∃ e₀ acts s outs before, MatchingEngine.fresh .none 0 none none = some e₀ ∧
      (∀ cmd, .call (.push cmd) ∈ acts → cmd.type ≠ .shutdown) ∧
      Machine.run step (create 4 e₀) acts = some (s, outs) ∧ outs.filterMap id = before ++ [.drained true] ∧
      before = [.drained false, .started, .pushed (.makeCancel 1)] ∧ applied before ≠ pushes before := by
  obtain ⟨e₀, hr, -⟩ := MatchingEngine.fresh_spec .none 0 none none
  have hcap : ∀ {q q' : SpscRingBuffer Command} {value b}, q.push value = (q', b) → q'.capacity = q.capacity := by
    intro q q' value b h
    rw [← q.push_capacity value, h]
  -- the sentinel that nobody takes
  obtain ⟨q₁, hpush₁, hp₁, hc₁, hq₁⟩ := Spsc.push_alone (Spsc.create_inv (T := Command) 4) rfl (by decide)
    .makeShutdown
  have hinv₁ : q₁.spawn.Inv [.makeShutdown] [] := ((Spsc.create_inv 4).run hpush₁).spawn
  have hcap₁ : q₁.spawn.queue.capacity = 4 := hcap hq₁
  -- the command behind it
  obtain ⟨q₂, hpush₂, hp₂, hc₂, hq₂⟩ := Spsc.push_alone hinv₁ hp₁ (by rw [hcap₁]; decide) (.makeCancel 1)
  have hinv₂ : q₂.Inv [.makeShutdown, .makeCancel 1] [] := hinv₁.run hpush₂
  have hcap₂ : q₂.queue.capacity = 4 := (hcap hq₂).trans hcap₁
  -- the worker takes the sentinel
  obtain ⟨q₃, hpop, hp₃, hc₃, hq₃⟩ := Spsc.pop_alone hinv₂ (hc₂.trans hc₁) (by decide)
  have hinv₃ : q₃.Inv [.makeShutdown, .makeCancel 1] [.makeShutdown] := hinv₂.run hpop
  have hcap₃ : q₃.queue.capacity = 4 := (SpscRingBuffer.pop_capacity hq₃).trans hcap₂
  obtain ⟨q₄, hpush₄, -⟩ := Spsc.push_alone hinv₃ (hp₃.trans hp₂) (by rw [hcap₃]; decide) .makeShutdown
  -- the calls and the worker's steps, one after the other
  have hcall : Machine.run step (create 4 e₀) [.call .drainAndJoin] =
      some ({ create 4 e₀ with control := .draining }, [none]) := rfl
  have hstart : Machine.run step { create 4 e₀ with spsc := q₁, control := .joining }
      [.join, .call .start, .call (.push (.makeCancel 1))] =
        some ({ create 4 e₀ with spsc := q₁.spawn, control := .pushing (.makeCancel 1), worker := some .popping },
          [some (.drained false), some .started, none]) := rfl
  have hexit : Machine.run step { create 4 e₀ with spsc := q₃, worker := some (.received .makeShutdown) }
      [.apply, .call .drainAndJoin] =
        some ({ create 4 e₀ with spsc := q₃, control := .draining, worker := some .exited }, [none, none]) := rfl
  have hjoin : Machine.run step { create 4 e₀ with spsc := q₄, control := .joining, worker := some .exited } [.join] =
      some ({ create 4 e₀ with spsc := q₄.join }, [some (.drained true)]) := rfl
  have hrun := Machine.run_append hcall (Machine.run_append (push_run rfl hpush₁) (Machine.run_append hstart
    (Machine.run_append (push_run rfl hpush₂) (Machine.run_append (pop_run rfl hpop) (Machine.run_append hexit
      (Machine.run_append (push_run rfl hpush₄) hjoin))))))
  refine ⟨e₀, _, _, _, [.drained false, .started, .pushed (.makeCancel 1)], hr, fun cmd hc => ?_, hrun, rfl, rfl,
    by decide⟩
  obtain rfl : cmd = .makeCancel 1 := by simpa using hc
  decide

end Lifecycle

end Obe
