/-
`size_approx` of a monitoring thread beside the producer and the consumer: it loads the two indices
one after the other, in the order the compiler chose, while the queue moves on. What it returns
is the tail it loaded less the head it loaded; the value is in range exactly when the thread whose
index is loaded second did not get ahead of what the first load saw.
-/
import OrderBookEngine.Queue.Lossless

namespace Obe

variable {T : Type _}

def SpscRingBuffer.sizeApprox (tail head : UInt64) : UInt64 := tail - head

/-- Which index is loaded first; the operands of the difference have no order of their own. -/
inductive LoadOrder
  | tailFirst
  | headFirst
  deriving DecidableEq, Repr

/-- Where the monitoring thread is in `size_approx`. -/
inductive Sizing
  | idle
  | loaded (order : LoadOrder) (index : UInt64)
  deriving DecidableEq, Repr

/-- The queue with a third thread that reads its indices. -/
structure Watched (T : Type _) where
  spsc : Spsc T
  sizing : Sizing

inductive WatchAct (T : Type _)
  | queue (act : SpscAct T)
  | loadTail
  | loadHead
  deriving DecidableEq, Repr

inductive WatchRet (T : Type _)
  | queue (ret : Option (QueueRet T))
  | loaded (order : LoadOrder)
  | size (value : UInt64)
  deriving DecidableEq, Repr

namespace Watched

def create (capacity : UInt64) : Watched T := { spsc := .create capacity, sizing := .idle }

def step (s : Watched T) : WatchAct T → Option (Watched T × WatchRet T)
  | .queue act => (s.spsc.step act).map fun r => ({ s with spsc := r.1 }, .queue r.2)
  | .loadTail =>
    match s.sizing with
    | .idle => some ({ s with sizing := .loaded .tailFirst s.spsc.queue.tail }, .loaded .tailFirst)
    | .loaded .headFirst head =>
      some ({ s with sizing := .idle }, .size (SpscRingBuffer.sizeApprox s.spsc.queue.tail head))
    | .loaded .tailFirst _ => none
  | .loadHead =>
    match s.sizing with
    | .idle => some ({ s with sizing := .loaded .headFirst s.spsc.queue.head }, .loaded .headFirst)
    | .loaded .tailFirst tail =>
      some ({ s with sizing := .idle }, .size (SpscRingBuffer.sizeApprox tail s.spsc.queue.head))
    | .loaded .headFirst _ => none

/-! ## What was pushed and popped -/

/-- What the producer and the consumer reported. -/
def queueRets (outs : List (WatchRet T)) : List (Option (QueueRet T)) :=
  outs.filterMap fun
    | .queue ret => some ret
    | _ => none

def pushes (outs : List (Option (QueueRet T))) : Nat := (pushedValues outs).length

def pops (outs : List (Option (QueueRet T))) : Nat := (poppedValues outs).length

/-- The elements in the queue after what was reported. -/
def heldAfter (outs : List (Option (QueueRet T))) : Nat := pushes outs - pops outs

/-- The thread whose index is loaded second stays within what the first load saw. -/
def Calm (capacity : Nat) (before between : List (Option (QueueRet T))) : LoadOrder → Prop
  | .tailFirst => pops between ≤ heldAfter before
  | .headFirst => heldAfter before + pushes between ≤ capacity

/-- The tail loaded less the head loaded, as counts. -/
def distance (before between : List (Option (QueueRet T))) : LoadOrder → Nat
  | .tailFirst => heldAfter before - pops between
  | .headFirst => heldAfter before + pushes between

/-- The value of a call of `size_approx`, against what was reported `before` its first load and
`between` its loads. -/
structure Reading (capacity : Nat) (order : LoadOrder) (before between : List (Option (QueueRet T))) (value : UInt64) :
    Prop where
  calm : Calm capacity before between order → value.toNat = distance before between order ∧ value.toNat ≤ capacity
  wild : ¬ Calm capacity before between order → pushes between + pops between < 2 ^ 63 → capacity < value.toNat
  quiet : pushes between = 0 → pops between = 0 → value.toNat = heldAfter before ∧ heldAfter before ≤ capacity

section Counts

variable (outs more : List (Option (QueueRet T)))

theorem pushes_append : pushes (outs ++ more) = pushes outs + pushes more := by
  unfold pushes pushedValues
  rw [List.filterMap_append, List.length_append]

theorem pops_append : pops (outs ++ more) = pops outs + pops more := by
  unfold pops poppedValues
  rw [List.filterMap_append, List.length_append]

end Counts

theorem queueRets_append (outs more : List (WatchRet T)) :
    queueRets (outs ++ more) = queueRets outs ++ queueRets more := List.filterMap_append

theorem queueRets_map (rets : List (Option (QueueRet T))) : queueRets (rets.map WatchRet.queue) = rets := by
  unfold queueRets
  rw [List.filterMap_map]
  exact List.filterMap_some

/-- What was reported up to a second load. -/
theorem queueRets_between (before : List (WatchRet T)) (order : LoadOrder) (between : List (Option (QueueRet T))) :
    queueRets (before ++ .loaded order :: between.map .queue) = queueRets before ++ between := by
  rw [queueRets_append]
  congr 1
  exact queueRets_map between

/-! ## The invariant -/

/-- The counts behind an index that was loaded. -/
def Loaded (capacity : Nat) (order : LoadOrder) (index : UInt64) (seen : List (WatchRet T)) : Prop :=
  ∃ (before : List (WatchRet T)) (between : List (Option (QueueRet T))),
    seen = before ++ .loaded order :: between.map .queue ∧
    pops (queueRets before) ≤ pushes (queueRets before) ∧
    pushes (queueRets before) ≤ pops (queueRets before) + capacity ∧
    index = UInt64.ofNat (match order with
      | .tailFirst => pushes (queueRets before)
      | .headFirst => pops (queueRets before))

/-- The queue after what was reported in `seen`. -/
structure Inv (capacity : Nat) (s : Watched T) (seen : List (WatchRet T)) : Prop where
  queue : s.spsc.Inv (pushedValues (queueRets seen)) (poppedValues (queueRets seen))
  cap : s.spsc.queue.capacity.toNat = capacity
  sizing : ∀ order index, s.sizing = .loaded order index → Loaded capacity order index seen

variable {capacity : Nat} {s s' : Watched T} {seen : List (WatchRet T)}

theorem Inv.bounds (h : Inv capacity s seen) :
    capacity ≤ 2 ^ 63 ∧ pops (queueRets seen) ≤ pushes (queueRets seen) ∧
      pushes (queueRets seen) ≤ pops (queueRets seen) + capacity := by
  have hsmall := h.queue.ring.small
  have hheld := h.queue.held_le
  have hfifo := h.queue.fifo.length_le
  rw [h.cap] at hsmall hheld
  rw [List.length_append] at hheld
  refine ⟨hsmall, hfifo, ?_⟩
  unfold pushes pops
  omega

/-- The second load, of the head: the tail was loaded before it. -/
theorem reading_tailFirst {before between : List (Option (QueueRet T))} (hcap : capacity ≤ 2 ^ 63)
    (hle : pops before ≤ pushes before) (hheld : pushes before ≤ pops before + capacity) :
    Reading capacity .tailFirst before between
      (SpscRingBuffer.sizeApprox (UInt64.ofNat (pushes before)) (UInt64.ofNat (pops before + pops between))) := by
  have hin : pops between ≤ heldAfter before →
      (SpscRingBuffer.sizeApprox (UInt64.ofNat (pushes before)) (UInt64.ofNat (pops before + pops between))).toNat =
        heldAfter before - pops between := by
    intro hcalm
    unfold heldAfter at hcalm ⊢
    unfold SpscRingBuffer.sizeApprox
    rw [Pow2.ofNat_sub_toNat (by omega) (by omega)]
    omega
  have hle' : heldAfter before ≤ capacity := by
    unfold heldAfter
    omega
  refine ⟨fun hcalm => ⟨hin hcalm, ?_⟩, fun hwild hlt => ?_, fun _ hq => ⟨?_, hle'⟩⟩
  · rw [hin hcalm]
    omega
  · have hbehind : pushes before < pops before + pops between := by
      have : ¬ pops between ≤ heldAfter before := hwild
      unfold heldAfter at this
      omega
    unfold SpscRingBuffer.sizeApprox
    rw [Pow2.ofNat_sub_toNat_wrap hbehind (by omega)]
    omega
  · rw [hin (by omega), hq, Nat.sub_zero]

/-- The second load, of the tail: the head was loaded before it. -/
theorem reading_headFirst {before between : List (Option (QueueRet T))} (hcap : capacity ≤ 2 ^ 63)
    (hle : pops before ≤ pushes before) (hheld : pushes before ≤ pops before + capacity) :
    Reading capacity .headFirst before between
      (SpscRingBuffer.sizeApprox (UInt64.ofNat (pushes before + pushes between)) (UInt64.ofNat (pops before))) := by
  have hle' : heldAfter before ≤ capacity := by
    unfold heldAfter
    omega
  have hvalue : heldAfter before + pushes between < 2 ^ 64 →
      (SpscRingBuffer.sizeApprox (UInt64.ofNat (pushes before + pushes between)) (UInt64.ofNat (pops before))).toNat =
        heldAfter before + pushes between := by
    intro hlt
    unfold heldAfter at hlt ⊢
    unfold SpscRingBuffer.sizeApprox
    rw [Pow2.ofNat_sub_toNat (by omega) (by omega)]
    omega
  refine ⟨fun hcalm => ?_, fun hwild hlt => ?_, fun hq _ => ⟨?_, hle'⟩⟩
  · have hfit : heldAfter before + pushes between ≤ capacity := hcalm
    have := hvalue (by omega)
    exact ⟨this, by omega⟩
  · have hover : ¬ heldAfter before + pushes between ≤ capacity := hwild
    rw [hvalue (by omega)]
    omega
  · rw [hvalue (by omega), hq, Nat.add_zero]

/-- The value of a call, with the reports before it. -/
def ReadAs (capacity : Nat) (seen : List (WatchRet T)) (value : UInt64) : Prop :=
  ∃ (order : LoadOrder) (before : List (WatchRet T)) (between : List (Option (QueueRet T))),
    seen = before ++ .loaded order :: between.map .queue ∧ Reading capacity order (queueRets before) between value

/-- Every step keeps the invariant, and a value it returns reads as it should. -/
theorem Inv.step {a : WatchAct T} {r : WatchRet T} (h : Inv capacity s seen) (hs : s.step a = some (s', r)) :
    Inv capacity s' (seen ++ [r]) ∧ ∀ value, r = .size value → ReadAs capacity seen value := by
  obtain ⟨hcap, hle, hheld⟩ := h.bounds
  have htail : s.spsc.queue.tail = UInt64.ofNat (pushes (queueRets seen)) := h.queue.tail
  have hhead : s.spsc.queue.head = UInt64.ofNat (pops (queueRets seen)) := h.queue.head
  -- a step of the monitoring thread leaves the queue as it is
  have hquiet : ∀ r : WatchRet T, queueRets [r] = [] → queueRets (seen ++ [r]) = queueRets seen := fun r hr => by
    rw [queueRets_append, hr, List.append_nil]
  cases a with
  | queue act =>
    obtain ⟨⟨q, ret⟩, hq, hs⟩ := Option.map_eq_some_iff.1 hs
    cases hs
    refine ⟨⟨?_, ?_, fun order index hl => ?_⟩, nofun⟩
    · have := h.queue.step hq
      rw [queueRets_append, pushedValues, poppedValues, List.filterMap_append, List.filterMap_append]
      exact this
    · rw [← h.cap, ← Spsc.step_capacity hq]
    · obtain ⟨before, between, rfl, hcounts⟩ := h.sizing order index hl
      exact ⟨before, between ++ [ret], by simp, hcounts⟩
  | loadTail =>
    simp only [Watched.step] at hs
    split at hs
    · cases hs
      have hrets := hquiet (.loaded .tailFirst) rfl
      refine ⟨⟨by rw [hrets]; exact h.queue, h.cap, fun order index hl => ?_⟩, nofun⟩
      cases hl
      exact ⟨seen, [], rfl, hle, hheld, htail⟩
    · rename_i head hl
      cases hs
      have hrets := hquiet (.size (SpscRingBuffer.sizeApprox s.spsc.queue.tail head)) rfl
      refine ⟨⟨by rw [hrets]; exact h.queue, h.cap, nofun⟩, fun value hv => ?_⟩
      cases hv
      obtain ⟨before, between, hseen, hb, hb', rfl⟩ := h.sizing _ _ hl
      refine ⟨.headFirst, before, between, hseen, ?_⟩
      rw [htail, hseen, queueRets_between, pushes_append]
      exact reading_headFirst hcap hb hb'
    · cases hs
  | loadHead =>
    simp only [Watched.step] at hs
    split at hs
    · cases hs
      have hrets := hquiet (.loaded .headFirst) rfl
      refine ⟨⟨by rw [hrets]; exact h.queue, h.cap, fun order index hl => ?_⟩, nofun⟩
      cases hl
      exact ⟨seen, [], rfl, hle, hheld, hhead⟩
    · rename_i tail hl
      cases hs
      have hrets := hquiet (.size (SpscRingBuffer.sizeApprox tail s.spsc.queue.head)) rfl
      refine ⟨⟨by rw [hrets]; exact h.queue, h.cap, nofun⟩, fun value hv => ?_⟩
      cases hv
      obtain ⟨before, between, hseen, hb, hb', rfl⟩ := h.sizing _ _ hl
      refine ⟨.tailFirst, before, between, hseen, ?_⟩
      rw [hhead, hseen, queueRets_between, pops_append]
      exact reading_tailFirst hcap hb hb'
    · cases hs

/-- Every interleaving: each value that is returned reads as it should. -/
theorem Inv.run {acts : List (WatchAct T)} {outs : List (WatchRet T)} (h : Inv capacity s seen)
    (hr : Machine.run Watched.step s acts = some (s', outs)) {front back : List (WatchRet T)} {value : UInt64}
    (hv : outs = front ++ .size value :: back) : ReadAs capacity (seen ++ front) value := by
  rw [hv] at hr
  -- the run up to the step that returns the value
  obtain ⟨acts₁, a, -, t, t', -, hbefore, hs, -⟩ := Machine.run_split hr
  have ht := Machine.run_history (P := Inv capacity) (fun _ _ _ _ _ _ ht hs => (ht.step hs).1) h hbefore
  exact (ht.step hs).2 value rfl

theorem create_inv (requested : UInt64) :
    Inv (roundUpPow2 requested).toNat (create requested : Watched T) [] :=
  ⟨Spsc.create_inv requested, rfl, nofun⟩

/-- **`size_approx` beside any interleaving.** Each value comes from a first load and a second one;
it is the count between the two and within the capacity when the thread whose index is loaded
second stays within what the first load saw, and otherwise above the capacity. -/
theorem sizeApprox_reads (requested : UInt64) {acts : List (WatchAct T)} {outs : List (WatchRet T)}
    (hr : Machine.run step (create requested) acts = some (s, outs)) {seen after : List (WatchRet T)} {value : UInt64}
    (hv : outs = seen ++ .size value :: after) :
    ∃ (order : LoadOrder) (before : List (WatchRet T)) (between : List (Option (QueueRet T))),
      seen = before ++ .loaded order :: between.map .queue ∧
      Reading (roundUpPow2 requested).toNat order (queueRets before) between value :=
  (create_inv requested).run hr hv

theorem sizeApprox_reads_one :
    ∃ (order : LoadOrder) (before : List (WatchRet Nat)) (between : List (Option (QueueRet Nat))),
      [.queue none, .queue none, .queue none, .queue (some (.pushed 5)), .loaded .tailFirst, .queue none] =
        before ++ .loaded order :: between.map .queue ∧
      Reading (roundUpPow2 2).toNat order (queueRets before) between 1 :=
  @sizeApprox_reads Nat _ 2
    [.queue (.pushTail 5), .queue (.pushHead 0), .queue .construct, .queue .publishTail, .loadTail, .queue .popHead,
      .loadHead]
    [.queue none, .queue none, .queue none, .queue (some (.pushed 5)), .loaded .tailFirst, .queue none, .size 1] rfl
    [.queue none, .queue none, .queue none, .queue (some (.pushed 5)), .loaded .tailFirst, .queue none] [] 1 rfl

/-- An element that goes through the queue between the loads of the two indices. -/
def overtaken : List (WatchAct Nat) :=
  [.loadTail, .queue (.pushTail 5), .queue (.pushHead 0), .queue .construct, .queue .publishTail, .queue .popHead,
    .queue (.popTail 1), .queue .moveOut, .queue .publishHead, .loadHead]

/-- The value wraps when the pop is seen and the push is not. -/
theorem sizeApprox_wraps :
    ¬ ∀ acts (s : Watched Nat) outs, Machine.run step (create 2) acts = some (s, outs) → ∀ value, .size value ∈ outs →
      value ≤ s.spsc.queue.capacity := by
  intro h
  have hrun : ∃ s, Machine.run step (create 2) overtaken = some (s, [.loaded .tailFirst, .queue none, .queue none,
      .queue none, .queue (some (.pushed 5)), .queue none, .queue none, .queue none, .queue (some (.popped 5)),
      .size 18446744073709551615]) ∧ s.spsc.queue.capacity = 2 := ⟨_, rfl, rfl⟩
  obtain ⟨s, hs, hcap⟩ := hrun
  have := h _ s _ hs 18446744073709551615 (by simp)
  rw [hcap] at this
  exact absurd this (by decide)

end Watched

end Obe
