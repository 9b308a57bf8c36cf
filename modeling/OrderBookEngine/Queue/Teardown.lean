/-
The end of a queue, and its test for emptiness. The destructor runs when both threads are done with
the queue, at any point of the indices: it destroys what was pushed and not popped, so that every
element is destroyed once. `empty()` loads both indices; what it says can be relied on in one
direction by each of the two threads.
-/
import OrderBookEngine.Queue.Lossless

namespace Obe

variable {T : Type _}

namespace SpscRingBuffer

/-- The loop of the destructor, from `head` to the tail, and what it destroys; `none` when a slot holds
no element. Fewer than the capacity plus one are in flight. -/
def destroyAll : Nat → SpscRingBuffer T → UInt64 → Option (SpscRingBuffer T × List T)
  | fuel, q, head =>
    if head = q.tail then some (q, [])
    else
      match fuel with
      | 0 => none
      | fuel + 1 => do
        let out ← q.slots (head &&& q.mask)
        let (q, destroyed) ← destroyAll fuel (q.destroy head) (head + 1)
        return (q, out :: destroyed)

/-- `~SpscRingBuffer`, before it frees the storage; elements without a destructor are left alone. -/
def destructor (q : SpscRingBuffer T) (triviallyDestructible : Bool) : Option (SpscRingBuffer T × List T) :=
  if triviallyDestructible then some (q, []) else destroyAll q.capacity.toNat q q.head

end SpscRingBuffer

/-! ## The destructor -/

namespace Spsc

variable {s : Spsc T} {pushed popped : List T}

/-- The slots from the `n`-th element on hold exactly the elements that were pushed. -/
structure InFlight (q : SpscRingBuffer T) (pushed : List T) (n : Nat) : Prop where
  ring : q.Ring
  tail : q.tail = UInt64.ofNat pushed.length
  le : n ≤ pushed.length
  held : pushed.length ≤ n + q.capacity.toNat
  live : ∀ k, n ≤ k → k < pushed.length → q.slots (q.slotOf k) = pushed[k]?
  dead : ∀ i, (∀ k, n ≤ k → k < pushed.length → i ≠ q.slotOf k) → q.slots i = none

theorem Inv.inFlight (h : s.Inv pushed popped) (hp : s.producer = .idle) (hc : s.consumer = .idle) :
    InFlight s.queue pushed popped.length := by
  have hw : s.producer.written = [] := by rw [hp]; rfl
  have ht : s.consumer.taken = 0 := by rw [hc]; rfl
  have hheld := h.held_le
  have hlive := h.live
  have hdead := h.dead
  rw [hw, List.append_nil] at hheld hlive hdead
  rw [ht, Nat.add_zero] at hlive hdead
  exact ⟨h.ring, h.tail, h.fifo.length_le, hheld, hlive, hdead⟩

variable {q : SpscRingBuffer T} {n : Nat}

/-- The loop is at the tail exactly when nothing is left: the indices are too close to wrap onto each
other. -/
theorem InFlight.at_tail_iff (h : InFlight q pushed n) : UInt64.ofNat n = q.tail ↔ n = pushed.length := by
  have hle := h.le
  have hheld := h.held
  have hsmall := h.ring.small
  rw [h.tail]
  exact Pow2.ofNat_inj_of_near (by omega) (by omega)

/-- One round of the loop. -/
theorem InFlight.destroy (h : InFlight q pushed n) (hlt : n < pushed.length) :
    q.slots (UInt64.ofNat n &&& q.mask) = some pushed[n] ∧ InFlight (q.destroy (UInt64.ofNat n)) pushed (n + 1) := by
  have hheld := h.held
  have hslot : q.slots (q.slotOf n) = some pushed[n] := by
    rw [h.live n (Nat.le_refl n) hlt, List.getElem?_eq_getElem hlt]
  refine ⟨hslot, ?_⟩
  constructor
  case ring => exact ⟨h.ring.small, h.ring.apart, h.ring.inside⟩
  case tail => exact h.tail
  case le => exact hlt
  case held =>
    show pushed.length ≤ n + 1 + q.capacity.toNat
    omega
  case live =>
    intro k hk hk'
    show Function.update q.slots (q.slotOf n) none (q.slotOf k) = _
    rw [Function.update_of_ne (h.ring.apart (by omega) (by omega)).symm]
    exact h.live k (by omega) hk'
  case dead =>
    intro i hi
    show Function.update q.slots (q.slotOf n) none i = none
    by_cases hn : i = q.slotOf n
    · rw [hn, Function.update_self]
    · rw [Function.update_of_ne hn]
      refine h.dead i fun k hk hk' => ?_
      by_cases hkn : k = n
      · rw [hkn]
        exact hn
      · exact hi k (by omega) hk'

/-- The loop ends, having destroyed what was in flight, in order. -/
theorem InFlight.destroyAll {fuel : Nat} (h : InFlight q pushed n) (hfuel : pushed.length ≤ n + fuel) :
    ∃ q', SpscRingBuffer.destroyAll fuel q (UInt64.ofNat n) = some (q', pushed.drop n) ∧ ∀ i, q'.slots i = none := by
  induction fuel generalizing q n with
  | zero =>
    have hn : n = pushed.length := Nat.le_antisymm h.le hfuel
    have hnil : pushed.drop n = [] := List.drop_eq_nil_of_le (Nat.le_of_eq hn.symm)
    refine ⟨q, ?_, fun i => h.dead i fun k hk hk' => by omega⟩
    unfold SpscRingBuffer.destroyAll
    rw [if_pos (h.at_tail_iff.2 hn), hnil]
  | succ fuel ih =>
    by_cases hn : n = pushed.length
    · have hnil : pushed.drop n = [] := List.drop_eq_nil_of_le (Nat.le_of_eq hn.symm)
      refine ⟨q, ?_, fun i => h.dead i fun k hk hk' => by omega⟩
      unfold SpscRingBuffer.destroyAll
      rw [if_pos (h.at_tail_iff.2 hn), hnil]
    · have hlt : n < pushed.length := by have := h.le; omega
      obtain ⟨hslot, hnext⟩ := h.destroy hlt
      obtain ⟨q', hrest, hempty⟩ := ih hnext (by omega)
      refine ⟨q', ?_, hempty⟩
      unfold SpscRingBuffer.destroyAll
      rw [if_neg (mt h.at_tail_iff.1 hn), List.drop_eq_getElem_cons hlt, hslot]
      rw [Pow2.ofNat_succ]
      simp only [Option.bind_eq_bind, Option.bind_some, hrest]
      rfl

end Spsc

/-- **Every element is destroyed once.** Whatever the interleaving, when both threads are done with the
queue its destructor finds each slot it destroys constructed, destroys what was pushed and not popped,
in the order of the pushes, and leaves no slot alive. -/
theorem SpscRingBuffer.destructor_spec (T : Type) (requested : UInt64) (acts : List (SpscAct T)) (s : Spsc T)
    (outs : List (Option (QueueRet T))) (hr : Machine.run Spsc.step (Spsc.create requested) acts = some (s, outs))
    (hp : s.producer = .idle) (hc : s.consumer = .idle) :
    ∃ q destroyed, s.queue.destructor false = some (q, destroyed) ∧
      pushedValues outs = poppedValues outs ++ destroyed ∧ ∀ i, q.slots i = none := by
  have h := Spsc.run_inv hr
  have hflight := h.inFlight hp hc
  obtain ⟨q, hrun, hempty⟩ := hflight.destroyAll hflight.held
  refine ⟨q, (pushedValues outs).drop (poppedValues outs).length, ?_, ?_, hempty⟩
  · show SpscRingBuffer.destroyAll _ _ _ = _
    rw [h.head]
    exact hrun
  · obtain ⟨rest, hrest⟩ := h.fifo
    rw [← hrest, List.drop_left]

theorem SpscRingBuffer.destructor_spec_one :
    ∃ s outs, Machine.run Spsc.step (Spsc.create 2) [.pushTail 7, .pushHead 0, .construct, .publishTail] =
        some (s, outs) ∧
      ∃ q destroyed, s.queue.destructor false = some (q, destroyed) ∧
        pushedValues outs = poppedValues outs ++ destroyed ∧ ∀ i, q.slots i = none := by
  have hroom : ([] : List Nat).length < ([] : List Nat).length + (Spsc.create 2 : Spsc Nat).queue.capacity.toNat := by
    decide
  obtain ⟨s, hrun, hp, hc, -⟩ := Spsc.push_alone (Spsc.create_inv 2) rfl hroom 7
  exact ⟨s, _, hrun, SpscRingBuffer.destructor_spec Nat 2 _ _ _ hrun hp hc⟩

/-! ## The test for emptiness -/

namespace Spsc

/-- `empty()` between two calls of `pop`: the consumer's own head, and a tail that is not older than
the last one it read. -/
def emptyToConsumer (s : Spsc T) (place : Nat) : Option (Spsc T × Bool) :=
  if s.tailRead ≤ place then s.tails[place]?.map fun tail => ({ s with tailRead := place }, s.queue.head = tail)
  else none

/-- `empty()` between two calls of `push`. -/
def emptyToProducer (s : Spsc T) (place : Nat) : Option (Spsc T × Bool) :=
  if s.headRead ≤ place then s.heads[place]?.map fun head => ({ s with headRead := place }, head = s.queue.tail)
  else none

variable {s t t' : Spsc T} {pushed popped : List T} {place : Nat}

/-- A load of the tail by the consumer. -/
theorem Inv.read_tail (h : s.Inv pushed popped) (hc : s.consumer = .idle) (hle : s.tailRead ≤ place)
    (hplace : place ≤ pushed.length) : Inv { s with tailRead := place } pushed popped := by
  refine { h with tailRead := Nat.le_trans h.tailRead hle, there := hplace, consumer := ?_ }
  show s.consumer.Holds _ _ _
  rw [hc]
  trivial

/-- The consumer has seen an element that it has not popped. -/
def Awaits (s : Spsc T) (popped : List T) : Prop := popped.length < s.tailRead

/-- As long as nothing is popped, no load of the consumer finds the queue empty. -/
theorem Inv.awaits_step (h : s.Inv pushed popped) (ha : s.Awaits popped) {act : SpscAct T} {r : Option (QueueRet T)}
    (hs : s.step act = some (t, r)) (hpop : poppedValues [r] = []) : t.Awaits popped ∧ r ≠ some .empty := by
  cases act with
  | pushTail value =>
    simp only [Spsc.step] at hs
    split at hs <;> cases hs
    exact ⟨ha, by simp⟩
  | pushHead place =>
    simp only [Spsc.step] at hs
    split at hs
    · split at hs
      · obtain ⟨head, -, hs⟩ := Option.map_eq_some_iff.1 hs
        split at hs <;> cases hs <;> exact ⟨ha, by simp⟩
      · cases hs
    · cases hs
  | construct =>
    simp only [Spsc.step] at hs
    split at hs <;> cases hs
    exact ⟨ha, by simp⟩
  | publishTail =>
    simp only [Spsc.step] at hs
    split at hs <;> cases hs
    exact ⟨ha, by simp⟩
  | popHead =>
    simp only [Spsc.step] at hs
    split at hs <;> cases hs
    exact ⟨ha, by simp⟩
  | popTail place =>
    simp only [Spsc.step] at hs
    split at hs
    · rename_i head hc
      split at hs
      · rename_i hle
        obtain ⟨tail, ht, hs⟩ := Option.map_eq_some_iff.1 hs
        obtain ⟨hplace, rfl⟩ := published_get (h.tails ▸ ht)
        have hhead : head = UInt64.ofNat popped.length := by have := h.consumer; rwa [hc] at this
        have hlt : popped.length < place := Nat.lt_of_lt_of_le ha hle
        -- what it reads is beyond its head
        rw [hhead, if_neg (mt (h.empty_iff hle hplace).1 (by omega))] at hs
        cases hs
        exact ⟨hlt, by simp⟩
      · cases hs
    · cases hs
  | moveOut =>
    simp only [Spsc.step] at hs
    split at hs
    · obtain ⟨out, -, hs⟩ := Option.map_eq_some_iff.1 hs
      cases hs
      exact ⟨ha, by simp⟩
    · cases hs
  | publishHead =>
    simp only [Spsc.step] at hs
    split at hs <;> cases hs
    cases hpop

theorem Inv.awaits_run (h : s.Inv pushed popped) (ha : s.Awaits popped) {acts : List (SpscAct T)}
    {outs : List (Option (QueueRet T))} (hr : Machine.run Spsc.step s acts = some (t, outs))
    (hpop : poppedValues outs = []) : some .empty ∉ outs := by
  induction acts generalizing s pushed outs with
  | nil =>
    cases hr
    simp
  | cons act acts ih =>
    obtain ⟨u, r, outs', hs, hr', rfl⟩ := Machine.run_cons_some hr
    have hsplit : poppedValues (r :: outs') = poppedValues [r] ++ poppedValues outs' :=
      @List.filterMap_append _ _ [r] outs' _
    rw [hsplit, List.append_eq_nil_iff] at hpop
    obtain ⟨hu, hne⟩ := h.awaits_step ha hs hpop.1
    have hinv := h.step hs
    rw [hpop.1, List.append_nil] at hinv
    rw [List.mem_cons, not_or]
    exact ⟨hne.symm, ih hinv hu hr' hpop.2⟩

end Spsc

/-- **What `empty()` promises each thread**, although it may read an old index. To the consumer: after
`false` no `pop` comes back empty before one has returned an element, whatever the producer does. To
the producer: after `true` everything it pushed has been popped. -/
theorem Spsc.empty_reliable (T : Type) (requested : UInt64) (acts : List (SpscAct T)) (s : Spsc T)
    (outs : List (Option (QueueRet T))) (hr : Machine.run step (create requested) acts = some (s, outs)) :
    (∀ place t, s.consumer = .idle → s.emptyToConsumer place = some (t, false) →
      ∀ acts' t' outs', Machine.run step t acts' = some (t', outs') → poppedValues outs' = [] →
        some .empty ∉ outs') ∧
    ∀ place t, s.producer = .idle → s.emptyToProducer place = some (t, true) →
      pushedValues outs = poppedValues outs := by
  have h := run_inv hr
  refine ⟨fun place t hc he => ?_, fun place t hp he => ?_⟩
  · unfold emptyToConsumer at he
    split at he
    · rename_i hle
      obtain ⟨tail, ht, he⟩ := Option.map_eq_some_iff.1 he
      obtain ⟨hplace, rfl⟩ := published_get (h.tails ▸ ht)
      obtain ⟨rfl, hne⟩ := Prod.mk.inj he
      rw [decide_eq_false_iff_not, h.head] at hne
      have hlt : (poppedValues outs).length < place := by
        have := mt (h.empty_iff hle hplace).2 hne
        have := h.tailRead
        omega
      intro acts' t' outs' hr' hpop
      exact (h.read_tail hc hle hplace).awaits_run hlt hr' hpop
    · cases he
  · unfold emptyToProducer at he
    split at he
    · rename_i hle
      obtain ⟨head, hh, he⟩ := Option.map_eq_some_iff.1 he
      obtain ⟨hplace, rfl⟩ := published_get (h.heads ▸ hh)
      obtain ⟨-, heq⟩ := Prod.mk.inj he
      rw [decide_eq_true_eq, h.tail] at heq
      have hprefix := h.fifo.length_le
      have hroom := h.room
      have hsmall := h.ring.small
      have hcount : place = (pushedValues outs).length :=
        (Pow2.ofNat_inj_of_near (by omega) (by omega)).1 heq
      exact (h.fifo.eq_of_length (by omega)).symm
    · cases he

theorem Spsc.empty_reliable_one :
    ∃ s outs, Machine.run step (create 2) [.pushTail 7, .pushHead 0, .construct, .publishTail] = some (s, outs) ∧
      (∀ place t, s.consumer = .idle → s.emptyToConsumer place = some (t, false) →
        ∀ acts' t' outs', Machine.run step t acts' = some (t', outs') → poppedValues outs' = [] →
          some .empty ∉ outs') ∧
      ∀ place t, s.producer = .idle → s.emptyToProducer place = some (t, true) →
        pushedValues outs = poppedValues outs := by
  have hroom : ([] : List Nat).length < ([] : List Nat).length + (create 2 : Spsc Nat).queue.capacity.toNat := by
    decide
  obtain ⟨s, hrun, -⟩ := push_alone (create_inv 2) rfl hroom 7
  exact ⟨s, _, hrun, Spsc.empty_reliable Nat 2 _ _ _ hrun⟩

end Obe
