/-
The queue loses nothing. One invariant relates the indices, what each thread has read of the other's
and the slots, through every atomic step: the slots between what was moved out and what was
constructed hold exactly those elements, and no others do. The operations of a single thread are the
interleaving in which every load reads the last value.
-/
import OrderBookEngine.Queue.RingBuffer

namespace Obe

variable {T : Type _}

/-! ## The ring -/

namespace SpscRingBuffer

/-- The place of the `n`-th element. -/
def slotOf (q : SpscRingBuffer T) (n : Nat) : UInt64 := UInt64.ofNat n &&& q.mask

/-- Elements of one turn have places of their own, inside the storage. -/
structure Ring (q : SpscRingBuffer T) : Prop where
  small : q.capacity.toNat ≤ 2 ^ 63
  apart : ∀ {m n : Nat}, m < n → n < m + q.capacity.toNat → q.slotOf m ≠ q.slotOf n
  inside : 0 < q.capacity → ∀ n, q.slotOf n < q.capacity

/-- The constructor makes a ring, of no place at all for a request above `2 ^ 63`. -/
theorem create_ring (requested : UInt64) : (create requested : SpscRingBuffer T).Ring := by
  by_cases h : requested.toNat ≤ 2 ^ 63
  · obtain ⟨k, -, hk, hcap, -⟩ := roundUpPow2_spec h
    have hpow : 2 ^ k ≤ 2 ^ 63 := Nat.pow_le_pow_right (by omega) hk
    refine ⟨?_, fun hmn hn => ?_, fun _ n => ?_⟩
    · show (roundUpPow2 requested).toNat ≤ 2 ^ 63
      omega
    · change _ < _ + (roundUpPow2 requested).toNat at hn
      rw [hcap] at hn
      exact Pow2.mask_ne hk hcap hmn hn
    · show UInt64.ofNat n &&& (roundUpPow2 requested - 1) < roundUpPow2 requested
      rw [UInt64.lt_iff_toNat_lt, Pow2.mask_toNat hk hcap, hcap]
      exact Nat.mod_lt _ (Nat.two_pow_pos k)
  · have hzero : (create requested : SpscRingBuffer T).capacity = 0 := roundUpPow2_wrap (by omega)
    refine ⟨by rw [hzero]; exact Nat.zero_le _, fun hmn hn => ?_, fun hpos => ?_⟩
    · rw [hzero] at hn
      exact absurd hn (by simp only [UInt64.toNat_zero]; omega)
    · rw [hzero] at hpos
      exact absurd hpos (by decide)

theorem push_capacity (q : SpscRingBuffer T) (value : T) : (q.push value).1.capacity = q.capacity := by
  unfold push; split <;> rfl

theorem pop_capacity {q : SpscRingBuffer T} {r : SpscRingBuffer T × Option T} (h : q.pop = some r) :
    r.1.capacity = q.capacity := by
  unfold pop at h
  split at h
  · cases h; rfl
  · obtain ⟨out, -, rfl⟩ := Option.map_eq_some_iff.1 h
    rfl

end SpscRingBuffer

/-! ## The invariant -/

/-- The element that is constructed but not yet published. -/
def Pushing.written : Pushing T → List T
  | .constructed value _ => [value]
  | _ => []

/-- One while an element is moved out but its place not yet given back. -/
def Popping.taken : Popping T → Nat
  | .movedOut .. => 1
  | _ => 0

/-- What the producer holds: the index of the next element, and room for it once it has checked. -/
def Pushing.Holds (count bound : Nat) : Pushing T → Prop
  | .idle => True
  | .tailLoaded _ tail => tail = UInt64.ofNat count
  | .headLoaded _ tail => tail = UInt64.ofNat count ∧ count < bound
  | .constructed _ tail => tail = UInt64.ofNat count ∧ count < bound

/-- What the consumer holds: the index of the first element, which is there once it has checked. -/
def Popping.Holds (count bound : Nat) (pushed : List T) : Popping T → Prop
  | .idle => True
  | .headLoaded head => head = UInt64.ofNat count
  | .tailLoaded head => head = UInt64.ofNat count ∧ count < bound
  | .movedOut head out => head = UInt64.ofNat count ∧ count < bound ∧ pushed[count]? = some out

section Holds

variable {count bound : Nat} {pushed : List T}

theorem Pushing.Holds.written_le {p : Pushing T} (h : p.Holds count bound) (hc : count ≤ bound) :
    count + p.written.length ≤ bound := by
  cases p with
  | idle => exact hc
  | tailLoaded value tail => exact hc
  | headLoaded value tail => exact hc
  | constructed value tail => exact h.2

theorem Popping.Holds.taken_le {p : Popping T} (h : p.Holds count bound pushed) (hc : count ≤ bound) :
    count + p.taken ≤ bound := by
  cases p with
  | idle => exact hc
  | headLoaded head => exact hc
  | tailLoaded head => exact hc
  | movedOut head out => exact h.2.1

/-- Publishing more elements leaves the one that is being moved out the same. -/
theorem Popping.Holds.append {p : Popping T} (h : p.Holds count bound pushed) (hb : bound ≤ pushed.length)
    (more : List T) :
    p.Holds count bound (pushed ++ more) := by
  cases p with
  | idle => trivial
  | headLoaded head => exact h
  | tailLoaded head => exact h
  | movedOut head out =>
    obtain ⟨hhead, hlt, hget⟩ := h
    exact ⟨hhead, hlt, by rw [List.getElem?_append_left (by omega)]; exact hget⟩

end Holds

/-- The values an index was given up to a count. -/
def published (count : Nat) : List UInt64 := (List.range (count + 1)).map UInt64.ofNat

namespace Spsc

/-- The queue after `pushed` went in and `popped` came out. -/
structure Inv (s : Spsc T) (pushed popped : List T) : Prop where
  ring : s.queue.Ring
  tail : s.queue.tail = UInt64.ofNat pushed.length
  head : s.queue.head = UInt64.ofNat popped.length
  tails : s.tails = published pushed.length
  heads : s.heads = published popped.length
  fifo : popped <+: pushed
  headRead : s.headRead ≤ popped.length
  room : pushed.length ≤ s.headRead + s.queue.capacity.toNat
  tailRead : popped.length ≤ s.tailRead
  there : s.tailRead ≤ pushed.length
  producer : s.producer.Holds pushed.length (s.headRead + s.queue.capacity.toNat)
  consumer : s.consumer.Holds popped.length s.tailRead pushed
  live : ∀ n, popped.length + s.consumer.taken ≤ n → n < (pushed ++ s.producer.written).length →
    s.queue.slots (s.queue.slotOf n) = (pushed ++ s.producer.written)[n]?
  dead : ∀ i, (∀ n, popped.length + s.consumer.taken ≤ n → n < (pushed ++ s.producer.written).length →
    i ≠ s.queue.slotOf n) → s.queue.slots i = none

theorem published_succ (count : Nat) : published (count + 1) = published count ++ [UInt64.ofNat (count + 1)] := by
  unfold published
  rw [List.range_succ, List.map_append]; rfl

theorem published_get {count place : Nat} {x : UInt64} (h : (published count)[place]? = some x) :
    place ≤ count ∧ x = UInt64.ofNat place := by
  unfold published at h
  rw [List.getElem?_map, Option.map_eq_some_iff] at h
  obtain ⟨y, hy, rfl⟩ := h
  obtain ⟨hlt, rfl⟩ := List.getElem?_eq_some_iff.1 hy
  rw [List.length_range] at hlt
  rw [List.getElem_range]
  exact ⟨by omega, rfl⟩

theorem create_inv (requested : UInt64) : Inv (create requested : Spsc T) [] [] :=
  ⟨SpscRingBuffer.create_ring requested, rfl, rfl, rfl, rfl, List.prefix_refl _, Nat.le_refl _, Nat.zero_le _,
    Nat.le_refl _, Nat.le_refl _, trivial, trivial, fun _ _ h => absurd h (Nat.not_lt_zero _), fun _ _ => rfl⟩

namespace Inv

variable {s : Spsc T} {pushed popped : List T}

/-- No more is held than there are places, counting what is only constructed. -/
theorem held_le (h : Inv s pushed popped) :
    (pushed ++ s.producer.written).length ≤ popped.length + s.queue.capacity.toNat := by
  have hwritten := h.producer.written_le h.room
  have hread := h.headRead
  rw [List.length_append]
  omega

/-! ### The steps of `push` -/

theorem pushTail (h : Inv s pushed popped) (hp : s.producer = .idle) (value : T) :
    Inv { s with producer := .tailLoaded value s.queue.tail } pushed popped := by
  have hw : s.producer.written = [] := by rw [hp]; rfl
  have hlive := h.live
  have hdead := h.dead
  rw [hw] at hlive hdead
  exact { h with producer := h.tail, live := hlive, dead := hdead }

/-- A refused push leaves the queue as it is. -/
theorem pushHead_refused (h : Inv s pushed popped) {value : T} {tail head : UInt64} {place : Nat}
    (hp : s.producer = .tailLoaded value tail) (hle : s.headRead ≤ place) (hh : s.heads[place]? = some head) :
    Inv { s with producer := .idle, headRead := place } pushed popped := by
  have hw : s.producer.written = [] := by rw [hp]; rfl
  have hlive := h.live
  have hdead := h.dead
  rw [hw] at hlive hdead
  obtain ⟨hplace, -⟩ := published_get (h.heads ▸ hh)
  have hroom : pushed.length ≤ place + s.queue.capacity.toNat := by have := h.room; omega
  exact { h with headRead := hplace, room := hroom, producer := trivial, live := hlive, dead := hdead }

/-- The check is exact for the head it read, however old: the difference does not wrap. -/
theorem full_iff (h : Inv s pushed popped) {place : Nat} (hle : s.headRead ≤ place) (hplace : place ≤ popped.length) :
    s.queue.full (UInt64.ofNat pushed.length) (UInt64.ofNat place) = true ↔
      place + s.queue.capacity.toNat < pushed.length + 1 := by
  have hroom := h.room
  have hsmall := h.ring.small
  have hprefix := h.fifo.length_le
  have hsub : (UInt64.ofNat (pushed.length + 1) - UInt64.ofNat place).toNat = pushed.length + 1 - place :=
    Pow2.ofNat_sub_toNat (by omega) (by omega)
  unfold SpscRingBuffer.full
  rw [Pow2.ofNat_succ, decide_eq_true_eq, gt_iff_lt, UInt64.lt_iff_toNat_lt, hsub]
  omega

theorem pushHead_ok (h : Inv s pushed popped) {value : T} {tail head : UInt64} {place : Nat}
    (hp : s.producer = .tailLoaded value tail) (hle : s.headRead ≤ place) (hh : s.heads[place]? = some head)
    (hfull : s.queue.full tail head = false) :
    Inv { s with producer := .headLoaded value tail, headRead := place } pushed popped := by
  obtain ⟨hplace, rfl⟩ := published_get (h.heads ▸ hh)
  have htail : tail = UInt64.ofNat pushed.length := by have := h.producer; rwa [hp] at this
  have hfree : pushed.length < place + s.queue.capacity.toNat := by
    have := mt (h.full_iff hle hplace).2 (by rw [← htail, hfull]; simp)
    omega
  have hw : s.producer.written = [] := by rw [hp]; rfl
  have hlive := h.live
  have hdead := h.dead
  rw [hw] at hlive hdead
  exact { h with headRead := hplace, room := Nat.le_of_lt hfree, producer := ⟨htail, hfree⟩, live := hlive,
                 dead := hdead }

/-- The slot of the next element is free when the producer constructs into it. -/
theorem slot_free (h : Inv s pushed popped) {value : T} {tail : UInt64} (hp : s.producer = .headLoaded value tail) :
    s.queue.slots (tail &&& s.queue.mask) = none ∧ tail &&& s.queue.mask < s.queue.capacity := by
  have hholds := h.producer
  rw [hp] at hholds
  obtain ⟨rfl, hlt⟩ := hholds
  have hread := h.headRead
  have hw : s.producer.written = [] := by rw [hp]; rfl
  constructor
  · apply h.dead
    intro n hn hn'
    rw [hw, List.append_nil] at hn'
    exact (h.ring.apart hn' (by omega)).symm
  · refine h.ring.inside ?_ _
    rw [UInt64.lt_iff_toNat_lt, UInt64.toNat_zero]
    have := h.fifo.length_le
    omega

theorem construct (h : Inv s pushed popped) {value : T} {tail : UInt64} (hp : s.producer = .headLoaded value tail) :
    Inv { s with queue := s.queue.construct tail value, producer := .constructed value tail } pushed popped := by
  have hholds := h.producer
  rw [hp] at hholds
  obtain ⟨rfl, hlt⟩ := hholds
  have hw : s.producer.written = [] := by rw [hp]; rfl
  have hlive := h.live
  have hdead := h.dead
  rw [hw, List.append_nil] at hlive hdead
  have hread := h.headRead
  refine { h with ring := ⟨h.ring.small, h.ring.apart, h.ring.inside⟩, producer := ⟨rfl, hlt⟩,
                  live := fun n hn hn' => ?_, dead := fun i hi => ?_ }
  · show Function.update s.queue.slots (s.queue.slotOf pushed.length) (some value) (s.queue.slotOf n) =
      (pushed ++ [value])[n]?
    change n < (pushed ++ [value]).length at hn'
    rw [List.length_append, List.length_singleton] at hn'
    by_cases hlast : n = pushed.length
    · rw [hlast, Function.update_self, List.getElem?_append_right (Nat.le_refl _), Nat.sub_self]; rfl
    · have hn'' : n < pushed.length := by omega
      rw [Function.update_of_ne (h.ring.apart hn'' (by omega)), hlive n hn hn'', List.getElem?_append_left hn'']
  · show Function.update s.queue.slots (s.queue.slotOf pushed.length) (some value) i = none
    have hne : i ≠ s.queue.slotOf pushed.length := by
      refine hi pushed.length (Nat.le_trans (h.consumer.taken_le h.tailRead) h.there) ?_
      show _ < (pushed ++ [value]).length
      simp
    rw [Function.update_of_ne hne]
    refine hdead i fun n hn hn' => hi n hn ?_
    show _ < (pushed ++ [value]).length
    rw [List.length_append]
    omega

theorem publishTail (h : Inv s pushed popped) {value : T} {tail : UInt64}
    (hp : s.producer = .constructed value tail) :
    Inv { s with queue := { s.queue with tail := tail + 1 }, tails := s.tails ++ [tail + 1], producer := .idle }
      (pushed ++ [value]) popped := by
  have hholds := h.producer
  rw [hp] at hholds
  obtain ⟨rfl, hlt⟩ := hholds
  have hw : s.producer.written = [value] := by rw [hp]; rfl
  have hlen : (pushed ++ [value]).length = pushed.length + 1 := by simp
  have hlive := h.live
  have hdead := h.dead
  rw [hw] at hlive hdead
  have hthere := h.there
  refine { h with ring := ⟨h.ring.small, h.ring.apart, h.ring.inside⟩, tail := ?_, tails := ?_,
                  fifo := h.fifo.trans (List.prefix_append _ _), room := ?_, there := ?_, producer := trivial,
                  consumer := h.consumer.append hthere _, live := ?_, dead := ?_ }
  · show UInt64.ofNat pushed.length + 1 = _
    rw [hlen, Pow2.ofNat_succ]
  · show s.tails ++ [UInt64.ofNat pushed.length + 1] = _
    rw [hlen, published_succ, h.tails, Pow2.ofNat_succ]
  · rw [hlen]; exact hlt
  · rw [hlen]; exact Nat.le_succ_of_le hthere
  · show ∀ n, _ → n < (pushed ++ [value] ++ []).length → s.queue.slots (s.queue.slotOf n) =
      (pushed ++ [value] ++ [])[n]?
    rw [List.append_nil]; exact hlive
  · show ∀ i, (∀ n, _ → n < (pushed ++ [value] ++ []).length → i ≠ s.queue.slotOf n) → _
    rw [List.append_nil]; exact hdead

/-! ### The steps of `pop` -/

theorem popHead (h : Inv s pushed popped) (hc : s.consumer = .idle) :
    Inv { s with consumer := .headLoaded s.queue.head } pushed popped := by
  have ht : s.consumer.taken = 0 := by rw [hc]; rfl
  have hlive := h.live
  have hdead := h.dead
  rw [ht] at hlive hdead
  exact { h with consumer := h.head, live := hlive, dead := hdead }

/-- The consumer sees an empty queue exactly when the tail it read, however old, has its own count. -/
theorem empty_iff (h : Inv s pushed popped) {place : Nat} (hle : s.tailRead ≤ place)
    (hplace : place ≤ pushed.length) :
    UInt64.ofNat popped.length = UInt64.ofNat place ↔ popped.length = place := by
  have hread := h.tailRead
  have hroom := h.room
  have hhead := h.headRead
  have hsmall := h.ring.small
  exact Pow2.ofNat_inj_of_near (by omega) (by omega)

theorem popTail_empty (h : Inv s pushed popped) {head tail : UInt64} {place : Nat}
    (hc : s.consumer = .headLoaded head) (hle : s.tailRead ≤ place) (ht : s.tails[place]? = some tail) :
    Inv { s with consumer := .idle, tailRead := place } pushed popped := by
  obtain ⟨hplace, -⟩ := published_get (h.tails ▸ ht)
  have htaken : s.consumer.taken = 0 := by rw [hc]; rfl
  have hlive := h.live
  have hdead := h.dead
  rw [htaken] at hlive hdead
  exact { h with tailRead := Nat.le_trans h.tailRead hle, there := hplace, consumer := trivial, live := hlive,
                 dead := hdead }

theorem popTail_ok (h : Inv s pushed popped) {head tail : UInt64} {place : Nat}
    (hc : s.consumer = .headLoaded head) (hle : s.tailRead ≤ place) (ht : s.tails[place]? = some tail)
    (hne : head ≠ tail) : Inv { s with consumer := .tailLoaded head, tailRead := place } pushed popped := by
  obtain ⟨hplace, rfl⟩ := published_get (h.tails ▸ ht)
  have hhead : head = UInt64.ofNat popped.length := by have := h.consumer; rwa [hc] at this
  have hlt : popped.length < place := by
    have := mt (h.empty_iff hle hplace).2 (by rw [← hhead]; exact hne)
    have := h.tailRead
    omega
  have htaken : s.consumer.taken = 0 := by rw [hc]; rfl
  have hlive := h.live
  have hdead := h.dead
  rw [htaken] at hlive hdead
  exact { h with tailRead := Nat.le_of_lt hlt, there := hplace, consumer := ⟨hhead, hlt⟩, live := hlive,
                 dead := hdead }

/-- The consumer moves out the first element that is still in the queue. -/
theorem slot_live (h : Inv s pushed popped) {head : UInt64} (hc : s.consumer = .tailLoaded head) :
    s.queue.slots (head &&& s.queue.mask) = pushed[popped.length]? ∧ popped.length < pushed.length := by
  have hholds := h.consumer
  rw [hc] at hholds
  obtain ⟨rfl, hlt⟩ := hholds
  have hthere := h.there
  have htaken : s.consumer.taken = 0 := by rw [hc]; rfl
  have hlt' : popped.length < pushed.length := by omega
  refine ⟨?_, hlt'⟩
  have := h.live popped.length (by rw [htaken]; omega) (by rw [List.length_append]; omega)
  rwa [List.getElem?_append_left hlt'] at this

theorem moveOut (h : Inv s pushed popped) {head : UInt64} {out : T} (hc : s.consumer = .tailLoaded head)
    (hout : s.queue.slots (head &&& s.queue.mask) = some out) :
    Inv { s with queue := s.queue.destroy head, consumer := .movedOut head out } pushed popped := by
  obtain ⟨hslot, hlt'⟩ := h.slot_live hc
  have hheld := h.held_le
  have hholds := h.consumer
  rw [hc] at hholds
  obtain ⟨rfl, hlt⟩ := hholds
  have htaken : s.consumer.taken = 0 := by rw [hc]; rfl
  have hlive := h.live
  have hdead := h.dead
  rw [htaken] at hlive hdead
  refine { h with ring := ⟨h.ring.small, h.ring.apart, h.ring.inside⟩,
                  consumer := ⟨rfl, hlt, hslot.symm.trans hout⟩, live := fun n hn hn' => ?_, dead := fun i hi => ?_ }
  · change popped.length + 1 ≤ n at hn
    change n < (pushed ++ s.producer.written).length at hn'
    show Function.update s.queue.slots (s.queue.slotOf popped.length) none (s.queue.slotOf n) = _
    rw [Function.update_of_ne (h.ring.apart (by omega) (by omega)).symm]
    exact hlive n (by omega) hn'
  · show Function.update s.queue.slots (s.queue.slotOf popped.length) none i = none
    by_cases hi' : i = s.queue.slotOf popped.length
    · rw [hi', Function.update_self]
    · rw [Function.update_of_ne hi']
      refine hdead i fun n hn hn' => ?_
      by_cases hfirst : n = popped.length
      · rw [hfirst]; exact hi'
      · exact hi n (by show popped.length + 1 ≤ n; omega) hn'

theorem publishHead (h : Inv s pushed popped) {head : UInt64} {out : T} (hc : s.consumer = .movedOut head out) :
    Inv { s with queue := { s.queue with head := head + 1 }, heads := s.heads ++ [head + 1], consumer := .idle }
      pushed (popped ++ [out]) := by
  have hholds := h.consumer
  rw [hc] at hholds
  obtain ⟨rfl, hlt, hget⟩ := hholds
  have hlen : (popped ++ [out]).length = popped.length + 1 := by simp
  have htaken : s.consumer.taken = 1 := by rw [hc]; rfl
  have hlive := h.live
  have hdead := h.dead
  rw [htaken] at hlive hdead
  refine { h with ring := ⟨h.ring.small, h.ring.apart, h.ring.inside⟩, head := ?_, heads := ?_, fifo := ?_,
                  headRead := ?_, tailRead := ?_, consumer := trivial, live := ?_, dead := ?_ }
  · show UInt64.ofNat popped.length + 1 = _
    rw [hlen, Pow2.ofNat_succ]
  · show s.heads ++ [UInt64.ofNat popped.length + 1] = _
    rw [hlen, published_succ, h.heads, Pow2.ofNat_succ]
  · obtain ⟨rest, rfl⟩ := h.fifo
    rw [List.getElem?_append_right (Nat.le_refl _), Nat.sub_self] at hget
    cases rest with
    | nil => cases hget
    | cons x rest =>
      cases hget
      exact ⟨rest, by simp⟩
  · rw [hlen]; exact Nat.le_succ_of_le h.headRead
  · rw [hlen]; exact hlt
  · show ∀ n, (popped ++ [out]).length + 0 ≤ n → _
    rw [hlen]; exact hlive
  · show ∀ i, (∀ n, (popped ++ [out]).length + 0 ≤ n → _) → _
    rw [hlen]; exact hdead

/-! ### Runs -/

/-- Every atomic step keeps the invariant, with what it reports. -/
theorem step {s' : Spsc T} {a : SpscAct T} {r : Option (QueueRet T)} (h : Inv s pushed popped)
    (hs : s.step a = some (s', r)) : Inv s' (pushed ++ pushedValues [r]) (popped ++ poppedValues [r]) := by
  have hquiet : pushed ++ pushedValues [none] = pushed ∧ popped ++ poppedValues [none] = popped :=
    ⟨List.append_nil _, List.append_nil _⟩
  cases a with
  | pushTail value =>
    simp only [Spsc.step] at hs
    split at hs
    · cases hs
      rw [hquiet.1, hquiet.2]
      exact h.pushTail ‹_› value
    · cases hs
  | pushHead place =>
    simp only [Spsc.step] at hs
    split at hs
    · rename_i value tail hp
      split at hs
      · rename_i hle
        obtain ⟨head, hh, hs⟩ := Option.map_eq_some_iff.1 hs
        split at hs
        · cases hs
          rw [show pushed ++ pushedValues [some (.refused value)] = pushed from List.append_nil _,
            show popped ++ poppedValues [some (.refused value)] = popped from List.append_nil _]
          exact h.pushHead_refused hp hle hh
        · rename_i hfull
          cases hs
          rw [hquiet.1, hquiet.2]
          exact h.pushHead_ok hp hle hh (Bool.eq_false_iff.2 hfull)
      · cases hs
    · cases hs
  | construct =>
    simp only [Spsc.step] at hs
    split at hs
    · cases hs
      rw [hquiet.1, hquiet.2]
      exact h.construct ‹_›
    · cases hs
  | publishTail =>
    simp only [Spsc.step] at hs
    split at hs
    · rename_i value tail hp
      cases hs
      rw [show popped ++ poppedValues [some (.pushed value)] = popped from List.append_nil _]
      exact h.publishTail hp
    · cases hs
  | popHead =>
    simp only [Spsc.step] at hs
    split at hs
    · cases hs
      rw [hquiet.1, hquiet.2]
      exact h.popHead ‹_›
    · cases hs
  | popTail place =>
    simp only [Spsc.step] at hs
    split at hs
    · rename_i head hc
      split at hs
      · rename_i hle
        obtain ⟨tail, ht, hs⟩ := Option.map_eq_some_iff.1 hs
        split at hs
        · cases hs
          rw [show pushed ++ pushedValues [some .empty] = pushed from List.append_nil _,
            show popped ++ poppedValues [some .empty] = popped from List.append_nil _]
          exact h.popTail_empty hc hle ht
        · rename_i hne
          cases hs
          rw [hquiet.1, hquiet.2]
          exact h.popTail_ok hc hle ht hne
      · cases hs
    · cases hs
  | moveOut =>
    simp only [Spsc.step] at hs
    split at hs
    · rename_i head hc
      obtain ⟨out, hout, hs⟩ := Option.map_eq_some_iff.1 hs
      cases hs
      rw [hquiet.1, hquiet.2]
      exact h.moveOut hc hout
    · cases hs
  | publishHead =>
    simp only [Spsc.step] at hs
    split at hs
    · rename_i head out hc
      cases hs
      rw [show pushed ++ pushedValues [some (.popped out)] = pushed from List.append_nil _]
      exact h.publishHead hc
    · cases hs

/-- Every interleaving keeps the invariant. -/
theorem run {s' : Spsc T} {acts : List (SpscAct T)} {outs : List (Option (QueueRet T))} (h : Inv s pushed popped)
    (hr : Machine.run Spsc.step s acts = some (s', outs)) :
    Inv s' (pushed ++ pushedValues outs) (popped ++ poppedValues outs) := by
  have hstart : Inv s (pushed ++ pushedValues []) (popped ++ poppedValues []) := by
    rwa [show pushed ++ pushedValues [] = pushed from List.append_nil _,
      show popped ++ poppedValues [] = popped from List.append_nil _]
  refine Machine.run_history (P := fun s outs => Inv s (pushed ++ pushedValues outs) (popped ++ poppedValues outs))
    (fun t a t' r outs _ ht hs => ?_) hstart hr
  have hpush : pushedValues (outs ++ [r]) = pushedValues outs ++ pushedValues [r] := List.filterMap_append
  have hpop : poppedValues (outs ++ [r]) = poppedValues outs ++ poppedValues [r] := List.filterMap_append
  rw [hpush, hpop, ← List.append_assoc, ← List.append_assoc]
  exact ht.step hs

end Inv

theorem run_inv {requested : UInt64} {s : Spsc T} {acts : List (SpscAct T)} {outs : List (Option (QueueRet T))}
    (hr : Machine.run step (create requested) acts = some (s, outs)) :
    Inv s (pushedValues outs) (poppedValues outs) :=
  (create_inv requested).run hr

/-- No step changes the capacity. -/
theorem step_capacity {s s' : Spsc T} {a : SpscAct T} {r : Option (QueueRet T)} (h : s.step a = some (s', r)) :
    s'.queue.capacity = s.queue.capacity := by
  cases a with
  | pushTail value =>
    simp only [step] at h
    split at h <;> cases h
    rfl
  | pushHead place =>
    simp only [step] at h
    split at h
    · split at h
      · obtain ⟨head, -, h⟩ := Option.map_eq_some_iff.1 h
        split at h <;> cases h <;> rfl
      · cases h
    · cases h
  | construct =>
    simp only [step] at h
    split at h <;> cases h
    rfl
  | publishTail =>
    simp only [step] at h
    split at h <;> cases h
    rfl
  | popHead =>
    simp only [step] at h
    split at h <;> cases h
    rfl
  | popTail place =>
    simp only [step] at h
    split at h
    · split at h
      · obtain ⟨tail, -, h⟩ := Option.map_eq_some_iff.1 h
        split at h <;> cases h <;> rfl
      · cases h
    · cases h
  | moveOut =>
    simp only [step] at h
    split at h
    · obtain ⟨out, -, h⟩ := Option.map_eq_some_iff.1 h
      cases h
      rfl
    · cases h
  | publishHead =>
    simp only [step] at h
    split at h <;> cases h
    rfl

/-! ## A refused push -/

section Refused

variable {s s' : Spsc T} {outs : List (Option (QueueRet T))}

/-- The consumer does not look at where the producer is. -/
theorem step_producer {a : SpscAct T} (ha : a.ofConsumer = true) (s : Spsc T) (p : Pushing T) :
    { s with producer := p }.step a = (s.step a).map fun r => ({ r.1 with producer := p }, r.2) := by
  cases a with
  | pushTail value => cases ha
  | pushHead place => cases ha
  | construct => cases ha
  | publishTail => cases ha
  | popHead =>
    simp only [step]
    split <;> rfl
  | popTail place =>
    simp only [step]
    split
    · split
      · rw [Option.map_map]
        congr 1
        funext tail
        simp only [Function.comp]
        split <;> rfl
      · rfl
    · rfl
  | moveOut =>
    simp only [step]
    split
    · rw [Option.map_map]; rfl
    · rfl
  | publishHead =>
    simp only [step]
    split <;> rfl

theorem run_producer {acts : List (SpscAct T)} (ha : ∀ a ∈ acts, a.ofConsumer = true) (s : Spsc T) (p : Pushing T) :
    Machine.run step { s with producer := p } acts =
      (Machine.run step s acts).map fun r => ({ r.1 with producer := p }, r.2) := by
  induction acts generalizing s with
  | nil => rfl
  | cons a acts ih =>
    rw [Machine.run, Machine.run, step_producer (ha a (List.mem_cons_self ..))]
    cases s.step a with
    | none => rfl
    | some r =>
      simp only [Option.map_some, Option.bind_some]
      rw [ih (fun a' ha' => ha a' (List.mem_cons_of_mem _ ha')), Option.map_map, Option.map_map]
      rfl

/-- The consumer leaves the producer where it is. -/
theorem run_keeps_producer {acts : List (SpscAct T)} (ha : ∀ a ∈ acts, a.ofConsumer = true)
    (hr : Machine.run step s acts = some (s', outs)) : s'.producer = s.producer := by
  have := run_producer ha s s.producer
  rw [show { s with producer := s.producer } = s from rfl, hr] at this
  simp only [Option.map_some, Option.some.injEq, Prod.mk.injEq, and_true] at this
  rw [this]

/-- A push that reports failure is no more than its reading of the head: what the consumer does
meanwhile it does to the same queue. -/
theorem refused_push {value : T} {place : Nat} {mid : List (SpscAct T)} (ha : ∀ a ∈ mid, a.ofConsumer = true)
    (hr : Machine.run step s (.pushTail value :: mid ++ [.pushHead place]) =
      some (s', outs ++ [some (.refused value)])) :
    ∃ t outs', Machine.run step s mid = some (t, outs') ∧ s' = { t with headRead := place } := by
  obtain ⟨u, outs₁, outs₂, h1, h2, houts⟩ := Machine.run_append_some hr
  obtain ⟨s₁, r, outs', hs₁, hmid, -⟩ := Machine.run_cons_some h1
  obtain ⟨s₂, r₂, outs₃, hs₂, hend, rfl⟩ := Machine.run_cons_some h2
  cases hend
  obtain ⟨-, hret⟩ := List.append_inj' houts rfl
  obtain rfl : r₂ = some (.refused value) := (List.cons.inj hret).1.symm
  simp only [step] at hs₁
  split at hs₁
  · rename_i hidle
    cases hs₁
    rw [run_producer ha s] at hmid
    obtain ⟨t, ht, hu⟩ := Option.map_eq_some_iff.1 hmid
    cases hu
    refine ⟨t.1, t.2, ht, ?_⟩
    have hkeep : t.1.producer = .idle := (run_keeps_producer ha ht).trans hidle
    simp only [step] at hs₂
    split at hs₂
    · obtain ⟨head, -, hs₂⟩ := Option.map_eq_some_iff.1 hs₂
      split at hs₂
      · cases hs₂
        rw [← hkeep]
      · cases hs₂
    · cases hs₂
  · cases hs₁

end Refused

/-! ## A single thread -/

/-- Between two operations of one thread the queue holds what was pushed and not yet popped. -/
def Quiet (capacity : UInt64) (q : SpscRingBuffer T) (held : List T) : Prop :=
  q.capacity = capacity ∧ ∃ s pushed popped, Inv s pushed popped ∧ s.producer = .idle ∧ s.consumer = .idle ∧
    s.queue = q ∧ held = pushed.drop popped.length

theorem published_last (count : Nat) : (published count)[count]? = some (UInt64.ofNat count) := by
  unfold published
  rw [List.getElem?_map, List.getElem?_range (Nat.lt_succ_self count)]; rfl

theorem Inv.held_length {s : Spsc T} {pushed popped : List T} (h : Inv s pushed popped) :
    (pushed.drop popped.length).length ≤ s.queue.capacity.toNat := by
  have := h.held_le
  rw [List.length_append] at this
  rw [List.length_drop]
  omega

section Alone

variable {s : Spsc T} {pushed popped : List T}

/-- With room, a push that runs on its own goes through, and does what `push` does. -/
theorem push_alone (h : Inv s pushed popped) (hp : s.producer = .idle)
    (hroom : pushed.length < popped.length + s.queue.capacity.toNat) (value : T) :
    ∃ s', Machine.run step s [.pushTail value, .pushHead popped.length, .construct, .publishTail] =
        some (s', [none, none, none, some (.pushed value)]) ∧
      s'.producer = .idle ∧ s'.consumer = s.consumer ∧ s.queue.push value = (s'.queue, true) := by
  have hread : s.heads[popped.length]? = some s.queue.head := by rw [h.heads, published_last, h.head]
  have hfull : s.queue.full s.queue.tail s.queue.head = false := by
    rw [Bool.eq_false_iff]
    intro hf
    rw [h.tail, h.head] at hf
    have := (h.full_iff h.headRead (Nat.le_refl _)).1 hf
    omega
  have h₁ : s.step (.pushTail value) = some ({ s with producer := .tailLoaded value s.queue.tail }, none) := by
    simp only [step, hp]
  have h₂ : ({ s with producer := .tailLoaded value s.queue.tail } : Spsc T).step (.pushHead popped.length) =
      some ({ s with producer := .headLoaded value s.queue.tail, headRead := popped.length }, none) := by
    simp only [step, h.headRead, hread, hfull, if_true, Option.map_some, Bool.false_eq_true, if_false]
  refine ⟨{ s with queue := { s.queue.construct s.queue.tail value with tail := s.queue.tail + 1 },
                   tails := s.tails ++ [s.queue.tail + 1], headRead := popped.length, producer := .idle },
    ?_, rfl, rfl, if_neg (by rw [hfull]; decide)⟩
  rw [Machine.run_cons _ h₁, Machine.run_cons _ h₂]; rfl

/-- With an element there, a pop that runs on its own takes the first one, and does what `pop` does. -/
theorem pop_alone (h : Inv s pushed popped) (hc : s.consumer = .idle) (hlt : popped.length < pushed.length) :
    ∃ s', Machine.run step s [.popHead, .popTail pushed.length, .moveOut, .publishHead] =
        some (s', [none, none, none, some (.popped pushed[popped.length])]) ∧
      s'.producer = s.producer ∧ s'.consumer = .idle ∧ s.queue.pop = some (s'.queue, some pushed[popped.length]) := by
  have hread : s.tails[pushed.length]? = some s.queue.tail := by rw [h.tails, published_last, h.tail]
  have hne : s.queue.head ≠ s.queue.tail := by
    intro he
    rw [h.tail, h.head] at he
    have := (h.empty_iff h.there (Nat.le_refl _)).1 he
    omega
  have h₁ : s.step .popHead = some ({ s with consumer := .headLoaded s.queue.head }, none) := by
    simp only [step, hc]
  have h₂ : ({ s with consumer := .headLoaded s.queue.head } : Spsc T).step (.popTail pushed.length) =
      some ({ s with consumer := .tailLoaded s.queue.head, tailRead := pushed.length }, none) := by
    simp only [step, h.there, hread, hne, if_true, Option.map_some, if_false]
  obtain ⟨hslot, -⟩ := ((h.popHead hc).popTail_ok rfl h.there hread hne).slot_live rfl
  rw [List.getElem?_eq_getElem hlt] at hslot
  change s.queue.slots (s.queue.head &&& s.queue.mask) = some pushed[popped.length] at hslot
  have h₃ : ({ s with consumer := .tailLoaded s.queue.head, tailRead := pushed.length } : Spsc T).step .moveOut =
      some ({ s with queue := s.queue.destroy s.queue.head, tailRead := pushed.length,
                     consumer := .movedOut s.queue.head pushed[popped.length] }, none) := by
    simp only [step, hslot, Option.map_some]
  refine ⟨{ s with queue := { s.queue.destroy s.queue.head with head := s.queue.head + 1 },
                   heads := s.heads ++ [s.queue.head + 1], tailRead := pushed.length, consumer := .idle },
    ?_, rfl, rfl, ?_⟩
  · rw [Machine.run_cons _ h₁, Machine.run_cons _ h₂, Machine.run_cons _ h₃]; rfl
  · rw [SpscRingBuffer.pop, if_neg hne, hslot]; rfl

end Alone

/-- A push on its own is refused exactly when the queue is full. -/
theorem push_refines {capacity : UInt64} {q : SpscRingBuffer T} {held : List T} (hq : Quiet capacity q held)
    (value : T) :
    ∃ q', q.op (.push value) = some (q', (fifoOp capacity.toNat held (.push value)).2) ∧
      Quiet capacity q' (fifoOp capacity.toNat held (.push value)).1 := by
  obtain ⟨rfl, s, pushed, popped, h, hp, hc, rfl, rfl⟩ := hq
  have hheld := h.held_length
  have hlen : (pushed.drop popped.length).length = pushed.length - popped.length := List.length_drop
  by_cases hcap : (pushed.drop popped.length).length = s.queue.capacity.toNat
  · have hfull : s.queue.full s.queue.tail s.queue.head = true := by
      rw [h.tail, h.head]
      exact (h.full_iff h.headRead (Nat.le_refl _)).2 (by have := h.fifo.length_le; omega)
    have hpush : s.queue.push value = (s.queue, false) := if_pos hfull
    have hfifo : fifoOp s.queue.capacity.toNat (pushed.drop popped.length) (.push value) =
        (pushed.drop popped.length, .refused value) := if_pos hcap
    rw [SpscRingBuffer.op, hpush, hfifo]
    exact ⟨s.queue, rfl, rfl, s, pushed, popped, h, hp, hc, rfl, rfl⟩
  · obtain ⟨s', hrun, hp', hc', hpush⟩ := push_alone h hp (by omega) value
    have h' := h.run hrun
    have hfifo : fifoOp s.queue.capacity.toNat (pushed.drop popped.length) (.push value) =
        (pushed.drop popped.length ++ [value], .pushed value) := if_neg hcap
    rw [SpscRingBuffer.op, hpush, hfifo]
    refine ⟨s'.queue, rfl, ?_, s', _, _, h', hp', hc'.trans hc, rfl, ?_⟩
    · have := s.queue.push_capacity value
      rwa [hpush] at this
    · show _ = (pushed ++ [value]).drop (popped ++ []).length
      rw [List.append_nil, List.drop_append_of_le_length h.fifo.length_le]

/-- A pop on its own finds nothing exactly when nothing is held. -/
theorem pop_refines {capacity : UInt64} {q : SpscRingBuffer T} {held : List T} (hq : Quiet capacity q held) :
    ∃ q', q.op .pop = some (q', (fifoOp capacity.toNat held .pop).2) ∧
      Quiet capacity q' (fifoOp capacity.toNat held .pop).1 := by
  obtain ⟨rfl, s, pushed, popped, h, hp, hc, rfl, rfl⟩ := hq
  have hprefix := h.fifo.length_le
  by_cases hlen : popped.length = pushed.length
  · have hheld : pushed.drop popped.length = [] := List.drop_eq_nil_of_le (by omega)
    have hpop : s.queue.pop = some (s.queue, none) := if_pos (by rw [h.head, h.tail, hlen])
    rw [SpscRingBuffer.op, hpop, hheld]
    exact ⟨s.queue, rfl, rfl, s, pushed, popped, h, hp, hc, rfl, hheld.symm⟩
  · have hlt : popped.length < pushed.length := by omega
    obtain ⟨s', hrun, hp', hc', hpop⟩ := pop_alone h hc hlt
    have h' := h.run hrun
    have hheld : pushed.drop popped.length = pushed[popped.length] :: pushed.drop (popped.length + 1) :=
      List.drop_eq_getElem_cons hlt
    rw [SpscRingBuffer.op, hpop, hheld]
    refine ⟨s'.queue, rfl, ?_, s', _, _, h', hp'.trans hp, hc', rfl, ?_⟩
    · exact SpscRingBuffer.pop_capacity hpop
    · show _ = (pushed ++ []).drop (popped ++ [pushed[popped.length]]).length
      rw [List.append_nil, List.length_append]; rfl

theorem op_refines (capacity : UInt64) :
    Machine.Refines SpscRingBuffer.op (fifoOp (T := T) capacity.toNat) (Quiet capacity) := by
  intro q held o hq
  cases o with
  | push value => exact push_refines hq value
  | pop => exact pop_refines hq

end Spsc

/-! ## The queue -/

/-- What holds of the queue at any point of a run. -/
structure Spsc.Lossless (s : Spsc T) (pushed popped : List T) : Prop where
  fifo : popped <+: pushed
  bounded : pushed.length ≤ popped.length + s.queue.capacity.toNat
  construct : ∀ value tail, s.producer = .headLoaded value tail →
    s.queue.slots (tail &&& s.queue.mask) = none ∧ tail &&& s.queue.mask < s.queue.capacity
  moveOut : ∀ head, s.consumer = .tailLoaded head → ∃ value, s.queue.slots (head &&& s.queue.mask) = some value

theorem Spsc.Inv.lossless {s : Spsc T} {pushed popped : List T} (h : s.Inv pushed popped) :
    s.Lossless pushed popped := by
  refine ⟨h.fifo, ?_, fun value tail hp => h.slot_free hp, fun head hc => ?_⟩
  · have := h.held_le
    rw [List.length_append] at this
    omega
  · obtain ⟨hslot, hlt⟩ := h.slot_live hc
    exact ⟨pushed[popped.length], by rw [hslot, List.getElem?_eq_getElem hlt]⟩

/-- **The queue is a lossless bounded FIFO**, for every requested capacity, across the wrap of the
indices and of stale reads: in every interleaving what is popped is a prefix of what was pushed, at
most the capacity is in flight, no unread element is overwritten and nothing unconstructed is read;
a refused push leaves the queue as it is; and a single thread sees a FIFO that refuses only when it
is full and is empty only when it holds nothing. -/
theorem SpscRingBuffer.lossless_fifo (T : Type) (requested : UInt64) :
    (∀ (acts : List (SpscAct T)) s outs, Machine.run Spsc.step (Spsc.create requested) acts = some (s, outs) →
      s.Lossless (pushedValues outs) (poppedValues outs)) ∧
    (∀ (s s' : Spsc T) value place mid outs, (∀ a ∈ mid, a.ofConsumer = true) →
      Machine.run Spsc.step s (.pushTail value :: mid ++ [.pushHead place]) =
        some (s', outs ++ [some (.refused value)]) →
      ∃ t outs', Machine.run Spsc.step s mid = some (t, outs') ∧ s' = { t with headRead := place }) ∧
    ∀ ops : List (QueueOp T), ∃ q, Machine.run op (create requested) ops =
      some (q, (Machine.runT (fifoOp (roundUpPow2 requested).toNat) [] ops).2) := by
  refine ⟨fun acts s outs hr => (Spsc.run_inv hr).lossless,
    fun s s' value place mid outs ha hr => Spsc.refused_push ha hr,
    fun ops => ?_⟩
  have hquiet : Spsc.Quiet (roundUpPow2 requested) (create requested : SpscRingBuffer T) [] :=
    ⟨rfl, _, [], [], Spsc.create_inv requested, rfl, rfl, rfl, rfl⟩
  obtain ⟨q, hr, -⟩ := (Spsc.op_refines (roundUpPow2 requested)).run hquiet ops
  exact ⟨q, hr⟩

end Obe
