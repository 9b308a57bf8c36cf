/-
`MemoryPool.hpp`: the free-list allocator. A slot is a block and an index in it; a cell of the
pool's memory is a free node or a live object, and there is no cell outside the blocks. Reading
or releasing what is not live is an access the language leaves undefined: `none`.

The free list and the live slots partition the cells (`Accounts`), so `acquire` returns a slot
that was not live and changes no live object.

Slots are counted in numbers here. The code counts them in words, and the product that `grow` asks
the system for may wrap: `Pool/SizedPool` is the pool with these words, and does what this one does
exactly as long as the bytes of each block fit in a word.
-/
import Mathlib.Data.List.Nodup
import Mathlib.Logic.Function.Basic

namespace Obe

/-- The address of a slot. -/
structure Slot where
  block : Nat
  index : Nat
  deriving DecidableEq, Repr

inductive Cell (T : Type)
  | free (next : Option Slot)
  | live (obj : T)

structure MemoryPool (T : Type) where
  /-- The number of slots of each block. -/
  blocks : List Nat
  mem : Slot → Option (Cell T)
  freeList : Option Slot
  slotsPerBlock : Nat
  capacity : Nat
  liveCount : Nat

namespace MemoryPool

variable {T : Type}

/-- One round of the loop of `grow`: slot `i` of block `b` goes to the front of the free list. -/
def threadSlot (b : Nat) (st : (Slot → Option (Cell T)) × Option Slot) (i : Nat) :
    (Slot → Option (Cell T)) × Option Slot :=
  (Function.update st.1 ⟨b, i⟩ (some (.free st.2)), some ⟨b, i⟩)

/-- `grow`, where the block has room for its slots. -/
def grow (pool : MemoryPool T) : MemoryPool T :=
  let n := pool.slotsPerBlock
  let st := (List.range n).foldl (threadSlot pool.blocks.length) (pool.mem, pool.freeList)
  { pool with
    blocks := pool.blocks ++ [n]
    mem := st.1
    freeList := st.2
    slotsPerBlock := pool.slotsPerBlock * 2
    capacity := pool.capacity + n }

/-- The constructor, where the first block has room for its slots. -/
def ofCapacity (initialCapacity : Nat) : MemoryPool T :=
  grow { blocks := [], mem := fun _ => none, freeList := none,
         slotsPerBlock := if initialCapacity = 0 then 1 else initialCapacity, capacity := 0, liveCount := 0 }

/-- The live object at an address. -/
def get (pool : MemoryPool T) (p : Slot) : Option T :=
  match pool.mem p with
  | some (.live obj) => some obj
  | _ => none

/-- The pool after `node`, whose link is `next`, has been popped and an object built in it. -/
def pop (pool : MemoryPool T) (node : Slot) (next : Option Slot) (obj : T) : MemoryPool T :=
  { pool with
    freeList := next
    liveCount := pool.liveCount + 1
    mem := Function.update pool.mem node (some (.live obj)) }

/-- The pool after the slot `p` has been put in front of the free list. -/
def push (pool : MemoryPool T) (p : Slot) : MemoryPool T :=
  { pool with
    mem := Function.update pool.mem p (some (.free pool.freeList))
    freeList := some p
    liveCount := pool.liveCount - 1 }

/-- The pool with the object at `p` replaced. -/
def write (pool : MemoryPool T) (p : Slot) (obj : T) : MemoryPool T :=
  { pool with mem := Function.update pool.mem p (some (.live obj)) }

/-- A write through a pointer. -/
def modify (pool : MemoryPool T) (p : Slot) (f : T → T) : Option (MemoryPool T) :=
  (pool.get p).map fun obj => pool.write p (f obj)

def acquire (pool : MemoryPool T) (obj : T) : Option (Slot × MemoryPool T) :=
  let pool := if pool.freeList = none then pool.grow else pool
  pool.freeList.bind fun node =>
    match pool.mem node with
    | some (.free next) => some (node, pool.pop node next obj)
    | _ => none

def release (pool : MemoryPool T) : Option Slot → Option (MemoryPool T)
  | none => some pool
  | some p => (pool.get p).map fun _ => pool.push p

def blockCount (pool : MemoryPool T) : Nat := pool.blocks.length

/-! ## The partition into free and live slots -/

/-- The free list starting at an address visits the slots of `L` and ends. -/
inductive Threaded (mem : Slot → Option (Cell T)) : Option Slot → List Slot → Prop
  | nil : Threaded mem none []
  | cons {p : Slot} {next : Option Slot} {L : List Slot} :
      mem p = some (.free next) → Threaded mem next L → Threaded mem (some p) (p :: L)

/-- Every cell of the blocks is on the free list or live, and on either list once. -/
structure Accounts (pool : MemoryPool T) (free live : List Slot) : Prop where
  threaded : Threaded pool.mem pool.freeList free
  nodupFree : free.Nodup
  nodupLive : live.Nodup
  mem_free : ∀ p, p ∈ free ↔ ∃ next, pool.mem p = some (.free next)
  mem_live : ∀ p, p ∈ live ↔ ∃ obj, pool.mem p = some (.live obj)
  allocated : ∀ p, pool.mem p ≠ none ↔ ∃ n, pool.blocks[p.block]? = some n ∧ p.index < n
  slotsPos : 0 < pool.slotsPerBlock
  liveCount : pool.liveCount = live.length
  capacity : pool.capacity = live.length + free.length

/-- The pools the constructor and the calls make. -/
def WF (pool : MemoryPool T) : Prop := ∃ free live, pool.Accounts free live

/-- The pool has taken no memory from the system. -/
structure SameBlocks (pool pool' : MemoryPool T) : Prop where
  blocks : pool'.blocks = pool.blocks
  slotsPerBlock : pool'.slotsPerBlock = pool.slotsPerBlock
  capacity : pool'.capacity = pool.capacity

variable {pool : MemoryPool T} {free live L : List Slot} {p q : Slot} {obj : T}

theorem get_eq_some : pool.get p = some obj ↔ pool.mem p = some (.live obj) := by
  unfold get
  split
  · rename_i h; rw [h]; simp
  · rename_i h
    simp only [reduceCtorEq, false_iff]
    exact h obj

theorem Threaded.congr {mem mem' : Slot → Option (Cell T)} {a : Option Slot} (h : Threaded mem a L)
    (he : ∀ p ∈ L, mem' p = mem p) : Threaded mem' a L := by
  induction h with
  | nil => exact .nil
  | cons hp _ ih =>
    exact .cons (by rw [he _ (List.mem_cons_self ..)]; exact hp) (ih fun q hq => he q (List.mem_cons_of_mem _ hq))

theorem SameBlocks.refl (pool : MemoryPool T) : pool.SameBlocks pool := ⟨rfl, rfl, rfl⟩

theorem SameBlocks.trans {pool pool' pool'' : MemoryPool T} (h : pool.SameBlocks pool')
    (h' : pool'.SameBlocks pool'') : pool.SameBlocks pool'' where
  blocks := h'.blocks.trans h.blocks
  slotsPerBlock := h'.slotsPerBlock.trans h.slotsPerBlock
  capacity := h'.capacity.trans h.capacity

theorem Threaded.eq_nil {mem : Slot → Option (Cell T)} (h : Threaded mem none L) : L = [] := by
  cases h; rfl

theorem Accounts.not_both (h : pool.Accounts free live) (hf : p ∈ free) : p ∉ live := by
  intro hl
  obtain ⟨next, h1⟩ := (h.mem_free p).1 hf
  obtain ⟨obj, h2⟩ := (h.mem_live p).1 hl
  rw [h1] at h2; cases h2

theorem Accounts.mem_live_iff (h : pool.Accounts free live) : p ∈ live ↔ ∃ obj, pool.get p = some obj := by
  simp only [h.mem_live, get_eq_some]

/-! ## Growth -/

/-- The loop of `grow` after `n` slots of the new block `b`. -/
theorem thread_range {b : Nat} {mem : Slot → Option (Cell T)} {a : Option Slot} (h : Threaded mem a free)
    (hb : ∀ p ∈ free, p.block ≠ b) :
    ∀ n, Threaded ((List.range n).foldl (threadSlot b) (mem, a)).1 ((List.range n).foldl (threadSlot b) (mem, a)).2
        (((List.range n).map (Slot.mk b)).reverse ++ free) ∧
      (∀ p, p.block ≠ b → ((List.range n).foldl (threadSlot b) (mem, a)).1 p = mem p) ∧
      (∀ i, n ≤ i → ((List.range n).foldl (threadSlot b) (mem, a)).1 ⟨b, i⟩ = mem ⟨b, i⟩) ∧
      (∀ i < n, ∃ next, ((List.range n).foldl (threadSlot b) (mem, a)).1 ⟨b, i⟩ = some (.free next))
  | 0 => ⟨by simpa using h, fun _ _ => rfl, fun _ _ => rfl, fun i hi => absurd hi (by omega)⟩
  | n + 1 => by
    obtain ⟨h1, h2, h3, h4⟩ := thread_range h hb n
    rw [List.range_succ, List.foldl_append, List.foldl_cons, List.foldl_nil]
    generalize (List.range n).foldl (threadSlot b) (mem, a) = st at *
    simp only [threadSlot]
    refine ⟨?_, fun p hp => ?_, fun i hi => ?_, fun i hi => ?_⟩
    · rw [List.map_append, List.reverse_append]
      refine .cons (Function.update_self ..) (h1.congr fun p hp => Function.update_of_ne ?_ ..)
      rintro rfl
      rcases List.mem_append.1 hp with hp | hp
      · rw [List.mem_reverse, List.mem_map] at hp
        obtain ⟨i, hi, he⟩ := hp
        cases he
        exact absurd (List.mem_range.1 hi) (by omega)
      · exact hb _ hp rfl
    · rw [Function.update_of_ne (by rintro rfl; exact hp rfl)]; exact h2 p hp
    · rw [Function.update_of_ne (by rintro he; cases he; omega)]; exact h3 i (by omega)
    · by_cases hin : i = n
      · subst hin; exact ⟨_, Function.update_self ..⟩
      · rw [Function.update_of_ne (by rintro he; cases he; exact hin rfl)]; exact h4 i (by omega)

/-- A cell is in one of the blocks. -/
theorem Accounts.block_lt (h : pool.Accounts free live) (hp : pool.mem p ≠ none) : p.block < pool.blocks.length := by
  obtain ⟨n, hn, -⟩ := (h.allocated p).1 hp
  exact (List.getElem?_eq_some_iff.1 hn).1

theorem Accounts.block_ne (h : pool.Accounts free live) (hp : p ∈ free) : p.block ≠ pool.blocks.length := by
  obtain ⟨next, hn⟩ := (h.mem_free p).1 hp
  exact Nat.ne_of_lt (h.block_lt (by rw [hn]; simp))

/-- What `grow` makes of a slot: it is free in the new block, and as it was elsewhere. -/
theorem Accounts.grow_mem (h : pool.Accounts free live) (p : Slot) :
    (p.block = pool.blocks.length ∧ p.index < pool.slotsPerBlock ∧ pool.mem p = none ∧
        ∃ next, pool.grow.mem p = some (.free next)) ∨
      (¬ (p.block = pool.blocks.length ∧ p.index < pool.slotsPerBlock) ∧ pool.grow.mem p = pool.mem p) := by
  obtain ⟨-, hother, hbeyond, hnew⟩ := thread_range h.threaded (fun _ => h.block_ne) pool.slotsPerBlock
  obtain ⟨b, i⟩ := p
  by_cases hb : b = pool.blocks.length
  · subst hb
    by_cases hi : i < pool.slotsPerBlock
    · have hold : pool.mem ⟨pool.blocks.length, i⟩ = none := by
        by_contra hne
        exact absurd (h.block_lt hne) (Nat.lt_irrefl _)
      exact .inl ⟨rfl, hi, hold, hnew i hi⟩
    · exact .inr ⟨fun hn => hi hn.2, hbeyond i (Nat.le_of_not_lt hi)⟩
  · exact .inr ⟨fun hn => hb hn.1, hother _ hb⟩

theorem Accounts.grow_live (h : pool.Accounts free live) (p : Slot) (obj : T) :
    pool.grow.mem p = some (.live obj) ↔ pool.mem p = some (.live obj) := by
  rcases h.grow_mem p with ⟨-, -, hold, next, hnew⟩ | ⟨-, hsame⟩
  · rw [hold, hnew]
    simp
  · rw [hsame]

/-- `grow` adds a block of free slots and changes no live object. -/
theorem Accounts.grow (h : pool.Accounts free live) :
    pool.grow.Accounts (((List.range pool.slotsPerBlock).map (Slot.mk pool.blocks.length)).reverse ++ free) live ∧
      pool.grow.get = pool.get := by
  constructor
  · constructor
    case threaded => exact (thread_range h.threaded (fun _ => h.block_ne) pool.slotsPerBlock).1
    case nodupFree =>
      rw [List.nodup_append]
      refine ⟨List.nodup_reverse.2 (List.nodup_range.map fun i j e => by cases e; rfl), h.nodupFree, ?_⟩
      rintro p hp q hq rfl
      rw [List.mem_reverse, List.mem_map] at hp
      obtain ⟨i, -, rfl⟩ := hp
      exact h.block_ne hq rfl
    case nodupLive => exact h.nodupLive
    case mem_free =>
      intro p
      rw [List.mem_append, List.mem_reverse, List.mem_map]
      rcases h.grow_mem p with ⟨hb, hi, -, hnew⟩ | ⟨hne, hsame⟩
      · exact iff_of_true (.inl ⟨p.index, List.mem_range.2 hi, by rw [← hb]⟩) hnew
      · rw [hsame, ← h.mem_free p]
        refine or_iff_right ?_
        rintro ⟨i, hi, rfl⟩
        exact hne ⟨rfl, List.mem_range.1 hi⟩
    case mem_live =>
      intro p
      simp only [h.mem_live, h.grow_live]
    case allocated =>
      intro p
      show pool.grow.mem p ≠ none ↔ ∃ n, (pool.blocks ++ [pool.slotsPerBlock])[p.block]? = some n ∧ p.index < n
      rcases h.grow_mem p with ⟨hb, hi, -, next, hnew⟩ | ⟨hne, hsame⟩
      · exact iff_of_true (by rw [hnew]; simp) ⟨pool.slotsPerBlock, by rw [hb, List.getElem?_concat_length], hi⟩
      · rw [hsame, h.allocated p]
        rcases Nat.lt_trichotomy p.block pool.blocks.length with hlt | heq | hgt
        · rw [List.getElem?_append_left hlt]
        · have hi : ¬ p.index < pool.slotsPerBlock := fun hi => hne ⟨heq, hi⟩
          rw [heq, List.getElem?_eq_none (Nat.le_refl _), List.getElem?_concat_length]
          simp [hi]
        · rw [List.getElem?_eq_none (Nat.le_of_lt hgt), List.getElem?_eq_none (by simp; omega)]
    case slotsPos =>
      have := h.slotsPos
      show 0 < pool.slotsPerBlock * 2
      omega
    case liveCount => exact h.liveCount
    case capacity =>
      show pool.capacity + pool.slotsPerBlock = _
      rw [List.length_append, List.length_reverse, List.length_map, List.length_range, h.capacity]
      omega
  · funext p
    apply Option.ext
    intro obj
    rw [get_eq_some, get_eq_some, h.grow_live]

/-! ## The calls -/

/-- The constructor's members before its call of `grow`. -/
theorem fresh_accounts (k : Nat) : Accounts (T := T)
    { blocks := [], mem := fun _ => none, freeList := none, slotsPerBlock := k + 1, capacity := 0, liveCount := 0 }
    [] [] :=
  ⟨.nil, List.nodup_nil, List.nodup_nil, by simp, by simp, by simp, by simp, rfl, rfl⟩

theorem ofCapacity_accounts (n : Nat) :
    ∃ free, (ofCapacity n : MemoryPool T).Accounts free [] ∧ (ofCapacity n : MemoryPool T).get = fun _ => none := by
  obtain ⟨k, hk⟩ : ∃ k, (if n = 0 then 1 else n) = k + 1 := ⟨(if n = 0 then 1 else n) - 1, by split <;> omega⟩
  unfold ofCapacity
  rw [hk]
  exact ⟨_, (fresh_accounts (T := T) k).grow⟩

theorem ofCapacity_wf (n : Nat) :
    (ofCapacity n : MemoryPool T).WF ∧ (ofCapacity n : MemoryPool T).get = fun _ => none := by
  obtain ⟨free, h1, h2⟩ := ofCapacity_accounts (T := T) n
  exact ⟨⟨_, _, h1⟩, h2⟩

/-- The first block has the slots asked for. -/
theorem ofCapacity_capacity (n : Nat) : n ≤ (ofCapacity n : MemoryPool T).capacity := by
  show n ≤ 0 + if n = 0 then 1 else n
  split <;> omega

theorem get_pop (pool : MemoryPool T) (p : Slot) (next : Option Slot) (obj : T) :
    (pool.pop p next obj).get = Function.update pool.get p (some obj) := by
  funext q
  by_cases hq : q = p
  · subst hq; simp [get, pop]
  · simp [get, pop, Function.update_of_ne hq]

theorem get_push (pool : MemoryPool T) (p : Slot) : (pool.push p).get = Function.update pool.get p none := by
  funext q
  by_cases hq : q = p
  · subst hq; simp [get, push]
  · simp [get, push, Function.update_of_ne hq]

theorem get_write (pool : MemoryPool T) (p : Slot) (obj : T) :
    (pool.write p obj).get = Function.update pool.get p (some obj) := by
  funext q
  by_cases hq : q = p
  · subst hq; simp [get, write]
  · simp [get, write, Function.update_of_ne hq]

theorem allocated_update {mem : Slot → Option (Cell T)} (c : Cell T) (hp : mem p ≠ none) (q : Slot) :
    Function.update mem p (some c) q ≠ none ↔ mem q ≠ none := by
  by_cases hq : q = p
  · subst hq; simp [hp]
  · rw [Function.update_of_ne hq]

theorem Accounts.pop (h : pool.Accounts (p :: free) live) (obj : T) :
    ∃ next, pool.freeList = some p ∧ pool.mem p = some (.free next) ∧
      (pool.pop p next obj).Accounts free (p :: live) := by
  have hth := h.threaded
  generalize ha : pool.freeList = a at hth
  cases hth with
  | @cons _ next _ hp ht =>
    have hnd := List.nodup_cons.1 h.nodupFree
    have hpl : p ∉ live := h.not_both (List.mem_cons_self ..)
    refine ⟨next, rfl, hp, ?_⟩
    constructor
    case threaded => exact ht.congr fun q hq => Function.update_of_ne (by rintro rfl; exact hnd.1 hq) ..
    case nodupFree => exact hnd.2
    case nodupLive => exact List.nodup_cons.2 ⟨hpl, h.nodupLive⟩
    case mem_free =>
      intro q
      by_cases hq : q = p
      · subst hq; simp [MemoryPool.pop, hnd.1]
      · simp only [MemoryPool.pop, Function.update_of_ne hq, ← h.mem_free q, List.mem_cons, hq, false_or]
    case mem_live =>
      intro q
      by_cases hq : q = p
      · subst hq; simp [MemoryPool.pop]
      · simp only [MemoryPool.pop, Function.update_of_ne hq, ← h.mem_live q, List.mem_cons, hq, false_or]
    case allocated => exact fun q => (allocated_update _ (by rw [hp]; simp) q).trans (h.allocated q)
    case slotsPos => exact h.slotsPos
    case liveCount =>
      show pool.liveCount + 1 = (p :: live).length
      rw [h.liveCount, List.length_cons]
    case capacity =>
      show pool.capacity = _
      rw [h.capacity, List.length_cons, List.length_cons]; omega

theorem Accounts.push (h : pool.Accounts free live) (hpl : p ∈ live) :
    (pool.push p).Accounts (p :: free) (live.erase p) ∧ (pool.push p).liveCount + 1 = pool.liveCount := by
  have hpf : p ∉ free := fun hf => h.not_both hf hpl
  obtain ⟨obj, hobj⟩ := (h.mem_live p).1 hpl
  have hlen : (live.erase p).length + 1 = live.length := by
    rw [List.length_erase_of_mem hpl]
    have := List.length_pos_of_mem hpl
    omega
  have hcount := h.liveCount
  constructor
  · constructor
    case threaded =>
      refine .cons (Function.update_self ..) (h.threaded.congr fun q hq => Function.update_of_ne ?_ ..)
      rintro rfl
      exact hpf hq
    case nodupFree => exact List.nodup_cons.2 ⟨hpf, h.nodupFree⟩
    case nodupLive => exact h.nodupLive.erase p
    case mem_free =>
      intro q
      by_cases hq : q = p
      · subst hq; simp [MemoryPool.push]
      · simp only [MemoryPool.push, Function.update_of_ne hq, ← h.mem_free q, List.mem_cons, hq, false_or]
    case mem_live =>
      intro q
      by_cases hq : q = p
      · subst hq; simp [MemoryPool.push, h.nodupLive.not_mem_erase]
      · simp only [MemoryPool.push, Function.update_of_ne hq, ← h.mem_live q, List.mem_erase_of_ne hq]
    case allocated => exact fun q => (allocated_update _ (by rw [hobj]; simp) q).trans (h.allocated q)
    case slotsPos => exact h.slotsPos
    case liveCount =>
      show pool.liveCount - 1 = _
      omega
    case capacity =>
      show pool.capacity = _
      rw [h.capacity, List.length_cons]; omega
  · show pool.liveCount - 1 + 1 = pool.liveCount
    omega

theorem Accounts.write (h : pool.Accounts free live) (hpl : p ∈ live) (obj : T) :
    (pool.write p obj).Accounts free live := by
  have hpf : p ∉ free := fun hf => h.not_both hf hpl
  obtain ⟨old, hold⟩ := (h.mem_live p).1 hpl
  have hthreaded : Threaded (pool.write p obj).mem pool.freeList free :=
    h.threaded.congr fun q hq => Function.update_of_ne (by rintro rfl; exact hpf hq) ..
  refine { h with threaded := hthreaded, mem_free := fun q => ?_, mem_live := fun q => ?_, allocated := fun q => ?_ }
  · rw [h.mem_free]
    by_cases hq : q = p
    · subst hq; simp [MemoryPool.write, hold]
    · simp only [MemoryPool.write, Function.update_of_ne hq]
  · rw [h.mem_live]
    by_cases hq : q = p
    · subst hq; simp [MemoryPool.write, hold]
    · simp only [MemoryPool.write, Function.update_of_ne hq]
  · exact (allocated_update _ (by rw [hold]; simp) q).trans (h.allocated q)

theorem Accounts.freeList_none (h : pool.Accounts free live) (hn : pool.freeList = none) : free = [] := by
  have hth := h.threaded
  rw [hn] at hth
  exact hth.eq_nil

/-- The pool that `acquire` takes the node from, grown when the free list was empty, has a free slot. -/
theorem Accounts.refill (h : pool.Accounts free live) :
    ∃ p free', (if pool.freeList = none then pool.grow else pool).Accounts (p :: free') live ∧
      (if pool.freeList = none then pool.grow else pool).get = pool.get := by
  by_cases hn : pool.freeList = none
  · obtain ⟨hg, hget⟩ := h.grow
    obtain ⟨k, hk⟩ : ∃ k, pool.slotsPerBlock = k + 1 := ⟨pool.slotsPerBlock - 1, by have := h.slotsPos; omega⟩
    rw [hk, List.range_succ, List.map_append, List.reverse_append] at hg
    rw [if_pos hn]
    exact ⟨_, _, hg, hget⟩
  · have hfree : free ≠ [] := by
      rintro rfl
      have := h.threaded
      generalize hfl : pool.freeList = a at *
      cases this
      exact hn rfl
    obtain ⟨p, free', rfl⟩ := List.exists_cons_of_ne_nil hfree
    rw [if_neg hn]
    exact ⟨p, free', h, rfl⟩

/-- `acquire` returns a slot that was not live and constructs the object there; a block is added
when the free list is empty. -/
theorem Accounts.acquire (h : pool.Accounts free live) (obj : T) :
    ∃ p pool' free', pool.acquire obj = some (p, pool') ∧ pool'.Accounts free' (p :: live) ∧ pool.get p = none ∧
      pool'.get = Function.update pool.get p (some obj) ∧
      pool'.blocks = if pool.freeList = none then pool.blocks ++ [pool.slotsPerBlock] else pool.blocks := by
  obtain ⟨p, free', hacc, hget⟩ := h.refill
  have hblocks : (if pool.freeList = none then pool.grow else pool).blocks =
      if pool.freeList = none then pool.blocks ++ [pool.slotsPerBlock] else pool.blocks := by
    split <;> rfl
  unfold MemoryPool.acquire
  generalize (if pool.freeList = none then pool.grow else pool) = pool₁ at *
  obtain ⟨next, hfl, hp, hacc'⟩ := hacc.pop obj
  refine ⟨p, pool₁.pop p next obj, free', ?_, hacc', ?_, by rw [get_pop, hget], hblocks⟩
  · simp only [hfl, Option.bind_some, hp]
  · rw [← hget]
    unfold get
    rw [hp]

theorem WF.acquire_spec (h : pool.WF) (obj : T) :
    ∃ p pool', pool.acquire obj = some (p, pool') ∧ pool'.WF ∧ pool.get p = none ∧
      pool'.get = Function.update pool.get p (some obj) ∧ pool'.liveCount = pool.liveCount + 1 := by
  obtain ⟨free, live, ha⟩ := h
  obtain ⟨p, pool', free', h1, h2, h3, h4, -⟩ := ha.acquire obj
  exact ⟨p, pool', h1, ⟨_, _, h2⟩, h3, h4, by rw [h2.liveCount, ha.liveCount, List.length_cons]⟩

/-- A pool with a slot that is not live has a free one. -/
theorem Accounts.freeList_ne (h : pool.Accounts free live) (hroom : pool.liveCount < pool.capacity) :
    pool.freeList ≠ none := by
  intro hn
  have hlen := h.capacity
  rw [h.freeList_none hn, ← h.liveCount] at hlen
  exact absurd hroom (by simp [hlen])

/-- `acquire` takes no memory while there is a slot that is not live. -/
theorem WF.acquire_room {pool' : MemoryPool T} (h : pool.WF) (hroom : pool.liveCount < pool.capacity)
    (hr : pool.acquire obj = some (p, pool')) : pool.SameBlocks pool' := by
  obtain ⟨free, live, ha⟩ := h
  unfold acquire at hr
  rw [if_neg (ha.freeList_ne hroom)] at hr
  obtain ⟨node, -, hr⟩ := Option.bind_eq_some_iff.1 hr
  split at hr
  · cases hr
    exact ⟨rfl, rfl, rfl⟩
  · cases hr

theorem modify_sameBlocks {pool' : MemoryPool T} {f : T → T} (h : pool.modify p f = some pool') :
    pool.SameBlocks pool' := by
  obtain ⟨obj, -, rfl⟩ := Option.map_eq_some_iff.1 h
  exact ⟨rfl, rfl, rfl⟩

theorem release_sameBlocks {pool' : MemoryPool T} (h : pool.release (some p) = some pool') :
    pool.SameBlocks pool' := by
  obtain ⟨obj, -, rfl⟩ := Option.map_eq_some_iff.1 h
  exact ⟨rfl, rfl, rfl⟩

/-- `release` ends the life of the object at its slot only. -/
theorem WF.release_spec (h : pool.WF) (hp : pool.get p = some obj) :
    ∃ pool', pool.release (some p) = some pool' ∧ pool'.WF ∧ pool'.get = Function.update pool.get p none ∧
      pool'.liveCount + 1 = pool.liveCount := by
  obtain ⟨free, live, ha⟩ := h
  obtain ⟨h1, h2⟩ := ha.push (ha.mem_live_iff.2 ⟨obj, hp⟩)
  exact ⟨pool.push p, by rw [release, hp]; rfl, ⟨_, _, h1⟩, get_push pool p, h2⟩

/-- A write to a live object changes that object only. -/
theorem WF.modify_spec (h : pool.WF) (hp : pool.get p = some obj) (f : T → T) :
    ∃ pool', pool.modify p f = some pool' ∧ pool'.WF ∧ pool'.get = Function.update pool.get p (some (f obj)) ∧
      pool'.liveCount = pool.liveCount := by
  obtain ⟨free, live, ha⟩ := h
  exact ⟨pool.write p (f obj), by rw [modify, hp]; rfl,
    ⟨free, live, ha.write (ha.mem_live_iff.2 ⟨obj, hp⟩) (f obj)⟩, get_write pool p (f obj), rfl⟩

end MemoryPool

end Obe
