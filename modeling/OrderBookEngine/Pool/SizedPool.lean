/-
`MemoryPool.hpp` with the words of the code. `grow` asks for `n * kSlotSize` bytes, a product of two
words that may wrap, and then threads `n` slots through what it was given; a write outside a block is
undefined: `none`. The system gives the bytes it is asked for.

As long as the bytes of every block can be asked for, the pool does what the `MemoryPool` with the
same slots does, and its free and live slots share out the memory of the blocks. Where a block is
needed whose bytes wrap, they do not: the loop leaves the block, or it threads more slots than the
block has room for (these have cells of their own here, whatever bytes they come to lie on).
-/
import OrderBookEngine.Pool.Footprint
import OrderBookEngine.Pool.Layout

namespace Obe

open MemoryPool (CppType freeNode kSlotSize blockBytes objectBytes Room Accounts Grown holds holdsAfter Permitted
  acquires releases slotsOf peakOf le_peakOf)

/-- A pool of objects of type `T` in memory, and of type `α` in the model. A block of `n` slots has the
`blockBytes T n` bytes that `grow` asked for. -/
structure SizedPool (α : Type) where
  /-- The number of slots threaded through each block. -/
  blocks : List UInt64
  mem : Slot → Option (Cell α)
  freeList : Option Slot
  slotsPerBlock : UInt64
  capacity : UInt64
  liveCount : UInt64

namespace SizedPool

variable {α : Type}

/-- One round of the loop of `grow`, in a block of `n` slots. -/
def threadSlot (T : CppType) (n : UInt64) (b : Nat) (st : (Slot → Option (Cell α)) × Option Slot) (i : Nat) :
    Option ((Slot → Option (Cell α)) × Option Slot) :=
  if Room T n (.ofNat i) freeNode then some (MemoryPool.threadSlot b st i) else none

def grow (T : CppType) (pool : SizedPool α) : Option (SizedPool α) := do
  let n := pool.slotsPerBlock
  let st ← (List.range n.toNat).foldlM (threadSlot T n pool.blocks.length) (pool.mem, pool.freeList)
  return { pool with
    blocks := pool.blocks ++ [n]
    mem := st.1
    freeList := st.2
    slotsPerBlock := pool.slotsPerBlock * 2
    capacity := pool.capacity + n }

/-- The constructor's members before its call of `grow`. -/
def fresh (initialCapacity : UInt64) : SizedPool α :=
  { blocks := [], mem := fun _ => none, freeList := none,
    slotsPerBlock := if initialCapacity = 0 then 1 else initialCapacity, capacity := 0, liveCount := 0 }

/-- The constructor. -/
def ofCapacity (T : CppType) (initialCapacity : UInt64) : Option (SizedPool α) := (fresh initialCapacity).grow T

/-- The pool after `node`, whose link is `next`, has been popped and an object built in it. -/
def pop (pool : SizedPool α) (node : Slot) (next : Option Slot) (obj : α) : SizedPool α :=
  { pool with
    freeList := next
    liveCount := pool.liveCount + 1
    mem := Function.update pool.mem node (some (.live obj)) }

/-- The pool after the slot `p` has been put in front of the free list. -/
def push (pool : SizedPool α) (p : Slot) : SizedPool α :=
  { pool with
    mem := Function.update pool.mem p (some (.free pool.freeList))
    freeList := some p
    liveCount := pool.liveCount - 1 }

def acquire (T : CppType) (pool : SizedPool α) (obj : α) : Option (Slot × SizedPool α) :=
  (if pool.freeList = none then pool.grow T else some pool).bind fun pool => do
    let node ← pool.freeList
    let n ← pool.blocks[node.block]?
    match pool.mem node with
    | some (.free next) => if Room T n (.ofNat node.index) T then some (node, pool.pop node next obj) else none
    | _ => none

/-- What is released has been a free slot before, so its block has room for the link. -/
def release (pool : SizedPool α) : Option Slot → Option (SizedPool α)
  | none => some pool
  | some p =>
    match pool.mem p with
    | some (.live _) => some (pool.push p)
    | _ => none

/-- One call, with the pointer it returns. -/
def call (T : CppType) (pool : SizedPool α) : PoolCall α → Option (SizedPool α × Option Slot)
  | .acquire obj => (pool.acquire T obj).map fun r => (r.2, some r.1)
  | .release p => (pool.release p).map fun pool' => (pool', none)

/-- The calls on a new pool. -/
def run (T : CppType) (initialCapacity : UInt64) (calls : List (PoolCall α)) :
    Option (SizedPool α × List (Option Slot)) :=
  (ofCapacity T initialCapacity).bind fun pool => Machine.run (call T) pool calls

/-- The client releases null or a pointer it holds. -/
def LegalFrom (T : CppType) : SizedPool α → List Slot → List (PoolCall α) → Prop
  | _, _, [] => True
  | pool, live, c :: calls =>
    Permitted live c ∧ match pool.call T c with
      | some (pool', ret) => LegalFrom T pool' (holds live c ret) calls
      | none => True

def Legal (T : CppType) (initialCapacity : UInt64) (calls : List (PoolCall α)) : Prop :=
  ∀ pool, ofCapacity T initialCapacity = some pool → LegalFrom T pool [] calls

/-- The same pool with its words read as numbers. -/
def counted (pool : SizedPool α) : MemoryPool α :=
  { blocks := pool.blocks.map UInt64.toNat
    mem := pool.mem
    freeList := pool.freeList
    slotsPerBlock := pool.slotsPerBlock.toNat
    capacity := pool.capacity.toNat
    liveCount := pool.liveCount.toNat }

/-- Block `b` of the pool lies at `bases b`, where the system may have put its bytes. -/
def Placed (T : CppType) (pool : SizedPool α) (bases : Nat → Nat) : Prop :=
  ∀ b c m n, pool.blocks[b]? = some m → pool.blocks[c]? = some n → b ≠ c →
    Disjoint (Set.Ico (bases b) (bases b + (blockBytes T m).toNat))
      (Set.Ico (bases c) (bases c + (blockBytes T n).toNat))

/-- The bytes of an object of type `U` in a slot. -/
def cellBytes (T : CppType) (bases : Nat → Nat) (p : Slot) (U : CppType) : Set Nat :=
  objectBytes T (bases p.block) (.ofNat p.index) U

/-- The free and the live slots share out the slots of the blocks, and these are memory of the blocks:
each has room for an object and for a link, and no two of them share a byte. -/
structure Partition (T : CppType) (pool : SizedPool α) (free live : List Slot) : Prop where
  slots : pool.counted.Partition free live
  room : ∀ n ∈ pool.blocks, ∀ i < n, ∀ U ∈ [T, freeNode], Room T n i U
  apart : ∀ bases, pool.Placed T bases → ∀ p q, pool.counted.InBlocks p → pool.counted.InBlocks q → p ≠ q →
    ∀ U ∈ [T, freeNode], ∀ V ∈ [T, freeNode], Disjoint (cellBytes T bases p U) (cellBytes T bases q V)

/-- What the calls make of a new pool: they return, the slots are shared out between the free list and the
client, the counters agree with them, and an `acquire` that returns then hands out a slot the client does not
hold, from a new block only when it holds all others. -/
def Partitioned (T : CppType) (initialCapacity : UInt64) (calls : List (PoolCall α)) : Prop :=
  ∃ pool rets free, run T initialCapacity calls = some (pool, rets) ∧
    pool.Partition T free (holdsAfter [] calls rets) ∧
    pool.liveCount.toNat + releases calls = acquires calls ∧
    ∀ obj p pool', pool.acquire T obj = some (p, pool') → p ∉ holdsAfter [] calls rets ∧
      (pool'.blocks = pool.blocks ∨ pool'.blocks.length = pool.blocks.length + 1 ∧
        ∀ q, pool.counted.InBlocks q → q ∈ holdsAfter [] calls rets)

/-- The bytes of every block that the calls need fit in a word: of the first block, and of a later one when
the client comes to hold more slots than the blocks before it have. -/
def BlocksFit (T : CppType) (initialCapacity : UInt64) (calls : List (PoolCall α)) : Prop :=
  ∀ i, i = 0 ∨ slotsOf (max 1 initialCapacity.toNat) i < peakOf 0 calls →
    max 1 initialCapacity.toNat * 2 ^ i * (kSlotSize T).toNat < 2 ^ 64

variable {T : CppType} {pool pool' : SizedPool α} {free live : List Slot} {p q : Slot} {first most : Nat}

/-! ## Growth -/

/-- The loop of `grow` writes every node where each slot has room for one. -/
theorem threadSlots_eq (T : CppType) (n : UInt64) (b : Nat) (st : (Slot → Option (Cell α)) × Option Slot) (k : Nat) :
    (List.range k).foldlM (threadSlot T n b) st =
      if ∀ i < k, Room T n (.ofNat i) freeNode then some ((List.range k).foldl (MemoryPool.threadSlot b) st)
      else none := by
  induction k with
  | zero => rfl
  | succ k ih =>
    rw [List.range_succ, List.foldlM_append, List.foldl_append, ih]
    by_cases hbefore : ∀ i < k, Room T n (.ofNat i) freeNode
    · by_cases hk : Room T n (.ofNat k) freeNode
      · have hall : ∀ i < k + 1, Room T n (.ofNat i) freeNode := by
          intro i hi
          rcases Nat.lt_succ_iff_lt_or_eq.1 hi with h | rfl
          · exact hbefore i h
          · exact hk
        rw [if_pos hbefore, if_pos hall]
        simp [threadSlot, hk]
      · have hnot : ¬ ∀ i < k + 1, Room T n (.ofNat i) freeNode := fun h => hk (h k (Nat.lt_succ_self k))
        rw [if_pos hbefore, if_neg hnot]
        simp [threadSlot, hk]
    · have hnot : ¬ ∀ i < k + 1, Room T n (.ofNat i) freeNode :=
        fun h => hbefore fun i hi => h i (Nat.lt_succ_of_lt hi)
      rw [if_neg hbefore, if_neg hnot]
      rfl

/-- The slot that the loop threads last is the head of the free list. -/
theorem threaded_head (b k : Nat) (st : (Slot → Option (Cell α)) × Option Slot) :
    ((List.range (k + 1)).foldl (MemoryPool.threadSlot b) st).2 = some ⟨b, k⟩ := by
  rw [List.range_succ, List.foldl_append]
  rfl

/-- `grow` adds a block, if it returns. -/
theorem grow_blocks (h : pool.grow T = some pool') :
    pool'.blocks = pool.blocks ++ [pool.slotsPerBlock] ∧
      (∀ p, pool.freeList = none → pool'.freeList = some p → p.block = pool.blocks.length) := by
  obtain ⟨st, hst, hr⟩ := Option.bind_eq_some_iff.1 h
  cases hr
  refine ⟨rfl, fun p hfree hp => ?_⟩
  rw [threadSlots_eq] at hst
  split at hst
  · cases hst
    generalize pool.slotsPerBlock.toNat = k at hp
    cases k with
    | zero =>
      rw [show pool.freeList = some p from hp] at hfree
      cases hfree
    | succ k =>
      rw [threaded_head] at hp
      cases hp
      rfl
  · cases hst

/-- `grow` does not return where some slot has no room for its node. -/
theorem grow_none {i : Nat} (hi : i < pool.slotsPerBlock.toNat)
    (hroom : ¬ Room T pool.slotsPerBlock (.ofNat i) freeNode) : pool.grow T = none := by
  rw [grow, threadSlots_eq, if_neg fun h => hroom (h i hi)]
  rfl

/-- Where the next block's bytes do not wrap, `grow` is that of the pool in numbers. -/
theorem grow_counted (hfit : pool.slotsPerBlock.toNat * (kSlotSize T).toNat < 2 ^ 64)
    (hcap : pool.capacity.toNat ≤ pool.slotsPerBlock.toNat) :
    ∃ pool', pool.grow T = some pool' ∧ pool'.counted = pool.counted.grow := by
  have hslot : 8 ≤ (kSlotSize T).toNat := MemoryPool.sizeof_le (T := T) (U := freeNode) (by simp)
  have hword : pool.slotsPerBlock.toNat * 8 < 2 ^ 64 := lt_of_le_of_lt (Nat.mul_le_mul_left _ hslot) hfit
  have hroom : ∀ i < pool.slotsPerBlock.toNat, Room T pool.slotsPerBlock (.ofNat i) freeNode := by
    intro i hi
    refine .of hfit ?_ (by simp)
    rw [UInt64.lt_iff_toNat_lt, UInt64.toNat_ofNat_of_lt' (lt_trans hi pool.slotsPerBlock.toNat_lt)]
    exact hi
  refine ⟨_, by rw [grow, threadSlots_eq, if_pos hroom]; rfl, ?_⟩
  have hdouble : (pool.slotsPerBlock * 2).toNat = pool.slotsPerBlock.toNat * 2 := by
    rw [UInt64.toNat_mul]
    exact Nat.mod_eq_of_lt (show pool.slotsPerBlock.toNat * 2 < 2 ^ 64 by omega)
  have hsum : (pool.capacity + pool.slotsPerBlock).toNat = pool.capacity.toNat + pool.slotsPerBlock.toNat := by
    rw [UInt64.toNat_add]
    exact Nat.mod_eq_of_lt (by omega)
  simp only [counted, MemoryPool.grow, List.map_append, List.map_cons, List.map_nil, List.length_map, hdouble, hsum]

/-! ## The calls -/

/-- A pool whose blocks all fit, beside the accounts of the same pool in numbers: its first block has `first`
slots, and its client has held at most `most` at a time. -/
structure Tracks (T : CppType) (pool : SizedPool α) (first most : Nat) (free live : List Slot) : Prop where
  fits : ∀ n ∈ pool.blocks, n.toNat * (kSlotSize T).toNat < 2 ^ 64
  accounts : pool.counted.Accounts free live
  grown : pool.counted.Grown first most
  built : 0 < pool.counted.blockCount
  firstPos : 0 < first
  held : live.length ≤ most

theorem Tracks.capacity_le (h : pool.Tracks T first most free live) :
    pool.capacity.toNat ≤ pool.slotsPerBlock.toNat := by
  have hcap : pool.capacity.toNat = slotsOf first pool.counted.blockCount := h.grown.capacity
  have hnext : pool.slotsPerBlock.toNat = first * 2 ^ pool.counted.blockCount := h.grown.next
  have := MemoryPool.slotsOf_add first pool.counted.blockCount
  omega

theorem pop_counted {next : Option Slot} {obj : α} (hroom : pool.liveCount.toNat + 1 < 2 ^ 64) :
    (pool.pop p next obj).counted = pool.counted.pop p next obj := by
  have hcount : (pool.liveCount + 1).toNat = pool.liveCount.toNat + 1 := by
    rw [UInt64.toNat_add]
    exact Nat.mod_eq_of_lt hroom
  simp only [counted, pop, MemoryPool.pop, hcount]

theorem push_counted (hlive : 1 ≤ pool.liveCount.toNat) : (pool.push p).counted = pool.counted.push p := by
  have hcount : (pool.liveCount - 1).toNat = pool.liveCount.toNat - 1 := UInt64.toNat_sub_of_le _ _ hlive
  simp only [counted, push, MemoryPool.push, hcount]

/-- `acquire` is that of the pool in numbers, when a block that it has to add fits. -/
theorem Tracks.acquire (h : pool.Tracks T first most free live) (obj : α)
    (hfit : pool.freeList = none → pool.slotsPerBlock.toNat * (kSlotSize T).toNat < 2 ^ 64) :
    ∃ p pool', pool.acquire T obj = some (p, pool') ∧ pool.counted.acquire obj = some (p, pool'.counted) ∧
      ∀ n ∈ pool'.blocks, n.toNat * (kSlotSize T).toNat < 2 ^ 64 := by
  obtain ⟨pool₁, hpool₁, hcounted, hfits⟩ : ∃ pool₁, (if pool.freeList = none then pool.grow T else some pool) =
      some pool₁ ∧ (if pool.counted.freeList = none then pool.counted.grow else pool.counted) = pool₁.counted ∧
      ∀ n ∈ pool₁.blocks, n.toNat * (kSlotSize T).toNat < 2 ^ 64 := by
    by_cases hfree : pool.freeList = none
    · obtain ⟨pool₁, hgrow, hcounted⟩ := grow_counted (hfit hfree) h.capacity_le
      rw [if_pos hfree, if_pos (show pool.counted.freeList = none from hfree)]
      refine ⟨pool₁, hgrow, hcounted.symm, fun n hn => ?_⟩
      rw [(grow_blocks hgrow).1, List.mem_append, List.mem_singleton] at hn
      rcases hn with hn | rfl
      · exact h.fits n hn
      · exact hfit hfree
    · rw [if_neg hfree, if_neg (show pool.counted.freeList ≠ none from hfree)]
      exact ⟨pool, rfl, rfl, h.fits⟩
  obtain ⟨p, free', hacc, -⟩ := h.accounts.refill
  rw [hcounted] at hacc
  obtain ⟨next, hhead, hcell, -⟩ := hacc.pop obj
  -- the node lies in a block, which has room for the object
  obtain ⟨m, hblock, hindex⟩ := (hacc.allocated p).1 (by rw [hcell]; simp)
  rw [counted, List.getElem?_map] at hblock
  obtain ⟨n, hn, rfl⟩ := Option.map_eq_some_iff.1 hblock
  have hroom : Room T n (.ofNat p.index) T := by
    refine .of (hfits n (List.mem_of_getElem? hn)) ?_ (by simp)
    rw [UInt64.lt_iff_toNat_lt, UInt64.toNat_ofNat_of_lt' (lt_trans hindex n.toNat_lt)]
    exact hindex
  have hlive : pool₁.liveCount.toNat + 1 < 2 ^ 64 := by
    have h1 : pool₁.liveCount.toNat = live.length := hacc.liveCount
    have h2 : pool₁.capacity.toNat = live.length + (p :: free').length := hacc.capacity
    have h3 := pool₁.capacity.toNat_lt
    rw [List.length_cons] at h2
    omega
  refine ⟨p, pool₁.pop p next obj, ?_, ?_, hfits⟩
  · have hhead' : pool₁.freeList = some p := hhead
    have hcell' : pool₁.mem p = some (.free next) := hcell
    unfold SizedPool.acquire
    rw [hpool₁]
    simp [hhead', hn, hcell', hroom]
  · unfold MemoryPool.acquire
    simp only [hcounted, hhead, Option.bind_some, hcell, pop_counted hlive]

/-- A permitted call is that of the pool in numbers, when a block that it has to add fits. -/
theorem Tracks.call (h : pool.Tracks T first most free live) {c : PoolCall α} (hc : Permitted live c)
    (hfit : ∀ obj, c = .acquire obj → pool.freeList = none →
      pool.slotsPerBlock.toNat * (kSlotSize T).toNat < 2 ^ 64) :
    ∃ pool' ret free', pool.call T c = some (pool', ret) ∧ pool.counted.call c = some (pool'.counted, ret) ∧
      pool'.Tracks T first (max most (holds live c ret).length) free' (holds live c ret) ∧
      (holds live c ret).length + releases [c] = live.length + acquires [c] := by
  obtain ⟨counted', ret, free', hcall, hacc, hlen⟩ := h.accounts.call hc
  obtain ⟨hgrown, hbuilt⟩ := h.grown.call h.firstPos h.built h.accounts h.held hcall
  suffices hsame : ∃ pool', pool.call T c = some (pool', ret) ∧ counted' = pool'.counted ∧
      ∀ n ∈ pool'.blocks, n.toNat * (kSlotSize T).toNat < 2 ^ 64 by
    obtain ⟨pool', hcall', rfl, hfits⟩ := hsame
    exact ⟨pool', ret, free', hcall', hcall, ⟨hfits, hacc, hgrown, hbuilt, h.firstPos, le_max_right ..⟩, hlen⟩
  cases c with
  | acquire obj =>
    obtain ⟨p, pool', hacquire, hacquire', hfits⟩ := h.acquire obj (hfit obj rfl)
    rw [MemoryPool.call, hacquire', Option.map_some, Option.some.injEq] at hcall
    cases hcall
    exact ⟨pool', by rw [SizedPool.call, hacquire]; rfl, rfl, hfits⟩
  | release q =>
    cases q with
    | none =>
      cases hcall
      exact ⟨pool, rfl, rfl, h.fits⟩
    | some p =>
      have hp : p ∈ live := hc
      obtain ⟨obj, hobj⟩ := (h.accounts.mem_live p).1 hp
      have hlive : 1 ≤ pool.liveCount.toNat := by
        have hcount : pool.liveCount.toNat = live.length := h.accounts.liveCount
        have := List.length_pos_of_mem hp
        omega
      have hobj' : pool.mem p = some (.live obj) := hobj
      rw [MemoryPool.call, MemoryPool.release, MemoryPool.get_eq_some.2 hobj] at hcall
      cases hcall
      refine ⟨pool.push p, ?_, (push_counted hlive).symm, h.fits⟩
      rw [SizedPool.call, release]
      simp only [hobj', Option.map_some]

/-- The slot that `acquire` hands out heads the free list of the pool, grown when it was empty. -/
theorem acquire_head {obj : α} (h : pool.acquire T obj = some (p, pool')) :
    ∃ pool₁, (if pool.freeList = none then pool.grow T else some pool) = some pool₁ ∧ pool₁.freeList = some p ∧
      pool'.blocks = pool₁.blocks := by
  obtain ⟨pool₁, hpool₁, hr⟩ := Option.bind_eq_some_iff.1 h
  simp only [Option.bind_eq_bind, Option.bind_eq_some_iff] at hr
  obtain ⟨node, hnode, n, -, hr⟩ := hr
  split at hr
  · split at hr
    · cases hr
      exact ⟨pool₁, hpool₁, hnode, rfl⟩
    · cases hr
  · cases hr

/-- A call takes no block away. -/
theorem call_blocks {c : PoolCall α} {ret : Option Slot} (h : pool.call T c = some (pool', ret)) :
    pool.blocks <+: pool'.blocks ∧
      ∀ obj, c = .acquire obj → pool.freeList = none → pool.slotsPerBlock ∈ pool'.blocks := by
  cases c with
  | acquire obj =>
    obtain ⟨⟨p, pool₂⟩, hacquire, he⟩ := Option.map_eq_some_iff.1 h
    cases he
    obtain ⟨pool₁, hpool₁, -, hsame⟩ := acquire_head hacquire
    rw [hsame]
    split at hpool₁
    · rw [(grow_blocks hpool₁).1]
      exact ⟨List.prefix_append .., fun _ _ _ => by simp⟩
    · rename_i hfree
      cases hpool₁
      exact ⟨List.prefix_rfl, fun _ _ hn => absurd hn hfree⟩
  | release q =>
    obtain ⟨pool₂, hrelease, he⟩ := Option.map_eq_some_iff.1 h
    cases he
    have hsame : pool'.blocks = pool.blocks := by
      cases q with
      | none =>
        cases hrelease
        rfl
      | some p =>
        simp only [release] at hrelease
        split at hrelease
        · cases hrelease
          rfl
        · cases hrelease
    rw [hsame]
    exact ⟨List.prefix_rfl, fun _ hn => by cases hn⟩

theorem run_blocks {calls : List (PoolCall α)} {rets : List (Option Slot)}
    (h : Machine.run (call T) pool calls = some (pool', rets)) : pool.blocks <+: pool'.blocks := by
  induction calls generalizing pool rets with
  | nil =>
    cases h
    exact List.prefix_rfl
  | cons c calls ih =>
    obtain ⟨pool₁, ret, rets', hcall, hrun, -⟩ := Machine.run_cons_some h
    exact (call_blocks hcall).1.trans (ih hrun)

/-! ## Runs -/

/-- A block that `acquire` adds is one that the client's calls need. -/
theorem Tracks.grows (h : pool.Tracks T first most free live) (hfree : pool.freeList = none) (obj : α)
    (calls : List (PoolCall α)) :
    slotsOf first pool.counted.blockCount < peakOf live.length (.acquire obj :: calls) ∧
      pool.slotsPerBlock.toNat = first * 2 ^ pool.counted.blockCount := by
  have hcap : pool.counted.capacity = live.length + free.length := h.accounts.capacity
  rw [h.accounts.freeList_none hfree, List.length_nil, h.grown.capacity] at hcap
  have hpeak : live.length + 1 ≤ peakOf live.length (.acquire obj :: calls) :=
    le_trans (le_peakOf (live.length + 1) calls) (Nat.le_max_right ..)
  exact ⟨by omega, h.grown.next⟩

/-- A legal run is that of the pool in numbers, when every block that it needs fits, or when it is known to
return with blocks that do. -/
theorem Tracks.run (h : pool.Tracks T first most free live) {calls : List (PoolCall α)}
    (hl : LegalFrom T pool live calls)
    (hfit : (∀ i, slotsOf first i < max most (peakOf live.length calls) →
        first * 2 ^ i * (kSlotSize T).toNat < 2 ^ 64) ∨
      ∃ pool' rets, Machine.run (SizedPool.call T) pool calls = some (pool', rets) ∧
        ∀ n ∈ pool'.blocks, n.toNat * (kSlotSize T).toNat < 2 ^ 64) :
    ∃ pool' rets free', Machine.run (SizedPool.call T) pool calls = some (pool', rets) ∧
      Machine.run MemoryPool.call pool.counted calls = some (pool'.counted, rets) ∧
      pool'.Tracks T first (max most (peakOf live.length calls)) free' (holdsAfter live calls rets) ∧
      (holdsAfter live calls rets).length + releases calls = live.length + acquires calls := by
  induction calls generalizing pool free live most with
  | nil =>
    refine ⟨pool, [], free, rfl, rfl, ?_, rfl⟩
    show pool.Tracks T first (max most live.length) free live
    rwa [Nat.max_eq_left h.held]
  | cons c calls ih =>
    have hgrows : ∀ obj, c = .acquire obj → pool.freeList = none →
        pool.slotsPerBlock.toNat * (kSlotSize T).toNat < 2 ^ 64 := by
      rintro obj rfl hfree
      rcases hfit with hfit | ⟨pool', rets, hrun, hall⟩
      · obtain ⟨hneed, hnext⟩ := h.grows hfree obj calls
        rw [hnext]
        exact hfit _ (lt_of_lt_of_le hneed (Nat.le_max_right ..))
      · obtain ⟨pool₁, ret, rets', hcall, hrun, -⟩ := Machine.run_cons_some hrun
        exact hall _ ((run_blocks hrun).subset ((call_blocks hcall).2 obj rfl hfree))
    obtain ⟨pool₁, ret, free₁, hcall, hcall', h₁, hlen₁⟩ := h.call hl.1 hgrows
    have hl₁ : LegalFrom T pool₁ (holds live c ret) calls := by simpa only [hcall] using hl.2
    have hheld : live.length + acquires [c] - releases [c] = (holds live c ret).length := by omega
    have hpeak : max (max most (holds live c ret).length) (peakOf (holds live c ret).length calls) =
        max most (peakOf live.length (c :: calls)) := by
      have h1 := le_peakOf (holds live c ret).length calls
      have h2 := h.held
      rw [peakOf, hheld]
      omega
    have hfit₁ : (∀ i, slotsOf first i < max (max most (holds live c ret).length)
          (peakOf (holds live c ret).length calls) → first * 2 ^ i * (kSlotSize T).toNat < 2 ^ 64) ∨
        ∃ pool' rets, Machine.run (SizedPool.call T) pool₁ calls = some (pool', rets) ∧
          ∀ n ∈ pool'.blocks, n.toNat * (kSlotSize T).toNat < 2 ^ 64 := by
      rw [hpeak]
      refine hfit.imp_right ?_
      rintro ⟨pool', rets, hrun, hall⟩
      obtain ⟨pool₂, ret₂, rets', hcall₂, hrun, -⟩ := Machine.run_cons_some hrun
      rw [hcall] at hcall₂
      cases hcall₂
      exact ⟨pool', rets', hrun, hall⟩
    obtain ⟨pool', rets, free', hrun, hrun', h', hlen⟩ := ih h₁ hl₁ hfit₁
    rw [hpeak] at h'
    refine ⟨pool', ret :: rets, free', ?_, ?_, h', ?_⟩
    · rw [Machine.run_cons _ hcall, hrun]
      rfl
    · rw [Machine.run_cons _ hcall', hrun']
      rfl
    · rw [MemoryPool.acquires_cons, MemoryPool.releases_cons]
      show (holdsAfter (holds live c ret) calls rets).length + _ = _
      omega

/-! ## The constructor -/

theorem fresh_first (m : UInt64) : (fresh m : SizedPool α).slotsPerBlock.toNat = max 1 m.toNat := by
  unfold fresh
  split
  · rename_i h
    subst h
    rfl
  · rename_i h
    have hpos : m.toNat ≠ 0 := fun he => h (UInt64.toNat_inj.1 he)
    exact (Nat.max_eq_right (Nat.pos_of_ne_zero hpos)).symm

theorem fresh_counted (m : UInt64) :
    (fresh m : SizedPool α).counted.grow = MemoryPool.ofCapacity m.toNat := by
  have hfirst : (if m.toNat = 0 then 1 else m.toNat) = (fresh m : SizedPool α).slotsPerBlock.toNat := by
    rw [fresh_first]
    split <;> omega
  unfold MemoryPool.ofCapacity
  rw [hfirst]
  rfl

/-- A new pool, when its first block fits. -/
theorem ofCapacity_tracks {m : UInt64} (hfit : max 1 m.toNat * (kSlotSize T).toNat < 2 ^ 64) :
    ∃ (pool : SizedPool α) (free : List Slot), ofCapacity T m = some pool ∧
      pool.counted = MemoryPool.ofCapacity m.toNat ∧ pool.Tracks T (max 1 m.toNat) 0 free [] := by
  have hnext : (fresh m : SizedPool α).slotsPerBlock.toNat * (kSlotSize T).toNat < 2 ^ 64 := by
    rw [fresh_first]
    exact hfit
  obtain ⟨pool, hgrow, hcounted⟩ := grow_counted hnext (Nat.zero_le _)
  rw [fresh_counted] at hcounted
  obtain ⟨free, hacc, -⟩ := MemoryPool.ofCapacity_accounts (T := α) m.toNat
  have hgrown := Grown.ofCapacity (T := α) m.toNat
  rw [show (if m.toNat = 0 then 1 else m.toNat) = max 1 m.toNat by split <;> omega] at hgrown
  refine ⟨pool, free, hgrow, hcounted, ?_, ?_, ?_, ?_, by omega, Nat.le_refl 0⟩
  · intro n hn
    rw [(grow_blocks hgrow).1, List.mem_append, List.mem_singleton] at hn
    rcases hn with hn | rfl
    · cases hn
    · rw [fresh_first]
      exact hfit
  · rw [hcounted]
    exact hacc
  · rw [hcounted]
    exact hgrown
  · rw [hcounted]
    exact Nat.one_pos

/-! ## The memory of the slots -/

/-- A slot of a block, with its number as a word. -/
theorem inBlocks_word (h : pool.counted.InBlocks p) :
    ∃ n, pool.blocks[p.block]? = some n ∧ UInt64.ofNat p.index < n ∧ (UInt64.ofNat p.index).toNat = p.index := by
  obtain ⟨m, hblock, hindex⟩ := h
  rw [counted, List.getElem?_map] at hblock
  obtain ⟨n, hn, rfl⟩ := Option.map_eq_some_iff.1 hblock
  have hword : (UInt64.ofNat p.index).toNat = p.index := UInt64.toNat_ofNat_of_lt' (lt_trans hindex n.toNat_lt)
  refine ⟨n, hn, ?_, hword⟩
  rw [UInt64.lt_iff_toNat_lt, hword]
  exact hindex

/-- Slots are separate memory: objects in two slots of a pool share no byte. -/
theorem cells_apart (hfits : ∀ n ∈ pool.blocks, n.toNat * (kSlotSize T).toNat < 2 ^ 64) {bases : Nat → Nat}
    (hplaced : pool.Placed T bases) (hp : pool.counted.InBlocks p) (hq : pool.counted.InBlocks q) (hne : p ≠ q)
    {U V : CppType} (hU : U ∈ [T, freeNode]) (hV : V ∈ [T, freeNode]) :
    Disjoint (cellBytes T bases p U) (cellBytes T bases q V) := by
  obtain ⟨m, hm, hpm, hpi⟩ := inBlocks_word hp
  obtain ⟨n, hn, hqn, hqi⟩ := inBlocks_word hq
  have hfit := hfits m (List.mem_of_getElem? hm)
  unfold cellBytes
  by_cases hb : p.block = q.block
  · have hindex : p.index ≠ q.index := by
      intro hi
      apply hne
      cases p; cases q; cases hb; cases hi
      rfl
    rw [← hb] at hn ⊢
    obtain rfl : m = n := Option.some.inj (hm.symm.trans hn)
    refine MemoryPool.slots_apart hfit hpm hqn (fun he => hindex ?_) hU hV
    rw [← hpi, ← hqi, he]
  · have hroom := (MemoryPool.room_iff (bases p.block)).1 (.of hfit hpm hU)
    have hroom' := (MemoryPool.room_iff (bases q.block)).1 (.of (hfits n (List.mem_of_getElem? hn)) hqn hV)
    exact (hplaced _ _ _ _ hm hn hb).mono hroom hroom'

theorem Tracks.partition (h : pool.Tracks T first most free live) : pool.Partition T free live where
  slots := h.accounts.partition
  room n hn _ hi _ hU := .of (h.fits n hn) hi hU
  apart _ hplaced _ _ hp hq hne _ hU _ hV := cells_apart h.fits hplaced hp hq hne hU hV

/-- What `acquire` hands out, when it returns, is not live, also where its new block does not fit. -/
theorem Tracks.next (h : pool.Tracks T first most free live) {obj : α} (hr : pool.acquire T obj = some (p, pool')) :
    p ∉ live ∧ (pool'.blocks = pool.blocks ∨ pool'.blocks.length = pool.blocks.length + 1 ∧
      ∀ q, pool.counted.InBlocks q → q ∈ live) := by
  obtain ⟨pool₁, hpool₁, hhead, hblocks⟩ := acquire_head hr
  by_cases hfree : pool.freeList = none
  · rw [if_pos hfree] at hpool₁
    obtain ⟨hnew, hblock⟩ := grow_blocks hpool₁
    refine ⟨fun hp => ?_, .inr ⟨by rw [hblocks, hnew, List.length_append]; rfl, fun q hq => ?_⟩⟩
    · obtain ⟨old, hold⟩ := (h.accounts.mem_live p).1 hp
      have hlt : p.block < pool.counted.blocks.length := h.accounts.block_lt (by rw [hold]; simp)
      rw [counted, List.length_map, hblock p hfree hhead] at hlt
      exact absurd hlt (Nat.lt_irrefl _)
    · have := (h.accounts.inBlocks q).1 hq
      simpa only [h.accounts.freeList_none hfree, List.not_mem_nil, false_or] using this
  · rw [if_neg hfree] at hpool₁
    cases hpool₁
    obtain ⟨p', pool'', hacquire, hacquire', -⟩ := h.acquire obj fun hn => absurd hn hfree
    rw [hr] at hacquire
    cases hacquire
    obtain ⟨p', _, _, hspec, hacc, -⟩ := h.accounts.acquire obj
    rw [hacquire'] at hspec
    cases hspec
    exact ⟨(List.nodup_cons.1 hacc.nodupLive).1, .inl hblocks⟩

/-! ## Legal calls on a new pool -/

/-- **The pool in words is the pool in numbers**, where the bytes of every block that the calls need fit. -/
theorem run_counted {m : UInt64} {calls : List (PoolCall α)} (h : Legal T m calls) (hfit : BlocksFit T m calls) :
    ∃ pool rets free, run T m calls = some (pool, rets) ∧
      Machine.run MemoryPool.call (MemoryPool.ofCapacity m.toNat) calls = some (pool.counted, rets) ∧
      pool.Tracks T (max 1 m.toNat) (peakOf 0 calls) free (holdsAfter [] calls rets) ∧
      (holdsAfter [] calls rets).length + releases calls = acquires calls := by
  have hfirst : max 1 m.toNat * (kSlotSize T).toNat < 2 ^ 64 := by simpa using hfit 0 (.inl rfl)
  obtain ⟨pool₀, free₀, hnew, hcounted, htracks⟩ := ofCapacity_tracks hfirst
  have hneeds : ∀ i, slotsOf (max 1 m.toNat) i < max 0 (peakOf ([] : List Slot).length calls) →
      max 1 m.toNat * 2 ^ i * (kSlotSize T).toNat < 2 ^ 64 := by
    intro i hi
    rw [Nat.zero_max] at hi
    exact hfit i (.inr hi)
  obtain ⟨pool, rets, free, hrun, hrun', h', hlen⟩ := htracks.run (h pool₀ hnew) (.inl hneeds)
  rw [Nat.zero_max] at h'
  rw [hcounted] at hrun'
  rw [List.length_nil, Nat.zero_add] at hlen
  exact ⟨pool, rets, free, by rw [SizedPool.run, hnew]; exact hrun, hrun', h', hlen⟩

/-- **The pool over legal calls.** The free list and the slots the client holds share out the memory of the
blocks exactly when the bytes of every block that the calls need fit in a word. -/
theorem partitioned_iff (T : CppType) (m : UInt64) (calls : List (PoolCall α)) (h : Legal T m calls) :
    Partitioned T m calls ↔ BlocksFit T m calls := by
  constructor
  · rintro ⟨pool, rets, free, hrun, hpart, -⟩
    have hfits : ∀ n ∈ pool.blocks, n.toNat * (kSlotSize T).toNat < 2 ^ 64 := fun n hn => Room.fits (hpart.room n hn)
    obtain ⟨pool₀, hnew, hrun⟩ := Option.bind_eq_some_iff.1 hrun
    -- the first block is one of those at the end
    have hfirst : max 1 m.toNat * (kSlotSize T).toNat < 2 ^ 64 := by
      have hmem : (fresh m : SizedPool α).slotsPerBlock ∈ pool₀.blocks := by
        rw [(grow_blocks hnew).1]
        simp
      rw [← fresh_first (α := α)]
      exact hfits _ ((run_blocks hrun).subset hmem)
    obtain ⟨pool₁, free₁, hnew₁, -, htracks⟩ := ofCapacity_tracks hfirst
    rw [hnew] at hnew₁
    cases hnew₁
    obtain ⟨pool', rets', free', hrun', -, h', -⟩ := htracks.run (h pool₀ hnew) (.inr ⟨pool, rets, hrun, hfits⟩)
    rw [hrun] at hrun'
    cases hrun'
    rw [Nat.zero_max, List.length_nil] at h'
    intro i hi
    -- the block is there, with its slots
    have hcount : i < pool.counted.blockCount := by
      rcases Nat.eq_zero_or_pos i with rfl | hpos
      · exact h'.built
      · have hneed : slotsOf (max 1 m.toNat) i < peakOf 0 calls := hi.resolve_left (Nat.ne_of_gt hpos)
        by_contra hn
        have := (h'.grown.needed i hpos).2 (Nat.not_lt.1 hn)
        omega
    have hblock : max 1 m.toNat * 2 ^ i ∈ pool.counted.blocks := by
      rw [h'.grown.blocks]
      exact List.mem_map.2 ⟨i, List.mem_range.2 hcount, rfl⟩
    obtain ⟨n, hn, hslots⟩ := List.mem_map.1 hblock
    rw [← hslots]
    exact h'.fits n hn
  · intro hfit
    obtain ⟨pool, rets, free, hrun, -, h', hlen⟩ := run_counted h hfit
    refine ⟨pool, rets, free, hrun, h'.partition, ?_, fun obj p pool' => h'.next⟩
    have hcount : pool.liveCount.toNat = (holdsAfter [] calls rets).length := h'.accounts.liveCount
    rw [hcount, hlen]

/-- Growth to three blocks of orders, with a null release and a slot used again. -/
theorem partitioned_iff_orders :
    Partitioned MemoryPool.orderType 1
      [.acquire 7, .acquire 8, .release (some ⟨0, 0⟩), .release none, .acquire 9, .acquire 5, .acquire 6] := by
  refine (partitioned_iff _ 1 _ ?_).2 ?_
  · rintro pool hpool
    cases hpool
    have hheld : (⟨0, 0⟩ : Slot) ∈ [⟨1, 1⟩, ⟨0, 0⟩] := List.mem_cons_of_mem _ (List.mem_cons_self ..)
    exact ⟨trivial, trivial, hheld, trivial, trivial, trivial, trivial, trivial⟩
  · intro i hi
    have hle : 1 * 2 ^ i ≤ 4 := by
      rcases hi with rfl | hi
      · decide
      · have hneed : slotsOf 1 i < 4 := hi
        have := MemoryPool.slotsOf_add 1 i
        omega
    show 1 * 2 ^ i * 72 < 2 ^ 64
    omega

/-- A pool of eight-byte objects is told to have `2 ^ 61` slots. It asks the system for no byte, and there is
no room for the first link. -/
theorem capacity_wraps : ∃ T : CppType, T.sizeof = 8 ∧ T.alignof = 8 ∧ blockBytes T (.ofNat (2 ^ 61)) = 0 ∧
    Legal T (.ofNat (2 ^ 61)) ([] : List (PoolCall Nat)) ∧
    ¬ Partitioned T (.ofNat (2 ^ 61)) ([] : List (PoolCall Nat)) := by
  have hslots : (fresh (.ofNat (2 ^ 61)) : SizedPool Nat).slotsPerBlock = .ofNat (2 ^ 61) := rfl
  have hnew : ofCapacity freeNode (.ofNat (2 ^ 61)) = (none : Option (SizedPool Nat)) := by
    refine grow_none (i := 0) ?_ ?_
    · rw [hslots]
      decide
    · rw [hslots]
      decide
  refine ⟨freeNode, rfl, rfl, by decide, fun pool h => ?_, fun h => ?_⟩
  · rw [hnew] at h
    cases h
  · obtain ⟨pool, rets, free, hrun, -⟩ := h
    rw [run, hnew] at hrun
    cases hrun

end SizedPool

end Obe
