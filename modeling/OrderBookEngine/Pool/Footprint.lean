/-
The memory of a pool over a client's calls. Each block is twice the one before, and a block is
added only when the client holds every slot; so the blocks are exactly as many as the most slots
the client held at a time need, and the slots are at most twice as many and the first block.
-/
import OrderBookEngine.Pool.Partition

namespace Obe

namespace MemoryPool

variable {T : Type}

/-- The most slots the client holds at a time. -/
def peak : List Slot → List (PoolCall T) → List (Option Slot) → Nat
  | live, c :: calls, ret :: rets => max live.length (peak (holds live c ret) calls rets)
  | live, _, _ => live.length

/-- The same read off the calls, of a client that has `held` slots before them. -/
def peakOf (held : Nat) : List (PoolCall T) → Nat
  | [] => held
  | c :: calls => max held (peakOf (held + acquires [c] - releases [c]) calls)

theorem le_peakOf (held : Nat) (calls : List (PoolCall T)) : held ≤ peakOf held calls := by
  cases calls with
  | nil => exact Nat.le_refl _
  | cons c calls => exact Nat.le_max_left ..

theorem held_le_peak (live : List Slot) (calls : List (PoolCall T)) (rets : List (Option Slot)) :
    live.length ≤ peak live calls rets := by
  cases calls with
  | nil => exact Nat.le_refl _
  | cons c calls =>
    cases rets with
    | nil => exact Nat.le_refl _
    | cons ret rets => exact Nat.le_max_left ..

/-- The slots of the first `k` blocks, when the first of them has `n`. -/
def slotsOf (n k : Nat) : Nat := ((List.range k).map fun i => n * 2 ^ i).sum

theorem slotsOf_succ (n k : Nat) : slotsOf n (k + 1) = slotsOf n k + n * 2 ^ k := by
  simp [slotsOf, List.range_succ]

theorem slotsOf_add (n k : Nat) : slotsOf n k + n = n * 2 ^ k := by
  induction k with
  | zero => simp [slotsOf]
  | succ k ih =>
    have hsum := slotsOf_succ n k
    have hdouble : n * 2 ^ (k + 1) = n * 2 ^ k + n * 2 ^ k := by
      rw [Nat.pow_succ, ← Nat.mul_assoc, Nat.mul_two]
    omega

theorem slotsOf_mono (n : Nat) {k k' : Nat} (h : k ≤ k') : slotsOf n k ≤ slotsOf n k' := by
  have hle : n * 2 ^ k ≤ n * 2 ^ k' := Nat.mul_le_mul_left n (Nat.pow_le_pow_right (by omega) h)
  have h1 := slotsOf_add n k
  have h2 := slotsOf_add n k'
  omega

theorem slotsOf_lt {n : Nat} (hn : 0 < n) (k : Nat) : slotsOf n k < slotsOf n (k + 1) := by
  have hpos : 0 < n * 2 ^ k := Nat.mul_pos hn (Nat.pow_pos (by omega))
  have hsum := slotsOf_succ n k
  omega

/-! ## What a pool has grown to -/

/-- A pool whose first block has `n` slots, and whose client has held at most `most` at a time. -/
structure Grown (pool : MemoryPool T) (n most : Nat) : Prop where
  blocks : pool.blocks = (List.range pool.blockCount).map fun i => n * 2 ^ i
  next : pool.slotsPerBlock = n * 2 ^ pool.blockCount
  capacity : pool.capacity = slotsOf n pool.blockCount
  needed : ∀ k, 0 < k → (most ≤ slotsOf n k ↔ pool.blockCount ≤ k)

variable {pool pool' : MemoryPool T} {free live : List Slot} {n most : Nat} {p : Slot} {obj : T}

theorem SameBlocks.blockCount (h : pool.SameBlocks pool') : pool'.blockCount = pool.blockCount :=
  congrArg List.length h.blocks

/-- What `acquire` does to the blocks: it grows a pool whose free list is empty. -/
theorem acquire_blocks (h : pool.acquire obj = some (p, pool')) :
    (if pool.freeList = none then pool.grow else pool).SameBlocks pool' := by
  obtain ⟨node, -, h⟩ := Option.bind_eq_some_iff.1 h
  split at h
  · cases h
    exact ⟨rfl, rfl, rfl⟩
  · cases h

theorem Grown.ofCapacity (m : Nat) : (ofCapacity m : MemoryPool T).Grown (if m = 0 then 1 else m) 0 := by
  constructor
  case blocks => exact congrArg (fun x => [x]) (Nat.mul_one _).symm
  case next => rfl
  case capacity => simp [slotsOf, MemoryPool.ofCapacity, MemoryPool.grow, blockCount]
  case needed => exact fun k hk => iff_of_true (Nat.zero_le _) hk

/-- Growth adds the next block. -/
theorem Grown.grow (h : pool.Grown n most) (hn : 0 < n) :
    pool.grow.Grown n (pool.capacity + 1) := by
  have hcount : pool.grow.blockCount = pool.blockCount + 1 := by simp [blockCount, MemoryPool.grow]
  constructor
  case blocks =>
    rw [hcount, List.range_succ, List.map_append, ← h.blocks]
    show pool.blocks ++ [pool.slotsPerBlock] = _
    rw [h.next]
    rfl
  case next =>
    rw [hcount, Nat.pow_succ, ← Nat.mul_assoc, ← h.next]
    rfl
  case capacity =>
    rw [hcount]
    show pool.capacity + pool.slotsPerBlock = _
    rw [h.capacity, h.next, slotsOf_succ]
  case needed =>
    intro k _
    rw [hcount, h.capacity]
    constructor
    · intro hk
      by_contra hlt
      have := slotsOf_mono n (Nat.le_of_lt_succ (Nat.not_le.1 hlt))
      omega
    · intro hk
      have h1 := slotsOf_lt hn pool.blockCount
      have h2 := slotsOf_mono n hk
      omega

/-- Calls that take no memory. -/
theorem Grown.same (h : pool.Grown n most) (hs : pool.SameBlocks pool') : pool'.Grown n most := by
  refine ⟨?_, ?_, ?_, ?_⟩
  · rw [hs.blocks, hs.blockCount]; exact h.blocks
  · rw [hs.slotsPerBlock, hs.blockCount]; exact h.next
  · rw [hs.capacity, hs.blockCount]; exact h.capacity
  · rw [hs.blockCount]; exact h.needed

/-- The same pool, whose client has come to hold more of its slots. -/
theorem Grown.more (h : pool.Grown n most) {most' : Nat} (hle : most ≤ most') (hcap : most' ≤ pool.capacity) :
    pool.Grown n most' := by
  refine { h with needed := fun k hk => ?_ }
  constructor
  · exact fun hk' => (h.needed k hk).1 (Nat.le_trans hle hk')
  · intro hk'
    have := slotsOf_mono n hk'
    rw [← h.capacity] at this
    omega

/-- The most the client has held fits. -/
theorem Grown.fits (h : pool.Grown n most) (hpos : 0 < pool.blockCount) : most ≤ pool.capacity := by
  rw [h.capacity]
  exact (h.needed _ hpos).2 (Nat.le_refl _)

theorem Grown.block_le (h : pool.Grown n most) {b : Nat} (hb : b ∈ pool.blocks) : b ≤ pool.capacity := by
  rw [h.blocks] at hb
  obtain ⟨i, hi, rfl⟩ := List.mem_map.1 hb
  have hsum := slotsOf_succ n i
  have hmono : slotsOf n (i + 1) ≤ slotsOf n pool.blockCount := slotsOf_mono n (List.mem_range.1 hi)
  rw [h.capacity]
  omega

/-- The slots are at most twice as many as the client has held, and the first block: one block less was not
enough. -/
theorem Grown.capacity_le (h : pool.Grown n most) (hpos : 0 < pool.blockCount) :
    pool.capacity ≤ 2 * most + n := by
  rw [h.capacity]
  obtain ⟨k, hk⟩ : ∃ k, pool.blockCount = k + 1 := ⟨pool.blockCount - 1, by omega⟩
  have h1 := slotsOf_add n k
  have h2 := slotsOf_succ n k
  have h3 := h.needed k
  rw [hk] at h3 ⊢
  rcases Nat.eq_zero_or_pos k with rfl | hk0
  · omega
  · have := h3 hk0
    omega

theorem Grown.acquire (h : pool.Grown n most) (hn : 0 < n) (hpos : 0 < pool.blockCount)
    (hacc : pool.Accounts free live) (hr : pool.acquire obj = some (p, pool')) :
    pool'.Grown n (max most (live.length + 1)) ∧ 0 < pool'.blockCount := by
  have hsame := acquire_blocks hr
  have hfits := h.fits hpos
  have hcapacity := hacc.capacity
  -- the pool the slot is taken from has grown to as much
  suffices hgrown : (if pool.freeList = none then pool.grow else pool).Grown n (max most (live.length + 1)) ∧
      0 < (if pool.freeList = none then pool.grow else pool).blockCount by
    exact ⟨hgrown.1.same hsame, by rw [hsame.blockCount]; exact hgrown.2⟩
  by_cases hfree : pool.freeList = none
  · rw [hacc.freeList_none hfree, List.length_nil] at hcapacity
    rw [if_pos hfree, Nat.max_eq_right (by omega), show live.length = pool.capacity by omega]
    refine ⟨h.grow hn, ?_⟩
    simp [blockCount, MemoryPool.grow]
  · have hroom : 0 < free.length := by
      rcases free with _ | ⟨q, free⟩
      · have hth := hacc.threaded
        generalize pool.freeList = a at hth hfree
        cases hth
        exact absurd rfl hfree
      · exact Nat.succ_pos _
    rw [if_neg hfree]
    exact ⟨h.more (Nat.le_max_left ..) (by omega), hpos⟩

/-! ## Over a client's calls -/

/-- A permitted call, with the most the client has held so far. -/
theorem Grown.call (h : pool.Grown n most) (hn : 0 < n) (hpos : 0 < pool.blockCount) (hacc : pool.Accounts free live)
    {c : PoolCall T} {ret : Option Slot} (hmost : live.length ≤ most) (hr : pool.call c = some (pool', ret)) :
    pool'.Grown n (max most (holds live c ret).length) ∧ 0 < pool'.blockCount := by
  cases c with
  | acquire obj =>
    obtain ⟨⟨p, pool₁⟩, hacquire, he⟩ := Option.map_eq_some_iff.1 hr
    cases he
    exact h.acquire hn hpos hacc hacquire
  | release q =>
    obtain ⟨pool₁, hrelease, he⟩ := Option.map_eq_some_iff.1 hr
    cases he
    cases q with
    | none =>
      cases hrelease
      rw [holds, Nat.max_eq_left hmost]
      exact ⟨h, hpos⟩
    | some p =>
      have hsame := release_sameBlocks hrelease
      have hle : (live.erase p).length ≤ most := Nat.le_trans (List.erase_sublist).length_le hmost
      rw [holds, Nat.max_eq_left hle]
      exact ⟨h.same hsame, by rw [hsame.blockCount]; exact hpos⟩

theorem Grown.run (h : pool.Grown n most) (hn : 0 < n) (hpos : 0 < pool.blockCount) (hacc : pool.Accounts free live)
    (hmost : live.length ≤ most) {calls : List (PoolCall T)} (hl : Legal pool live calls) :
    ∃ pool' rets, Machine.run MemoryPool.call pool calls = some (pool', rets) ∧
      pool'.Grown n (max most (peak live calls rets)) ∧ 0 < pool'.blockCount := by
  induction calls generalizing pool free live most with
  | nil =>
    refine ⟨pool, [], rfl, ?_, hpos⟩
    show pool.Grown n (max most live.length)
    rwa [Nat.max_eq_left hmost]
  | cons c calls ih =>
    obtain ⟨pool₁, ret, free₁, hcall, hacc₁, -⟩ := hacc.call hl.1
    obtain ⟨h₁, hpos₁⟩ := h.call hn hpos hacc hmost hcall
    have hl₁ : Legal pool₁ (holds live c ret) calls := by simpa only [hcall] using hl.2
    obtain ⟨pool', rets, hrun, h', hpos'⟩ := ih h₁ hpos₁ hacc₁ (Nat.le_max_right ..) hl₁
    refine ⟨pool', ret :: rets, by rw [Machine.run_cons _ hcall, hrun]; rfl, ?_, hpos'⟩
    have hpeak : max (max most (holds live c ret).length) (peak (holds live c ret) calls rets) =
        max most (peak live (c :: calls) (ret :: rets)) := by
      have hheld := held_le_peak (holds live c ret) calls rets
      rw [peak]
      omega
    rwa [hpeak] at h'

/-- What the client holds at a time does not depend on which slots the pool hands out. -/
theorem Accounts.peak_eq (h : pool.Accounts free live) {calls : List (PoolCall T)} {rets : List (Option Slot)}
    (hl : Legal pool live calls) (hr : Machine.run MemoryPool.call pool calls = some (pool', rets)) :
    peak live calls rets = peakOf live.length calls := by
  induction calls generalizing pool free live rets with
  | nil =>
    cases hr
    rfl
  | cons c calls ih =>
    obtain ⟨pool₁, ret, free₁, hcall, h₁, hlen₁⟩ := h.call hl.1
    obtain ⟨pool₂, ret₂, rets', hcall₂, hrun, rfl⟩ := Machine.run_cons_some hr
    rw [hcall] at hcall₂
    cases hcall₂
    have hl₁ : Legal pool₁ (holds live c ret) calls := by simpa only [hcall] using hl.2
    have hheld : live.length + acquires [c] - releases [c] = (holds live c ret).length := by omega
    rw [peak, peakOf, hheld, ih h₁ hl₁ hrun]

/-- A client that never releases could not have held more. -/
theorem peak_le_acquires (live : List Slot) (calls : List (PoolCall T)) (rets : List (Option Slot)) :
    peak live calls rets ≤ live.length + acquires calls := by
  induction calls generalizing live rets with
  | nil => cases rets <;> exact Nat.le_refl _
  | cons c calls ih =>
    cases rets with
    | nil => exact Nat.le_add_right ..
    | cons ret rets =>
      have hheld : (holds live c ret).length ≤ live.length + acquires [c] := by
        cases c with
        | acquire obj => cases ret <;> simp [holds, acquires]
        | release q =>
          cases q with
          | none => exact Nat.le_add_right ..
          | some p => exact Nat.le_trans (List.erase_sublist).length_le (Nat.le_add_right ..)
      have := ih (holds live c ret) rets
      rw [peak, acquires_cons]
      omega

/-- **The footprint of a pool.** After any legal calls the blocks double from the first, and they are just
as many as the most slots the client has held at a time need: `k` blocks are enough for that exactly when
the pool has no more. The slots ever threaded are at most twice as many and the first block, and no block
wraps whose slots have a size with which these fit in a word. -/
theorem footprint (m : Nat) (calls : List (PoolCall T)) (h : Legal (ofCapacity m) [] calls) :
    ∃ pool rets, Machine.run call (ofCapacity m) calls = some (pool, rets) ∧
      pool.blocks = (List.range pool.blockCount).map (fun i => max 1 m * 2 ^ i) ∧
      pool.capacity = pool.blocks.sum ∧
      (∀ k, 0 < k → (peak [] calls rets ≤ slotsOf (max 1 m) k ↔ pool.blockCount ≤ k)) ∧
      pool.capacity ≤ 2 * peak [] calls rets + max 1 m ∧ peak [] calls rets ≤ acquires calls ∧
      peak [] calls rets = peakOf 0 calls ∧
      ∀ size, (2 * peak [] calls rets + max 1 m) * size < 2 ^ 64 → ∀ b ∈ pool.blocks, b * size < 2 ^ 64 := by
  have hfirst : (if m = 0 then 1 else m) = max 1 m := by split <;> omega
  have hn : 0 < max 1 m := by omega
  obtain ⟨free, hacc, -⟩ := ofCapacity_accounts (T := T) m
  have hgrown := Grown.ofCapacity (T := T) m
  rw [hfirst] at hgrown
  obtain ⟨pool, rets, hrun, hg, hpos⟩ := hgrown.run hn Nat.one_pos hacc (Nat.le_refl 0) h
  rw [Nat.zero_max] at hg
  have hbound := hg.capacity_le hpos
  refine ⟨pool, rets, hrun, hg.blocks, ?_, hg.needed, hbound, ?_, hacc.peak_eq h hrun, fun size hsize b hb => ?_⟩
  · rw [hg.capacity, slotsOf, ← hg.blocks]
  · have := peak_le_acquires [] calls rets
    rwa [List.length_nil, Nat.zero_add] at this
  · exact Nat.lt_of_le_of_lt (Nat.mul_le_mul_right size (Nat.le_trans (hg.block_le hb) hbound)) hsize

/-- A pool of one slot whose client comes to hold three, by way of two. -/
theorem footprint_three :
    ∃ pool rets, Machine.run call (ofCapacity 0 : MemoryPool Nat)
        [.acquire 7, .acquire 8, .release (some ⟨0, 0⟩), .acquire 9, .acquire 5] = some (pool, rets) ∧
      pool.capacity = pool.blocks.sum ∧
      pool.capacity ≤ 2 * peak [] [.acquire 7, .acquire 8, .release (some ⟨0, 0⟩), .acquire 9, .acquire 5] rets + 1 := by
  obtain ⟨pool, rets, hrun, -, hsum, -, hle, -⟩ := footprint (T := Nat) 0
    [.acquire 7, .acquire 8, .release (some ⟨0, 0⟩), .acquire 9, .acquire 5]
    ⟨trivial, trivial, List.mem_cons_of_mem _ (List.mem_cons_self ..), trivial, trivial, trivial⟩
  exact ⟨pool, rets, hrun, hsum, hle⟩

end MemoryPool

end Obe
