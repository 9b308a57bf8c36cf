/-
A client's calls on a `MemoryPool`: it releases null or a pointer it holds. The slots it holds and
the free list share out the slots of all blocks, before and after every such call.
-/
import OrderBookEngine.Lib.Machine
import OrderBookEngine.Pool.MemoryPool

namespace Obe

/-- A call of the pool's client. -/
inductive PoolCall (T : Type)
  | acquire (obj : T)
  | release (obj : Option Slot)

namespace MemoryPool

variable {T : Type}

/-- One call, with the pointer it returns. -/
def call (pool : MemoryPool T) : PoolCall T → Option (MemoryPool T × Option Slot)
  | .acquire obj => (pool.acquire obj).map fun r => (r.2, some r.1)
  | .release p => (pool.release p).map fun pool' => (pool', none)

/-- The slots the client holds after a call that returned `ret`. -/
def holds (live : List Slot) : PoolCall T → Option Slot → List Slot
  | .acquire _, some p => p :: live
  | .acquire _, none => live
  | .release (some p), _ => live.erase p
  | .release none, _ => live

def holdsAfter : List Slot → List (PoolCall T) → List (Option Slot) → List Slot
  | live, c :: calls, ret :: rets => holdsAfter (holds live c ret) calls rets
  | live, _, _ => live

/-- The contract of `release`: null, or a pointer the client holds. -/
def Permitted (live : List Slot) : PoolCall T → Prop
  | .release (some p) => p ∈ live
  | _ => True

def Legal : MemoryPool T → List Slot → List (PoolCall T) → Prop
  | _, _, [] => True
  | pool, live, c :: calls =>
    Permitted live c ∧ match pool.call c with
      | some (pool', ret) => Legal pool' (holds live c ret) calls
      | none => True

def acquires : List (PoolCall T) → Nat
  | [] => 0
  | .acquire _ :: calls => acquires calls + 1
  | .release _ :: calls => acquires calls

/-- The releases of pointers other than null. -/
def releases : List (PoolCall T) → Nat
  | [] => 0
  | .release (some _) :: calls => releases calls + 1
  | _ :: calls => releases calls

/-- The slot belongs to a block of the pool. -/
def InBlocks (pool : MemoryPool T) (p : Slot) : Prop := ∃ n, pool.blocks[p.block]? = some n ∧ p.index < n

/-- The free list, followed from its head, and the live slots share out the slots of the blocks. -/
structure Partition (pool : MemoryPool T) (free live : List Slot) : Prop where
  threaded : Threaded pool.mem pool.freeList free
  free_once : free.Nodup
  live_once : live.Nodup
  disjoint : ∀ p ∈ free, p ∉ live
  all : ∀ p, pool.InBlocks p ↔ p ∈ free ∨ p ∈ live
  objects : ∀ p, p ∈ live ↔ ∃ obj, pool.get p = some obj
  liveCount : pool.liveCount = live.length
  capacity : pool.capacity = pool.liveCount + free.length

variable {pool : MemoryPool T} {free live : List Slot}

theorem Accounts.inBlocks (h : pool.Accounts free live) (p : Slot) : pool.InBlocks p ↔ p ∈ free ∨ p ∈ live := by
  rw [InBlocks, ← h.allocated p, h.mem_free, h.mem_live]
  constructor
  · intro hp
    cases hm : pool.mem p with
    | none => exact absurd hm hp
    | some c =>
      cases c with
      | free next => exact .inl ⟨next, rfl⟩
      | live obj => exact .inr ⟨obj, rfl⟩
  · rintro (⟨next, hn⟩ | ⟨obj, ho⟩)
    · rw [hn]; simp
    · rw [ho]; simp

theorem Accounts.partition (h : pool.Accounts free live) : pool.Partition free live :=
  ⟨h.threaded, h.nodupFree, h.nodupLive, fun _ hf => h.not_both hf, h.inBlocks, fun _ => h.mem_live_iff, h.liveCount,
    by rw [h.capacity, h.liveCount]⟩

/-- A permitted call returns and keeps the accounts with the slots the client holds then. -/
theorem Accounts.call (h : pool.Accounts free live) {c : PoolCall T} (hc : Permitted live c) :
    ∃ pool' ret free', pool.call c = some (pool', ret) ∧ pool'.Accounts free' (holds live c ret) ∧
      (holds live c ret).length + releases [c] = live.length + acquires [c] := by
  cases c with
  | acquire obj =>
    obtain ⟨p, pool', free', h1, h2, -⟩ := h.acquire obj
    exact ⟨pool', some p, free', by rw [MemoryPool.call, h1]; rfl, h2, rfl⟩
  | release q =>
    cases q with
    | none => exact ⟨pool, none, free, rfl, h, rfl⟩
    | some p =>
      have hp : p ∈ live := hc
      obtain ⟨obj, hobj⟩ := h.mem_live_iff.1 hp
      refine ⟨pool.push p, none, p :: free, ?_, (h.push hp).1, ?_⟩
      · rw [MemoryPool.call, release, hobj]
        rfl
      · have := List.length_pos_of_mem hp
        show (live.erase p).length + 1 = live.length
        rw [List.length_erase_of_mem hp]
        omega

theorem acquires_cons (c : PoolCall T) (calls : List (PoolCall T)) :
    acquires (c :: calls) = acquires [c] + acquires calls := by
  cases c with
  | acquire obj => exact Nat.add_comm ..
  | release p => exact (Nat.zero_add _).symm

theorem releases_cons (c : PoolCall T) (calls : List (PoolCall T)) :
    releases (c :: calls) = releases [c] + releases calls := by
  cases c with
  | acquire obj => exact (Nat.zero_add _).symm
  | release p =>
    cases p with
    | none => exact (Nat.zero_add _).symm
    | some p => exact Nat.add_comm ..

end MemoryPool

end Obe
