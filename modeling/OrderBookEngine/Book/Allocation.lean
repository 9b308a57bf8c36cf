/-
The memory of the book. A call takes memory for orders only in `acquire`, and for the index only in
`insert`; both have room as long as the orders resting afterwards are no more than the constructor was
told, so the pool keeps its blocks and the index its table.
-/
import OrderBookEngine.Book.Cancel
import OrderBookEngine.Pool.Footprint
import OrderBookEngine.Pool.Layout

namespace Obe

open MemoryPool (kSlotSize orderType)

/-! ## The writes of a level -/

namespace PriceLevel

variable {heap heap' : Heap} {level level' : PriceLevel} {addr : LevelPtr} {order : Slot}

theorem enqueue_sameBlocks (h : enqueue heap level addr order = some (heap', level')) : heap.SameBlocks heap' := by
  obtain ⟨heap₁, h₁, h⟩ := Option.bind_eq_some_iff.1 h
  refine (MemoryPool.modify_sameBlocks h₁).trans ?_
  -- the order is linked behind the tail, or is the head
  split at h
  · obtain ⟨q, hq, h⟩ := Option.bind_eq_some_iff.1 h
    obtain ⟨heap₂, h₂, rfl⟩ := Option.map_eq_some_iff.1 hq
    obtain ⟨o, -, hr⟩ := Option.bind_eq_some_iff.1 h
    cases hr
    exact MemoryPool.modify_sameBlocks h₂
  · obtain ⟨q, hq, h⟩ := Option.bind_eq_some_iff.1 h
    cases hq
    obtain ⟨o, -, hr⟩ := Option.bind_eq_some_iff.1 h
    cases hr
    exact .refl _

theorem unlinkPrev_sameBlocks (h : unlinkPrev heap level order = some (heap', level')) : heap.SameBlocks heap' := by
  obtain ⟨o, -, h⟩ := Option.bind_eq_some_iff.1 h
  split at h
  · obtain ⟨heap₁, h₁, hr⟩ := Option.map_eq_some_iff.1 h
    cases hr
    exact MemoryPool.modify_sameBlocks h₁
  · cases h
    exact .refl _

theorem unlinkNext_sameBlocks (h : unlinkNext heap level order = some (heap', level')) : heap.SameBlocks heap' := by
  obtain ⟨o, -, h⟩ := Option.bind_eq_some_iff.1 h
  split at h
  · obtain ⟨heap₁, h₁, hr⟩ := Option.map_eq_some_iff.1 h
    cases hr
    exact MemoryPool.modify_sameBlocks h₁
  · cases h
    exact .refl _

theorem unlink_sameBlocks (h : unlink heap level order = some (heap', level')) : heap.SameBlocks heap' := by
  simp only [unlink, Option.bind_eq_bind, Option.bind_eq_some_iff] at h
  obtain ⟨⟨heap₁, level₁⟩, h₁, ⟨heap₂, level₂⟩, h₂, heap₃, h₃, o, -, hr⟩ := h
  cases hr
  exact ((unlinkPrev_sameBlocks h₁).trans (unlinkNext_sameBlocks h₂)).trans (MemoryPool.modify_sameBlocks h₃)

end PriceLevel

/-! ## The writes of a book -/

/-- Neither the pool nor the index has taken memory from the system. -/
structure Store.SameStorage (s s' : Store) : Prop where
  pool : s.pool.SameBlocks s'.pool
  index : s'.index.capacity = s.index.capacity

namespace Store

variable {lt : Price → Price → Prop} {s s' s'' : Store} {addr : LevelPtr} {order : Slot} {price : Price}
  {book book' : SortedMap Price LevelPtr lt}

theorem SameStorage.refl (s : Store) : s.SameStorage s := ⟨.refl _, rfl⟩

theorem SameStorage.trans (h : s.SameStorage s') (h' : s'.SameStorage s'') : s.SameStorage s'' :=
  ⟨h.pool.trans h'.pool, h'.index.trans h.index⟩

theorem removeFromIndex_storage (h : s.removeFromIndex order = some s') : s.SameStorage s' := by
  simp only [removeFromIndex, Option.bind_eq_bind, Option.bind_eq_some_iff] at h
  obtain ⟨o, -, ⟨found, index⟩, he, hr⟩ := h
  cases hr
  exact ⟨.refl _, FlatHashMap.erase_capacity he⟩

theorem unlink_storage (h : s.unlink addr order = some s') : s.SameStorage s' := by
  simp only [unlink, Option.bind_eq_bind, Option.bind_eq_some_iff] at h
  obtain ⟨level, -, ⟨pool, level'⟩, hu, hr⟩ := h
  cases hr
  exact ⟨PriceLevel.unlink_sameBlocks hu, rfl⟩

theorem release_storage (h : s.release order = some s') : s.SameStorage s' := by
  simp only [release, Option.bind_eq_bind, Option.bind_eq_some_iff] at h
  obtain ⟨pool, hp, hr⟩ := h
  cases hr
  exact ⟨MemoryPool.release_sameBlocks hp, rfl⟩

theorem fill_storage {traded : Quantity} (h : s.fill addr order traded = some s') : s.SameStorage s' := by
  simp only [fill, Option.bind_eq_bind, Option.bind_eq_some_iff] at h
  obtain ⟨pool, hp, level, -, hr⟩ := h
  cases hr
  exact ⟨MemoryPool.modify_sameBlocks hp, rfl⟩

theorem removeMaker_storage (h : s.removeMaker addr order = some s') : s.SameStorage s' := by
  simp only [removeMaker, Option.bind_eq_bind, Option.bind_eq_some_iff] at h
  obtain ⟨s₁, h₁, s₂, h₂, h₃⟩ := h
  exact ((unlink_storage h₁).trans (removeFromIndex_storage h₂)).trans (release_storage h₃)

theorem eraseLevel_storage (s : Store) (book : SortedMap Price LevelPtr lt) (price : Price) :
    s.SameStorage (s.eraseLevel book price).1 := by
  unfold eraseLevel
  split
  · exact ⟨.refl _, rfl⟩
  · exact .refl _

/-- An order is queued with writes to the pool and to the levels only. -/
theorem enqueue_storage (h : s.enqueue addr order = some s') : s.pool.SameBlocks s'.pool ∧ s'.index = s.index := by
  simp only [enqueue, Option.bind_eq_bind, Option.bind_eq_some_iff] at h
  obtain ⟨level, -, ⟨pool, level'⟩, he, hr⟩ := h
  cases hr
  exact ⟨PriceLevel.enqueue_sameBlocks he, rfl⟩

section Queue

variable [DecidableRel lt] [IsStrictTotalOrder Price lt]

theorem emplaceLevel_storage (s : Store) (book : SortedMap Price LevelPtr lt) (price : Price) :
    (s.emplaceLevel book price).2.1.pool = s.pool ∧ (s.emplaceLevel book price).2.1.index = s.index := by
  unfold emplaceLevel
  split
  · exact ⟨rfl, rfl⟩
  · exact ⟨rfl, rfl⟩

theorem queueAt_storage (h : s.queueAt book price order = some (s', book')) :
    s.pool.SameBlocks s'.pool ∧ s'.index = s.index := by
  obtain ⟨s₁, h₁, he⟩ := Option.map_eq_some_iff.1 h
  cases he
  have hqueued : (s.emplaceLevel book price).2.1.enqueue (s.emplaceLevel book price).1 order = some s' := h₁
  obtain ⟨hpool, hindex⟩ := emplaceLevel_storage s book price
  obtain ⟨hblocks, hkeep⟩ := enqueue_storage hqueued
  rw [hpool] at hblocks
  exact ⟨hblocks, hkeep.trans hindex⟩

end Queue

end Store

/-! ## match -/

section Match

variable {lt : Price → Price → Prop} {stp : SelfTradePolicy} {taker : Taker} {addr : LevelPtr} {maker : Slot}
  {m m' : Matching lt} {fuel : Nat}

theorem execute_storage (h : m.execute taker addr maker = some m') : m.toStore.SameStorage m'.toStore := by
  simp only [Matching.execute, Option.bind_eq_bind, Option.bind_eq_some_iff] at h
  obtain ⟨o, -, s₁, h₁, o', -, h⟩ := h
  have hfill : m.toStore.SameStorage s₁ := ⟨(Store.fill_storage h₁).pool, (Store.fill_storage h₁).index⟩
  refine hfill.trans ?_
  split at h
  · obtain ⟨s₂, h₂, hr⟩ := Option.bind_eq_some_iff.1 h
    cases hr
    exact Store.removeMaker_storage h₂
  · cases h
    exact .refl _

theorem matchLevel_storage (h : matchLevel stp taker addr fuel m = some m') : m.toStore.SameStorage m'.toStore := by
  induction fuel generalizing m with
  | zero =>
    rw [matchLevel] at h
    obtain ⟨level, -, h⟩ := Option.bind_eq_some_iff.1 h
    split at h
    · cases h
    · cases h
      exact .refl _
  | succ fuel ih =>
    rw [matchLevel] at h
    obtain ⟨level, -, h⟩ := Option.bind_eq_some_iff.1 h
    split at h
    · -- an own order is removed or ends the loop, any other is traded with
      obtain ⟨front, -, h⟩ := Option.bind_eq_some_iff.1 h
      obtain ⟨o, -, h⟩ := Option.bind_eq_some_iff.1 h
      split at h
      · split at h
        · obtain ⟨s, hs, h⟩ := Option.bind_eq_some_iff.1 h
          exact (Store.removeMaker_storage hs).trans (ih h)
        · cases h
          exact .refl _
      · obtain ⟨m₁, h₁, h⟩ := Option.bind_eq_some_iff.1 h
        exact (execute_storage h₁).trans (ih h)
    · cases h
      exact .refl _

theorem matchLevels_storage (h : matchLevels stp taker fuel m = some m') : m.toStore.SameStorage m'.toStore := by
  induction fuel generalizing m with
  | zero =>
    rw [matchLevels] at h
    split at h
    · cases h
    · cases h
      exact .refl _
  | succ fuel ih =>
    rw [matchLevels] at h
    split at h
    · obtain ⟨e, -, h⟩ := Option.bind_eq_some_iff.1 h
      obtain ⟨level, -, h⟩ := Option.bind_eq_some_iff.1 h
      split at h
      · obtain ⟨m₁, h₁, h⟩ := Option.bind_eq_some_iff.1 h
        refine (matchLevel_storage h₁).trans ?_
        split at h
        · cases h
          exact .refl _
        · obtain ⟨level', -, h⟩ := Option.bind_eq_some_iff.1 h
          -- an emptied level is erased before the next one
          have herase : m₁.toStore.SameStorage
              (if level'.empty then m₁.toStore.eraseLevel m₁.book e.1 else (m₁.toStore, m₁.book)).1 := by
            split
            · exact Store.eraseLevel_storage ..
            · exact .refl _
          exact herase.trans (ih h)
      · cases h
        exact .refl _
    · cases h
      exact .refl _

end Match

namespace OrderBook

variable {b b' : OrderBook} {r : ListBook} {n : Nat}

theorem matchOpposite_storage {taker : Taker} {quantity remaining : Quantity} {stopped : Bool}
    (h : b.matchOpposite taker quantity = some (b', remaining, stopped)) : b.toStore.SameStorage b'.toStore := by
  unfold matchOpposite at h
  split at h
  · obtain ⟨m, hm, hr⟩ := Option.map_eq_some_iff.1 h
    cases hr
    exact matchLevels_storage hm
  · obtain ⟨m, hm, hr⟩ := Option.map_eq_some_iff.1 h
    cases hr
    exact matchLevels_storage hm

theorem cancel_storage {id : OrderId} {found : Bool} (h : b.cancel id = some (b', found)) :
    b.toStore.SameStorage b'.toStore := by
  obtain ⟨i, -, h⟩ := Option.bind_eq_some_iff.1 h
  cases i with
  | none =>
    cases h
    exact .refl _
  | some i =>
    obtain ⟨order, -, h⟩ := Option.bind_eq_some_iff.1 h
    obtain ⟨⟨_, index⟩, he, h⟩ := Option.bind_eq_some_iff.1 h
    obtain ⟨o, -, h⟩ := Option.bind_eq_some_iff.1 h
    obtain ⟨addr, -, h⟩ := Option.bind_eq_some_iff.1 h
    obtain ⟨level, -, h⟩ := Option.bind_eq_some_iff.1 h
    obtain ⟨s₁, h₁, h⟩ := Option.bind_eq_some_iff.1 h
    obtain ⟨level₁, -, h⟩ := Option.bind_eq_some_iff.1 h
    obtain ⟨s₂, h₂, h⟩ := Option.bind_eq_some_iff.1 h
    have hindex : b.toStore.SameStorage { b.toStore with index } := ⟨.refl _, FlatHashMap.erase_capacity he⟩
    refine (hindex.trans (Store.unlink_storage h₁)).trans ((Store.release_storage h₂).trans ?_)
    split at h
    · split at h
      · cases h
        exact Store.eraseLevel_storage ..
      · cases h
        exact Store.eraseLevel_storage ..
    · cases h
      exact .refl _

/-! ## submit -/

/-- There are slots for `n` orders, and `n` entries do not fill the index to its limit. -/
structure Fits (b : OrderBook) (n : Nat) : Prop where
  pool : n ≤ b.pool.capacity
  index : n * 8 < b.index.capacity * 7

theorem Fits.mono (h : b.Fits n) (hs : b.toStore.SameStorage b'.toStore) : b'.Fits n :=
  ⟨by rw [hs.pool.capacity]; exact h.pool, by rw [hs.index]; exact h.index⟩

/-- What resting an order writes: a slot is acquired and queued, and entered in the index. -/
theorem rest_writes {taker : Taker} {remaining : Quantity} (hr : b.rest taker remaining = some b') :
    ∃ obj order pool, b.pool.acquire obj = some (order, pool) ∧ pool.SameBlocks b'.pool ∧
      b.index.insert taker.id (some order) = some b'.index := by
  obtain ⟨⟨order, pool₁⟩, h₁, hr⟩ := Option.bind_eq_some_iff.1 hr
  obtain ⟨pool₂, h₂, hr⟩ := Option.bind_eq_some_iff.1 hr
  have hsequence := MemoryPool.modify_sameBlocks h₂
  refine ⟨_, order, pool₁, h₁, ?_⟩
  split at hr
  · obtain ⟨b₁, h₃, hr⟩ := Option.bind_eq_some_iff.1 hr
    obtain ⟨⟨s, bids⟩, hq, rfl⟩ := Option.map_eq_some_iff.1 h₃
    obtain ⟨index, hi, hr⟩ := Option.bind_eq_some_iff.1 hr
    cases hr
    obtain ⟨hblocks, hindex⟩ := Store.queueAt_storage hq
    exact ⟨hsequence.trans hblocks, by rw [← hi, hindex]⟩
  · obtain ⟨b₁, h₃, hr⟩ := Option.bind_eq_some_iff.1 hr
    obtain ⟨⟨s, asks⟩, hq, rfl⟩ := Option.map_eq_some_iff.1 h₃
    obtain ⟨index, hi, hr⟩ := Option.bind_eq_some_iff.1 hr
    cases hr
    obtain ⟨hblocks, hindex⟩ := Store.queueAt_storage hq
    exact ⟨hsequence.trans hblocks, by rw [← hi, hindex]⟩

/-- An order rests in the memory there is when there is room for one more. -/
theorem rest_storage {taker : Taker} {remaining : Quantity} (h : b.Represents r) (hfit : b.Fits n)
    (hroom : r.resting.length < n) (hr : b.rest taker remaining = some b') : b.toStore.SameStorage b'.toStore := by
  have hlive := h.liveCount
  have hsize : b.index.size = r.resting.length := h.orderCount_eq
  have hfree := hfit.pool
  have hload := hfit.index
  obtain ⟨view, h⟩ := h
  obtain ⟨obj, order, pool, hacquire, hwrites, hinsert⟩ := rest_writes hr
  obtain ⟨index', hinsert', -, -, -, hcap⟩ := h.indexed.index.insert_spec taker.id (some order)
  rw [hinsert, Option.some.injEq] at hinsert'
  subst hinsert'
  rw [if_pos (by omega)] at hcap
  exact ⟨(h.shows.pool.acquire_room (by omega) hacquire).trans hwrites, hcap⟩

/-- Where a call takes memory, if it does: it rests an order behind a book that still represents one of lists. -/
def Writes (b b' : OrderBook) : Prop :=
  b.toStore.SameStorage b'.toStore ∨ ∃ (b₁ : OrderBook) (r₁ : ListBook) (taker : Taker) (remaining : Quantity),
    b.toStore.SameStorage b₁.toStore ∧ b₁.Represents r₁ ∧ b₁.rest taker remaining = some b' ∧
      b'.orderCount = r₁.resting.length + 1

theorem submit_writes {id : OrderId} {trader : TraderId} {side : Side} {price : Price} {quantity : Quantity}
    {res : SubmitResult} (h : b.Represents r) (hr : b.submit id trader side price quantity = some (b', res)) :
    b.Writes b' := by
  obtain ⟨view, h⟩ := h
  obtain ⟨refused, href, hr⟩ := Option.bind_eq_some_iff.1 hr
  have hclear : b.toStore.SameStorage { b.toStore with trades := [] } := ⟨.refl _, rfl⟩
  split at hr
  · cases hr
    exact .inl hclear
  rename_i hacc
  obtain ⟨⟨b₁, remaining, stopped⟩, h₁, hr⟩ := Option.bind_eq_some_iff.1 hr
  have hwalk : b.toStore.SameStorage b₁.toStore := hclear.trans (matchOpposite_storage h₁)
  dsimp only at hr
  split at hr
  · cases hr
    exact .inl hwalk
  split at hr
  · obtain ⟨b₂, h₂, hr⟩ := Option.bind_eq_some_iff.1 hr
    cases hr
    -- the walk of the reference book, and the order that rests behind it
    obtain ⟨b₁', view₁, h₁', hshows⟩ := h.clear_trades.matchOpposite_spec rfl ⟨id, trader, side, price⟩ quantity
    rw [h₁] at h₁'
    cases h₁'
    have hid : id ∉ r.ids := by
      rw [h.clear_trades.refuses_eq, Option.some.injEq] at href
      rw [← href, decide_eq_true_iff] at hacc
      exact fun hm => hacc (.inr hm)
    obtain ⟨b₂', view₂, h₂', hrest⟩ := hshows.rest_spec ⟨id, trader, side, price⟩ _ fun hm =>
      hid (ListBook.swept_ids hm)
    rw [h₂] at h₂'
    cases h₂'
    have hcount := Represents.orderCount_eq ⟨view₂, hrest⟩
    rw [(ListBook.rest_resting_perm ..).length_eq, List.length_cons] at hcount
    exact .inr ⟨b₁, _, _, _, hwalk, ⟨view₁, hshows⟩, h₂, hcount⟩
  · cases hr
    exact .inl hwalk

theorem step_writes {c : BookCall} {ret : BookRet} {obs : Observation} (h : b.Represents r)
    (hs : b.step c = some (b', ret, obs)) :
    (∃ r', b'.Represents r') ∧ obs.orderCount = b'.orderCount ∧ b.Writes b' := by
  obtain ⟨b₁, hs₁, hr'⟩ := step_refines b r c h
  have hstep : b₁ = b' := by
    rw [hs₁] at hs
    cases hs
    rfl
  subst hstep
  refine ⟨⟨_, hr'⟩, ?_⟩
  obtain ⟨⟨b₂, ret₂⟩, hcall, he⟩ := Option.map_eq_some_iff.1 hs
  cases he
  refine ⟨rfl, ?_⟩
  cases c with
  | submit id trader side price quantity =>
    obtain ⟨⟨b₃, res⟩, hsubmit, he⟩ := Option.map_eq_some_iff.1 hcall
    cases he
    exact submit_writes h hsubmit
  | cancel id =>
    obtain ⟨⟨b₃, found⟩, hcancel, he⟩ := Option.map_eq_some_iff.1 hcall
    cases he
    exact .inl (cancel_storage hcancel)

/-- A call takes no memory when at most `n` orders rest after it: the makers it consumed are released before it
acquires. -/
theorem Writes.storage (h : b.Writes b') (hfit : b.Fits n) (hle : b'.orderCount ≤ n) :
    b.toStore.SameStorage b'.toStore := by
  rcases h with hsame | ⟨b₁, r₁, taker, remaining, hsame, h₁, hrest, hcount⟩
  · exact hsame
  · exact hsame.trans (rest_storage h₁ (hfit.mono hsame) (by omega) hrest)

/-! ## Whole runs -/

/-- What a run within the capacity keeps: the book is sound and has the memory it was built with. -/
structure Within (b₀ b : OrderBook) : Prop where
  sound : ∃ r, b.Represents r
  storage : b₀.toStore.SameStorage b.toStore

theorem Within.step {b₀ : OrderBook} {c : BookCall} {ret : BookRet} {obs : Observation} (h : Within b₀ b)
    (hfit : b₀.Fits n) (hs : b.step c = some (b', ret, obs)) (hle : obs.orderCount ≤ n) : Within b₀ b' := by
  obtain ⟨r, hr⟩ := h.sound
  obtain ⟨hsound, hcount, hwrites⟩ := step_writes hr hs
  exact ⟨hsound, h.storage.trans (hwrites.storage (hfit.mono h.storage) (by omega))⟩

/-- The constructor makes room for as many orders as it is told, when the product in `reserve` does not wrap. -/
theorem create_fits {stp : SelfTradePolicy} {poolCapacity : UInt64} (hn : poolCapacity.toNat * 8 < 2 ^ 64)
    (h : create stp poolCapacity = some b) : b.Fits poolCapacity.toNat := by
  have h16 : (16 : UInt64).toNat ≤ 2 ^ 63 := by decide
  obtain ⟨m, hr, hw, -⟩ := @FlatHashMap.ofCapacity_spec (Option Slot) _ _ h16
  obtain ⟨index, hr', -, -, -, hroom⟩ := hw.reserve_spec poolCapacity
  unfold create at h
  rw [hr] at h
  simp only [Option.bind_eq_bind, Option.bind_some, hr'] at h
  cases h
  exact ⟨MemoryPool.ofCapacity_capacity _, hroom hn⟩

/-- **Within the declared capacity the book takes no memory for its orders.** When no call of a run
leaves more orders resting than the pool capacity, the pool keeps its blocks and the index its table,
however many orders pass through: a growth adds a block, and a rehash doubles the table. -/
theorem run_keeps_storage (stp : SelfTradePolicy) (poolCapacity : UInt64) :
    ∃ b₀, create stp poolCapacity = some b₀ ∧ (poolCapacity.toNat * 8 < 2 ^ 64 →
      ∀ calls, ∃ b outs, Machine.run step b₀ calls = some (b, outs) ∧
        ((∀ out ∈ outs, out.2.orderCount ≤ poolCapacity.toNat) →
          b.pool.blockCount = b₀.pool.blockCount ∧ b.pool.capacity = b₀.pool.capacity ∧
          b.index.capacity = b₀.index.capacity)) := by
  obtain ⟨b₀, hr, h₀⟩ := create_spec stp poolCapacity
  refine ⟨b₀, hr, fun hn calls => ?_⟩
  obtain ⟨b, hrun, -⟩ := step_refines.run h₀ calls
  refine ⟨b, _, hrun, fun hle => ?_⟩
  have hfit := create_fits hn hr
  have hstart : Within b₀ b₀ := ⟨⟨_, h₀⟩, .refl _⟩
  obtain ⟨-, hblocks, hindex⟩ := Machine.run_invariant
    (fun b c b' out h hs hout => Within.step h hfit hs hout) hstart hrun hle
  exact ⟨congrArg List.length hblocks.blocks, hblocks.capacity, hindex⟩

/-! ## The bytes of the blocks -/

/-- What a run keeps that never leaves more than `most` orders resting: the pool, whose first block has `first`
slots, has grown no further than these need. -/
structure GrownFor (first most : Nat) (b : OrderBook) : Prop where
  sound : ∃ r, b.Represents r
  grown : ∃ held, held ≤ most ∧ b.pool.Grown first held
  built : 0 < b.pool.blockCount

theorem GrownFor.step {first most : Nat} {c : BookCall} {ret : BookRet} {obs : Observation}
    (h : b.GrownFor first most) (hfirst : 0 < first) (hs : b.step c = some (b', ret, obs))
    (hle : obs.orderCount ≤ most) : b'.GrownFor first most := by
  obtain ⟨r, hr⟩ := h.sound
  obtain ⟨hsound, hcount, hwrites⟩ := step_writes hr hs
  obtain ⟨held, hheld, hgrown⟩ := h.grown
  rcases hwrites with hsame | ⟨b₁, r₁, taker, remaining, hsame, h₁, hrest, hresting⟩
  · exact ⟨hsound, ⟨held, hheld, hgrown.same hsame.pool⟩, by rw [hsame.pool.blockCount]; exact h.built⟩
  · -- the slot is acquired where as many are live as orders rest
    obtain ⟨obj, order, pool, hacquire, hrested, -⟩ := rest_writes hrest
    have hlive := h₁.liveCount
    obtain ⟨view, hshows⟩ := h₁
    obtain ⟨free, live, hacc⟩ := hshows.shows.pool
    rw [hacc.liveCount] at hlive
    obtain ⟨hgrown', hbuilt⟩ :=
      (hgrown.same hsame.pool).acquire hfirst (by rw [hsame.pool.blockCount]; exact h.built) hacc hacquire
    exact ⟨hsound, ⟨_, by omega, hgrown'.same hrested⟩, by rw [hrested.blockCount]; exact hbuilt⟩

/-- **The bytes of the orders do not wrap.** A book that never has more than `most` orders resting asks for
blocks whose bytes fit in a word, as long as those of `2 * most` orders and the first block do. -/
theorem run_no_wrap {stp : SelfTradePolicy} {poolCapacity : UInt64} {most : Nat} {b₀ : OrderBook}
    {calls : List BookCall} {outs : List (BookRet × Observation)}
    (hfit : (2 * most + max 1 poolCapacity.toNat) * (kSlotSize orderType).toNat < 2 ^ 64)
    (hc : create stp poolCapacity = some b₀) (hr : Machine.run step b₀ calls = some (b, outs))
    (hle : ∀ out ∈ outs, out.2.orderCount ≤ most) :
    ∀ n ∈ b.pool.blocks, n * (kSlotSize orderType).toNat < 2 ^ 64 := by
  have hfirst : (if poolCapacity.toNat = 0 then 1 else poolCapacity.toNat) = max 1 poolCapacity.toNat := by
    split <;> omega
  obtain ⟨b₁, hc₁, h₀⟩ := create_spec stp poolCapacity
  rw [hc] at hc₁
  cases hc₁
  have hpool : b₀.pool = .ofCapacity poolCapacity.toNat := by
    simp only [create, Option.bind_eq_bind, Option.bind_eq_some_iff] at hc
    obtain ⟨_, -, _, -, hc⟩ := hc
    cases hc
    rfl
  have hstart : b₀.GrownFor (max 1 poolCapacity.toNat) most := by
    refine ⟨⟨_, h₀⟩, ⟨0, Nat.zero_le _, ?_⟩, by rw [hpool]; exact Nat.one_pos⟩
    rw [hpool, ← hfirst]
    exact .ofCapacity _
  obtain ⟨-, ⟨held, hheld, hgrown⟩, hbuilt⟩ := Machine.run_invariant (P := GrownFor (max 1 poolCapacity.toNat) most)
    (fun b c b' out h hs hout => GrownFor.step h (by omega) hs hout) hstart hr hle
  intro n hn
  have hblock := hgrown.block_le hn
  have hcap := hgrown.capacity_le hbuilt
  exact lt_of_le_of_lt (Nat.mul_le_mul_right _ (by omega)) hfit

end OrderBook

end Obe
