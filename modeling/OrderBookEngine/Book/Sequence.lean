/-
The levels of one memory, called in any order, and the sequences they stand for: `enqueue` appends
an order that is in no sequence, `unlink` erases one wherever it stands, a fill changes what an order
has left. The calls are run on the levels and on the sequences side by side.
-/
import OrderBookEngine.Book.PriceLevel
import OrderBookEngine.Lib.Machine

namespace Obe

/-- A call on the level at `addr`. A fill is `fill` of the order and `on_fill` of its level. -/
inductive LevelCall
  | enqueue (addr : LevelPtr) (order : Slot)
  | unlink (addr : LevelPtr) (order : Slot)
  | fill (addr : LevelPtr) (order : Slot) (qty : Quantity)
  deriving DecidableEq, Repr

/-- The orders' memory, and the level at every address. -/
structure Levels where
  heap : Heap
  level : LevelPtr → PriceLevel

def Levels.call (s : Levels) : LevelCall → Option Levels
  | .enqueue addr order =>
    (PriceLevel.enqueue s.heap (s.level addr) addr order).map fun r => ⟨r.1, Function.update s.level addr r.2⟩
  | .unlink addr order =>
    (PriceLevel.unlink s.heap (s.level addr) order).map fun r => ⟨r.1, Function.update s.level addr r.2⟩
  | .fill addr order qty =>
    (s.heap.modify order fun o => (o.fill qty).1).map fun heap =>
      ⟨heap, Function.update s.level addr ((s.level addr).onFill qty)⟩

/-- What levels are for: the orders of each, oldest first, and what every order has left. -/
structure Sequences where
  held : LevelPtr → List Slot
  remaining : Slot → Option Quantity

namespace Sequences

def call (q : Sequences) : LevelCall → Sequences
  | .enqueue addr order => { q with held := Function.update q.held addr (q.held addr ++ [order]) }
  | .unlink addr order => { q with held := Function.update q.held addr ((q.held addr).erase order) }
  | .fill _ order qty => { q with remaining := Function.update q.remaining order ((q.remaining order).map (· - qty)) }

/-- An order to enqueue is in no level, one to unlink or to fill is in the level called. -/
def Allowed (q : Sequences) : LevelCall → Prop
  | .enqueue _ order => (q.remaining order).isSome ∧ ∀ addr, order ∉ q.held addr
  | .unlink addr order => order ∈ q.held addr
  | .fill addr order qty => order ∈ q.held addr ∧ ∃ r, q.remaining order = some r ∧ qty ≤ r

/-- No order is in a level yet. -/
def start (heap : Heap) : Sequences := { held := fun _ => [], remaining := fun p => (heap.get p).map (·.remaining) }

end Sequences

/-- An order that is in no level. -/
def Order.Unlinked (o : Order) : Prop := o.prev = none ∧ o.next = none ∧ o.level = none

/-- The levels hold the sequences, and an order in none of them is unlinked. -/
structure LevelsRep (s : Levels) (q : Sequences) : Prop where
  wf : s.heap.WF
  rep : ∀ addr, LevelRep s.heap.get addr (s.level addr) (q.held addr)
  remaining : ∀ p, (s.heap.get p).map (·.remaining) = q.remaining p
  unlinked : ∀ p o, s.heap.get p = some o → (∀ addr, p ∉ q.held addr) → o.Unlinked

namespace LevelsRep

variable {s : Levels} {q : Sequences} {addr : LevelPtr} {p : Slot} {qty : Quantity}

/-- An order is in one level at most. -/
theorem disjoint (h : LevelsRep s q) {a b : LevelPtr} (ha : p ∈ q.held a) (hb : p ∈ q.held b) : a = b := by
  obtain ⟨o, ho, hla⟩ := (h.rep a).member p ha
  obtain ⟨o', ho', hlb⟩ := (h.rep b).member p hb
  rw [ho] at ho'; cases ho'
  exact Option.some.inj (hla.symm.trans hlb)

/-- What a call on one level leaves of the others. -/
theorem rep_update {heap : Heap} {level : PriceLevel} {L : List Slot} (h : LevelsRep s q)
    (hsame : ∀ b ≠ addr, ∀ x ∈ q.held b, heap.get x = s.heap.get x) (hrep : LevelRep heap.get addr level L)
    (b : LevelPtr) :
    LevelRep heap.get b (Function.update s.level addr level b) (Function.update q.held addr L b) := by
  by_cases hb : b = addr
  · subst hb
    rw [Function.update_self, Function.update_self]
    exact hrep
  · rw [Function.update_of_ne hb, Function.update_of_ne hb]
    exact (h.rep b).congr (hsame b hb)

theorem notMem_of_update {L : List Slot} {x : Slot} (hx : ∀ b, x ∉ Function.update q.held addr L b)
    (hL : x ∉ L → x ∉ q.held addr) (b : LevelPtr) : x ∉ q.held b := by
  have hxb := hx b
  by_cases hb : b = addr
  · subst hb
    rw [Function.update_self] at hxb
    exact hL hxb
  · rwa [Function.update_of_ne hb] at hxb

theorem enqueue (h : LevelsRep s q) (ha : q.Allowed (.enqueue addr p)) :
    ∃ s', s.call (.enqueue addr p) = some s' ∧ LevelsRep s' (q.call (.enqueue addr p)) := by
  obtain ⟨hlive, hfree⟩ := ha
  rw [← h.remaining, Option.isSome_map, Option.isSome_iff_exists] at hlive
  obtain ⟨o, ho⟩ := hlive
  obtain ⟨heap', level', hr, hw, hrep, -, -, hlinks⟩ := PriceLevel.enqueue_spec h.wf (h.rep addr) ho (hfree addr)
  refine ⟨⟨heap', Function.update s.level addr level'⟩, by simp only [Levels.call, hr, Option.map_some], ?_⟩
  constructor
  case wf => exact hw
  case rep =>
    refine h.rep_update (fun b hb x hx => hlinks.same x ?_) hrep
    rw [List.mem_cons, not_or]
    exact ⟨by rintro rfl; exact hfree b hx, fun hxa => hb (h.disjoint hx hxa)⟩
  case remaining =>
    intro x
    rw [map_remaining_congr (hlinks.data x)]
    exact h.remaining x
  case unlinked =>
    intro x ox hox hnone
    have hold := notMem_of_update hnone fun hx hxa => hx (List.mem_append_left _ hxa)
    have hxp : x ≠ p := by
      rintro rfl
      have := hnone addr
      simp only [Sequences.call, Function.update_self] at this
      exact this (List.mem_append_right _ (List.mem_singleton_self _))
    rw [hlinks.same x (by rw [List.mem_cons, not_or]; exact ⟨hxp, hold addr⟩)] at hox
    exact h.unlinked x ox hox hold

theorem unlink (h : LevelsRep s q) (ha : q.Allowed (.unlink addr p)) :
    ∃ s', s.call (.unlink addr p) = some s' ∧ LevelsRep s' (q.call (.unlink addr p)) := by
  obtain ⟨l₁, l₂, hL⟩ := List.append_of_mem (show p ∈ q.held addr from ha)
  have hrep := h.rep addr
  rw [hL] at hrep
  have hnd := hrep.dll.nodup
  rw [List.nodup_middle, List.nodup_cons, List.mem_append, not_or] at hnd
  have herase : (q.held addr).erase p = l₁ ++ l₂ := by
    rw [hL, List.erase_append_right _ hnd.1.1, List.erase_cons_head]
  obtain ⟨o, ho, -⟩ := (h.rep addr).member p ha
  obtain ⟨heap', level', hr, hw, hrep', -, -, hlinks⟩ := PriceLevel.unlink_spec h.wf hrep ho
  refine ⟨⟨heap', Function.update s.level addr level'⟩, by simp only [Levels.call, hr, Option.map_some], ?_⟩
  rw [← hL] at hlinks
  rw [← herase] at hrep'
  constructor
  case wf => exact hw
  case rep => exact h.rep_update (fun b hb x hx => hlinks.same x fun hxa => hb (h.disjoint hx hxa)) hrep'
  case remaining =>
    intro x
    rw [map_remaining_congr (hlinks.data x)]
    exact h.remaining x
  case unlinked =>
    intro x ox hox hnone
    by_cases hxp : x = p
    · subst hxp
      obtain ⟨o', ho', hnull⟩ := PriceLevel.unlink_unlinked hr
      rw [ho'] at hox; cases hox
      exact hnull
    · have hold := notMem_of_update hnone fun hx hxa => hx ((List.mem_erase_of_ne hxp).2 hxa)
      rw [hlinks.same x (hold addr)] at hox
      exact h.unlinked x ox hox hold

theorem fill (h : LevelsRep s q) (ha : q.Allowed (.fill addr p qty)) :
    ∃ s', s.call (.fill addr p qty) = some s' ∧ LevelsRep s' (q.call (.fill addr p qty)) := by
  obtain ⟨hmem, r, hleft, hle⟩ := ha
  obtain ⟨l₁, l₂, hL⟩ := List.append_of_mem hmem
  have hrep := h.rep addr
  rw [hL] at hrep
  obtain ⟨o, ho, -⟩ := (h.rep addr).member p hmem
  have hr : o.remaining = r := by
    rw [← h.remaining p, ho] at hleft
    exact Option.some.inj hleft
  obtain ⟨heap', hm, hw, hget, hrep', -⟩ := PriceLevel.fill_spec h.wf hrep ho (hr ▸ hle)
  have hsame : ∀ x, x ≠ p → heap'.get x = s.heap.get x := fun x hx => by rw [hget, Function.update_of_ne hx]
  refine ⟨⟨heap', Function.update s.level addr ((s.level addr).onFill qty)⟩,
    by simp only [Levels.call, hm, Option.map_some], ?_⟩
  rw [← hL] at hrep'
  constructor
  case wf => exact hw
  case rep =>
    intro b
    have := h.rep_update (fun b hb x hx => hsame x (by rintro rfl; exact hb (h.disjoint hx hmem))) hrep' b
    rwa [Function.update_eq_self] at this
  case remaining =>
    intro x
    simp only [Sequences.call]
    by_cases hx : x = p
    · subst hx
      rw [hget, Function.update_self, Function.update_self, hleft, Option.map_some, Option.map_some, hr]
    · rw [hsame x hx, Function.update_of_ne hx]
      exact h.remaining x
  case unlinked =>
    intro x ox hox hnone
    rw [hsame x (by rintro rfl; exact hnone addr hmem)] at hox
    exact h.unlinked x ox hox hnone

/-- One call on the levels is the call on the sequences. -/
theorem call (s : Levels) (q : Sequences) (c : LevelCall) (h : LevelsRep s q) (ha : q.Allowed c) :
    ∃ s', s.call c = some s' ∧ LevelsRep s' (q.call c) := by
  cases c with
  | enqueue addr order => exact h.enqueue ha
  | unlink addr order => exact h.unlink ha
  | fill addr order qty => exact h.fill ha

theorem start {heap : Heap} (hw : heap.WF) (hnull : ∀ p o, heap.get p = some o → o.Unlinked)
    (price : LevelPtr → Price) :
    LevelsRep ⟨heap, fun addr => .new (price addr)⟩ (.start heap) where
  wf := hw
  rep addr := .new _ addr (price addr)
  remaining _ := rfl
  unlinked p o ho _ := hnull p o ho

/-- What a caller sees of a level. -/
theorem observed (h : LevelsRep s q) (addr : LevelPtr) :
    (s.level addr).front = (q.held addr).head? ∧
      (∃ os, (s.level addr).forEach s.heap = some os ∧ os.map some = (q.held addr).map s.heap.get) ∧
      walk (prevOf s.heap.get) (q.held addr).length (s.level addr).tail = some (q.held addr).reverse ∧
      (s.level addr).count = (q.held addr).length := by
  have hrep := h.rep addr
  refine ⟨hrep.dll.head_eq, ⟨_, PriceLevel.forEach_eq hrep, ?_⟩, hrep.dll.walk_prev (Nat.le_refl _), hrep.count⟩
  rw [List.map_filterMap_some_eq_filter_map_isSome, List.filter_eq_self]
  intro x hx
  obtain ⟨p, hp, rfl⟩ := List.mem_map.1 hx
  obtain ⟨o, ho, -⟩ := hrep.member p hp
  rw [ho]
  rfl

end LevelsRep

/-- Levels implement sequences: any run of calls that respect the sequences returns, the links of the
orders represent the sequences then, and `front`, `for_each`, the walk back from the tail and the count
read them off. -/
theorem levels_hold_sequences {heap : Heap} (hw : heap.WF) (hnull : ∀ p o, heap.get p = some o → o.Unlinked)
    (price : LevelPtr → Price) {calls : List LevelCall}
    (hok : Machine.Allowed Sequences.Allowed Sequences.call (.start heap) calls) :
    ∃ s : Levels, calls.foldlM Levels.call ⟨heap, fun addr => .new (price addr)⟩ = some s ∧
      LevelsRep s (calls.foldl Sequences.call (.start heap)) ∧
      ∀ addr, let L := (calls.foldl Sequences.call (.start heap)).held addr
        (s.level addr).front = L.head? ∧
        (∃ os, (s.level addr).forEach s.heap = some os ∧ os.map some = L.map s.heap.get) ∧
        walk (prevOf s.heap.get) L.length (s.level addr).tail = some L.reverse ∧
        (s.level addr).count = L.length := by
  obtain ⟨s, hr, h⟩ := Machine.foldlM_follows LevelsRep.call (.start hw hnull price) hok
  exact ⟨s, hr, h, h.observed⟩

/-- Two orders at one price: the younger is filled in part, the older taken out. -/
theorem levels_hold_sequences_two : ∃ (heap : Heap) (older younger : Slot) (s : Levels),
    [LevelCall.enqueue 0 older, .enqueue 0 younger, .fill 0 younger 3, .unlink 0 older].foldlM Levels.call
      ⟨heap, fun _ => .new 100⟩ = some s ∧ (s.level 0).front = some younger ∧ (s.level 0).count = 1 := by
  obtain ⟨hw₀, hget₀⟩ := MemoryPool.ofCapacity_wf (T := Order) 2
  obtain ⟨p₁, heap₁, -, hw₁, -, hget₁, -⟩ := hw₀.acquire_spec (.new 1 1 .buy 100 5)
  obtain ⟨p₂, heap₂, -, hw₂, hfree, hget₂, -⟩ := hw₁.acquire_spec (.new 2 1 .buy 100 5)
  have hne : p₁ ≠ p₂ := by
    rintro rfl
    rw [hget₁, Function.update_self] at hfree
    cases hfree
  have hp₁ : heap₂.get p₁ = some (.new 1 1 .buy 100 5) := by
    rw [hget₂, Function.update_of_ne hne, hget₁, Function.update_self]
  have hp₂ : heap₂.get p₂ = some (.new 2 1 .buy 100 5) := by rw [hget₂, Function.update_self]
  have hnull : ∀ p o, heap₂.get p = some o → o.Unlinked := by
    intro p o ho
    by_cases h₂ : p = p₂
    · subst h₂; rw [hp₂] at ho; cases ho; exact ⟨rfl, rfl, rfl⟩
    · by_cases h₁ : p = p₁
      · subst h₁; rw [hp₁] at ho; cases ho; exact ⟨rfl, rfl, rfl⟩
      · rw [hget₂, Function.update_of_ne h₂, hget₁, Function.update_of_ne h₁, hget₀] at ho
        cases ho
  have hok : Machine.Allowed Sequences.Allowed Sequences.call (.start heap₂)
      [.enqueue 0 p₁, .enqueue 0 p₂, .fill 0 p₂ 3, .unlink 0 p₁] := by
    refine ⟨⟨?_, fun _ => List.not_mem_nil⟩, ⟨?_, fun addr => ?_⟩, ⟨?_, 5, ?_, by decide⟩, ?_, trivial⟩
    · simp [Sequences.start, hp₁]
    · simp [Sequences.call, Sequences.start, hp₂]
    · by_cases ha : addr = 0
      · subst ha; simp [Sequences.call, Sequences.start, hne.symm]
      · simp [Sequences.call, Sequences.start, Function.update_of_ne ha]
    · simp [Sequences.call, Sequences.start]
    · simp [Sequences.call, Sequences.start, hp₂, Order.new]
    · simp [Sequences.Allowed, Sequences.call, Sequences.start]
  obtain ⟨s, hr, -, hs⟩ := levels_hold_sequences hw₂ hnull (fun _ => 100) hok
  obtain ⟨hfront, -, -, hcount⟩ := hs 0
  refine ⟨heap₂, p₁, p₂, s, hr, ?_, ?_⟩
  · rw [hfront]
    simp [Sequences.call, Sequences.start]
  · rw [hcount]
    simp [Sequences.call, Sequences.start]

end Obe
