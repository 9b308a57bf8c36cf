/-
`PriceLevel.hpp`: the orders at one price as an intrusive doubly linked list through the orders'
own links, in the memory of the pool. `LevelRep` says that a level represents a sequence of
addresses; `enqueue` appends to it, `unlink` erases one member wherever it stands, a fill keeps it.
-/
import OrderBookEngine.Lib.Dll
import OrderBookEngine.Types
import Mathlib.Data.UInt

namespace Obe

abbrev Heap := MemoryPool Order

structure PriceLevel where
  price : Price
  head : Option Slot
  tail : Option Slot
  count : Nat
  totalQty : Quantity
  deriving DecidableEq, Repr

namespace PriceLevel

def new (price : Price) : PriceLevel := { price, head := none, tail := none, count := 0, totalQty := 0 }

def empty (level : PriceLevel) : Bool := level.head.isNone

def front (level : PriceLevel) : Option Slot := level.head

/-- `enqueue`; `addr` is the address of the level. -/
def enqueue (heap : Heap) (level : PriceLevel) (addr : LevelPtr) (order : Slot) : Option (Heap × PriceLevel) := do
  let heap ← heap.modify order fun o => { o with level := some addr, prev := level.tail, next := none }
  let (heap, level) ← match level.tail with
    | some t => (heap.modify t fun o => { o with next := some order }).map (·, level)
    | none => some (heap, { level with head := some order })
  let o ← heap.get order
  return (heap, { level with tail := some order, count := level.count + 1, totalQty := level.totalQty + o.remaining })

/-- The first half of `unlink`: the predecessor, or the head, skips the order. -/
def unlinkPrev (heap : Heap) (level : PriceLevel) (order : Slot) : Option (Heap × PriceLevel) := do
  let o ← heap.get order
  match o.prev with
  | some p => (heap.modify p fun q => { q with next := o.next }).map (·, level)
  | none => some (heap, { level with head := o.next })

/-- The second half of `unlink`: the successor, or the tail, skips the order. -/
def unlinkNext (heap : Heap) (level : PriceLevel) (order : Slot) : Option (Heap × PriceLevel) := do
  let o ← heap.get order
  match o.next with
  | some n => (heap.modify n fun q => { q with prev := o.prev }).map (·, level)
  | none => some (heap, { level with tail := o.prev })

def unlink (heap : Heap) (level : PriceLevel) (order : Slot) : Option (Heap × PriceLevel) := do
  let (heap, level) ← unlinkPrev heap level order
  let (heap, level) ← unlinkNext heap level order
  let heap ← heap.modify order fun o => { o with prev := none, next := none, level := none }
  let o ← heap.get order
  return (heap, { level with count := level.count - 1, totalQty := level.totalQty - o.remaining })

def onFill (level : PriceLevel) (traded : Quantity) : PriceLevel := { level with totalQty := level.totalQty - traded }

/-- The walk of `for_each` from an address; an address without a live order is not walked over. -/
def forEachFrom (heap : Heap) : Nat → Option Slot → Option (List Order)
  | _, none => some []
  | 0, some _ => none
  | fuel + 1, some p => (heap.get p).bind fun o => (forEachFrom heap fuel o.next).map (o :: ·)

/-- `for_each`: the orders visited. -/
def forEach (heap : Heap) (level : PriceLevel) : Option (List Order) := forEachFrom heap (level.count + 1) level.head

end PriceLevel

/-! ## What a level represents -/

def nextOf (get : Slot → Option Order) (p : Slot) : Option Slot := (get p).bind (·.next)

def prevOf (get : Slot → Option Order) (p : Slot) : Option Slot := (get p).bind (·.prev)

def levelOf (get : Slot → Option Order) (p : Slot) : Option LevelPtr := (get p).bind (·.level)

def dataOf (get : Slot → Option Order) (p : Slot) : Option OrderData := (get p).map (·.toOrderData)

def remainingOf (get : Slot → Option Order) (p : Slot) : Quantity := ((get p).map (·.remaining)).getD 0

/-- The level at `addr` holds the orders at the addresses `L`, in this order. -/
structure LevelRep (get : Slot → Option Order) (addr : LevelPtr) (level : PriceLevel) (L : List Slot) : Prop where
  dll : Dll (nextOf get) (prevOf get) level.head level.tail L
  count : level.count = L.length
  total : level.totalQty = (L.map (remainingOf get)).sum
  member : ∀ p ∈ L, ∃ o, get p = some o ∧ o.level = some addr

/-- Between the two memories nothing changed but the links of orders in `S`. -/
structure LinksOnly (get get' : Slot → Option Order) (S : List Slot) : Prop where
  data : ∀ q, dataOf get' q = dataOf get q
  same : ∀ q, q ∉ S → get' q = get q

section Frames

variable {get get' : Slot → Option Order} {L : List Slot} {p q : Slot} {o : Order}

theorem nextOf_some (h : get p = some o) : nextOf get p = o.next := by simp [nextOf, h]

theorem prevOf_some (h : get p = some o) : prevOf get p = o.prev := by simp [prevOf, h]

theorem dataOf_some (h : get p = some o) : dataOf get p = some o.toOrderData := by simp [dataOf, h]

theorem remainingOf_some (h : get p = some o) : remainingOf get p = o.remaining := by simp [remainingOf, h]

theorem dataOf_eq_some {d : OrderData} (h : dataOf get p = some d) : ∃ o, get p = some o ∧ o.toOrderData = d :=
  Option.map_eq_some_iff.1 h

theorem map_remaining_congr (h : dataOf get' p = dataOf get p) :
    (get' p).map (·.remaining) = (get p).map (·.remaining) := by
  have hr : ∀ g : Slot → Option Order, (g p).map (·.remaining) = (dataOf g p).map (·.remaining) := by
    intro g; unfold dataOf; rw [Option.map_map]; rfl
  rw [hr, hr, h]

theorem remainingOf_congr (h : dataOf get' p = dataOf get p) : remainingOf get' p = remainingOf get p := by
  unfold remainingOf
  rw [map_remaining_congr h]

theorem LinksOnly.refl (get : Slot → Option Order) (S : List Slot) : LinksOnly get get S :=
  ⟨fun _ => rfl, fun _ _ => rfl⟩

theorem LevelRep.congr {addr : LevelPtr} {level : PriceLevel} (h : LevelRep get addr level L)
    (he : ∀ p ∈ L, get' p = get p) : LevelRep get' addr level L := by
  refine ⟨h.dll.congr (fun q hq => ?_) (fun q hq => ?_), h.count, ?_, fun p hp => ?_⟩
  · unfold nextOf; rw [he q hq]
  · unfold prevOf; rw [he q hq]
  · rw [h.total]
    congr 1
    exact List.map_congr_left fun q hq => by unfold remainingOf; rw [he q hq]
  · rw [he p hp]; exact h.member p hp

theorem LevelRep.sum_congr (h : ∀ p ∈ L, dataOf get' p = dataOf get p) :
    (L.map (remainingOf get')).sum = (L.map (remainingOf get)).sum := by
  congr 1
  exact List.map_congr_left fun q hq => remainingOf_congr (h q hq)

theorem LevelRep.new (get : Slot → Option Order) (addr : LevelPtr) (price : Price) :
    LevelRep get addr (PriceLevel.new price) [] :=
  ⟨Dll.nil _ _, rfl, rfl, by simp⟩

theorem LevelRep.empty_iff {addr : LevelPtr} {level : PriceLevel} (h : LevelRep get addr level L) :
    level.empty = true ↔ L = [] := by
  unfold PriceLevel.empty
  rw [Option.isNone_iff_eq_none, h.dll.head_eq_none]

theorem LevelRep.front_cons {addr : LevelPtr} {level : PriceLevel} (h : LevelRep get addr level (p :: L)) :
    level.front = some p := h.dll.head_eq

/-- What a write to the links of one order leaves alone. -/
theorem LinksOnly.of_update {get get' : Slot → Option Order} {S : List Slot} {q : Slot} {oq oq' : Order}
    (hq : get q = some oq) (hg : get' = Function.update get q (some oq')) (hd : oq'.toOrderData = oq.toOrderData)
    (hS : q ∈ S) : LinksOnly get get' S := by
  subst hg
  refine ⟨fun r => ?_, fun r hr => Function.update_of_ne (by rintro rfl; exact hr hS) _ _⟩
  by_cases hrq : r = q
  · subst hrq; unfold dataOf; rw [Function.update_self, hq, Option.map_some, Option.map_some, hd]
  · unfold dataOf; rw [Function.update_of_ne hrq]

theorem LinksOnly.trans {get get' get'' : Slot → Option Order} {S : List Slot} (h : LinksOnly get get' S)
    (h' : LinksOnly get' get'' S) : LinksOnly get get'' S :=
  ⟨fun q => (h'.data q).trans (h.data q), fun q hq => (h'.same q hq).trans (h.same q hq)⟩

end Frames

/-! ## The operations on the sequence -/

namespace PriceLevel

variable {heap : Heap} {level : PriceLevel} {addr : LevelPtr} {L l₁ l₂ : List Slot} {p : Slot} {o : Order}

/-- `for_each` visits the sequence and ends. -/
theorem forEachFrom_eq (h : ∀ p ∈ L, ∃ o, heap.get p = some o) {fuel : Nat} {a : Option Slot}
    (hw : walk (nextOf heap.get) fuel a = some L) : forEachFrom heap fuel a = some (L.filterMap heap.get) := by
  induction fuel generalizing a L with
  | zero => cases a <;> cases hw; rfl
  | succ fuel ih =>
    cases a with
    | none => cases hw; rfl
    | some p =>
      rw [walk] at hw
      obtain ⟨L', hL', rfl⟩ := Option.map_eq_some_iff.1 hw
      obtain ⟨o, ho⟩ := h p (List.mem_cons_self ..)
      rw [nextOf_some ho] at hL'
      have := ih (fun q hq => h q (List.mem_cons_of_mem _ hq)) hL'
      simp only [forEachFrom, ho, Option.bind_some, this, Option.map_some, List.filterMap_cons]

theorem forEach_eq (h : LevelRep heap.get addr level L) : level.forEach heap = some (L.filterMap heap.get) := by
  refine forEachFrom_eq (fun p hp => ?_) (h.dll.walk_next (by rw [h.count]; omega))
  obtain ⟨o, ho, -⟩ := h.member p hp
  exact ⟨o, ho⟩

/-- The writes of `enqueue`: the order is linked behind the tail, or is the head of an empty level. -/
theorem enqueue_writes (hw : heap.WF) (h : LevelRep heap.get addr level L) (ho : heap.get p = some o) (hp : p ∉ L) :
    ∃ heap', enqueue heap level addr p = some (heap', { level with
        head := if level.tail = none then some p else level.head
        tail := some p, count := level.count + 1, totalQty := level.totalQty + o.remaining }) ∧
      heap'.WF ∧ heap'.liveCount = heap.liveCount ∧ LinksOnly heap.get heap'.get (p :: L) ∧
      heap'.get p = some { o with level := some addr, prev := level.tail, next := none } ∧
      ∀ q ≠ p, prevOf heap'.get q = prevOf heap.get q ∧ levelOf heap'.get q = levelOf heap.get q ∧
        nextOf heap'.get q = if level.tail = some q then some p else nextOf heap.get q := by
  obtain ⟨heap₁, hr₁, hw₁, hg₁, hc₁⟩ :=
    hw.modify_spec ho fun o => { o with level := some addr, prev := level.tail, next := none }
  have hl₁ : LinksOnly heap.get heap₁.get (p :: L) := .of_update ho hg₁ rfl (List.mem_cons_self ..)
  have hp₁ : heap₁.get p = some { o with level := some addr, prev := level.tail, next := none } := by
    rw [hg₁, Function.update_self]
  have hsame₁ : ∀ q, q ≠ p → heap₁.get q = heap.get q := fun q hq => by rw [hg₁, Function.update_of_ne hq]
  have htail : level.tail = L.getLast? := h.dll.tail_eq
  cases ht : level.tail with
  | none =>
    rw [ht] at hr₁ hp₁
    refine ⟨heap₁, by simp [enqueue, hr₁, ht, hp₁], hw₁, hc₁, hl₁, hp₁, fun q hq => ?_⟩
    simp [prevOf, levelOf, nextOf, hsame₁ q hq]
  | some t =>
    have htL : t ∈ L := List.mem_of_getLast? (htail ▸ ht)
    have htp : t ≠ p := by rintro rfl; exact hp htL
    obtain ⟨ot, hot, -⟩ := h.member t htL
    have hot₁ : heap₁.get t = some ot := by rw [hsame₁ t htp, hot]
    obtain ⟨heap₂, hr₂, hw₂, hg₂, hc₂⟩ := hw₁.modify_spec hot₁ fun o => { o with next := some p }
    have hl₂ : LinksOnly heap₁.get heap₂.get (p :: L) := .of_update hot₁ hg₂ rfl (List.mem_cons_of_mem _ htL)
    have hp₂ : heap₂.get p = heap₁.get p := by rw [hg₂, Function.update_of_ne htp.symm]
    rw [ht] at hr₁ hp₁
    rw [hp₁] at hp₂
    refine ⟨heap₂, by simp [enqueue, hr₁, ht, hr₂, hp₂], hw₂, hc₂.trans hc₁, hl₁.trans hl₂, hp₂, fun q hq => ?_⟩
    by_cases hqt : q = t
    · subst hqt
      simp [prevOf, levelOf, nextOf, hg₂, hot]
    · have hsame : heap₂.get q = heap.get q := by rw [hg₂, Function.update_of_ne hqt, hsame₁ q hq]
      simp [prevOf, levelOf, nextOf, hsame, Ne.symm hqt]

/-- `enqueue` appends. -/
theorem enqueue_spec (hw : heap.WF) (h : LevelRep heap.get addr level L) (ho : heap.get p = some o) (hp : p ∉ L) :
    ∃ heap' level', enqueue heap level addr p = some (heap', level') ∧ heap'.WF ∧
      LevelRep heap'.get addr level' (L ++ [p]) ∧ level'.price = level.price ∧
      heap'.liveCount = heap.liveCount ∧ LinksOnly heap.get heap'.get (p :: L) := by
  obtain ⟨heap', hr, hw', hc, hl, hp', hq'⟩ := enqueue_writes hw h ho hp
  have hne : ∀ q ∈ L, q ≠ p := by rintro q hq rfl; exact hp hq
  refine ⟨heap', _, hr, hw', ⟨?_, by simp [h.count], ?_, fun q hq => ?_⟩, rfl, hc, hl⟩
  · refine h.dll.snoc hp (nextOf_some hp') (prevOf_some hp') (fun t ht => ?_) (fun q hq hqt => ?_) (fun q hq => ?_)
    · have htL : t ∈ L := List.mem_of_getLast? (h.dll.tail_eq ▸ ht)
      rw [(hq' t (hne t htL)).2.2, if_pos ht]
    · rw [(hq' q (hne q hq)).2.2, if_neg hqt]
    · exact (hq' q (hne q hq)).1
  · show level.totalQty + o.remaining = _
    rw [h.total, List.map_append, List.sum_append, LevelRep.sum_congr fun q _ => hl.data q]
    simp [remainingOf_some hp']
  · rcases List.mem_append.1 hq with hqL | hq
    · obtain ⟨oq, hoq, hlq⟩ := h.member q hqL
      have hlev : levelOf heap'.get q = some addr := by
        rw [(hq' q (hne q hqL)).2.1, levelOf, hoq]
        exact hlq
      exact Option.bind_eq_some_iff.1 hlev
    · obtain rfl : q = p := by simpa using hq
      exact ⟨_, hp', rfl⟩

theorem unlinkPrev_spec (hw : heap.WF) (h : LevelRep heap.get addr level (l₁ ++ p :: l₂)) (ho : heap.get p = some o) :
    ∃ heap', unlinkPrev heap level p = some (heap',
      { level with head := if o.prev = none then o.next else level.head }) ∧
      heap'.WF ∧ heap'.liveCount = heap.liveCount ∧ LinksOnly heap.get heap'.get (l₁ ++ p :: l₂) ∧
      heap'.get p = some o ∧ (∀ q, prevOf heap'.get q = prevOf heap.get q) ∧
      (∀ q, levelOf heap'.get q = levelOf heap.get q) ∧
      (∀ q, nextOf heap'.get q = if o.prev = some q then o.next else nextOf heap.get q) := by
  have hprev : o.prev = l₁.getLast? := by rw [← prevOf_some ho]; exact (h.dll.links l₁ p l₂ rfl).1
  cases hop : o.prev with
  | none =>
    exact ⟨heap, by simp [unlinkPrev, ho, hop], hw, rfl, .refl _ _, ho, fun _ => rfl, fun _ => rfl, by simp⟩
  | some a =>
    have ha : a ∈ l₁ := List.mem_of_getLast? (hprev ▸ hop)
    have hap : a ≠ p := by
      rintro rfl
      exact (List.nodup_append.1 h.dll.nodup).2.2 a ha a (List.mem_cons_self ..) rfl
    obtain ⟨oa, hoa, -⟩ := h.member a (List.mem_append_left _ ha)
    obtain ⟨heap', hr, hw', hg, hc⟩ := hw.modify_spec hoa fun q => { q with next := o.next }
    refine ⟨heap', by simp [unlinkPrev, ho, hop, hr], hw', hc,
      .of_update hoa hg rfl (List.mem_append_left _ ha), by rw [hg, Function.update_of_ne hap.symm, ho],
      fun q => ?_, fun q => ?_, fun q => ?_⟩
    · by_cases hq : q = a
      · subst hq; rw [prevOf_some hoa]; unfold prevOf; rw [hg, Function.update_self]; rfl
      · unfold prevOf; rw [hg, Function.update_of_ne hq]
    · by_cases hq : q = a
      · subst hq; unfold levelOf; rw [hg, Function.update_self, hoa]; rfl
      · unfold levelOf; rw [hg, Function.update_of_ne hq]
    · by_cases hq : q = a
      · subst hq; rw [if_pos rfl]; unfold nextOf; rw [hg, Function.update_self]; rfl
      · rw [if_neg (by simpa using Ne.symm hq)]; unfold nextOf; rw [hg, Function.update_of_ne hq]

theorem unlinkNext_spec {heap₀ : Heap} {level₀ : PriceLevel} (level : PriceLevel) (hw : heap.WF)
    (h₀ : LevelRep heap₀.get addr level₀ (l₁ ++ p :: l₂)) (hl : LinksOnly heap₀.get heap.get (l₁ ++ p :: l₂))
    (ho₀ : heap₀.get p = some o) (ho : heap.get p = some o) :
    ∃ heap', unlinkNext heap level p = some (heap',
      { level with tail := if o.next = none then o.prev else level.tail }) ∧
      heap'.WF ∧ heap'.liveCount = heap.liveCount ∧ LinksOnly heap.get heap'.get (l₁ ++ p :: l₂) ∧
      heap'.get p = some o ∧ (∀ q, nextOf heap'.get q = nextOf heap.get q) ∧
      (∀ q, levelOf heap'.get q = levelOf heap.get q) ∧
      (∀ q, prevOf heap'.get q = if o.next = some q then o.prev else prevOf heap.get q) := by
  have hnext : o.next = l₂.head? := by rw [← nextOf_some ho₀]; exact (h₀.dll.links l₁ p l₂ rfl).2
  cases hon : o.next with
  | none =>
    exact ⟨heap, by simp [unlinkNext, ho, hon], hw, rfl, .refl _ _, ho, fun _ => rfl, fun _ => rfl, by simp⟩
  | some b =>
    have hb : b ∈ l₂ := List.mem_of_head? (hnext ▸ hon)
    have hbL : b ∈ l₁ ++ p :: l₂ := List.mem_append_right _ (List.mem_cons_of_mem _ hb)
    have hbp : b ≠ p := by
      rintro rfl
      exact (List.nodup_cons.1 (List.nodup_append.1 h₀.dll.nodup).2.1).1 hb
    obtain ⟨ob₀, hob₀, -⟩ := h₀.member b hbL
    obtain ⟨ob, hob, -⟩ := dataOf_eq_some ((hl.data b).trans (dataOf_some hob₀))
    obtain ⟨heap', hr, hw', hg, hc⟩ := hw.modify_spec hob fun q => { q with prev := o.prev }
    refine ⟨heap', by simp [unlinkNext, ho, hon, hr], hw', hc,
      .of_update hob hg rfl hbL, by rw [hg, Function.update_of_ne hbp.symm, ho],
      fun q => ?_, fun q => ?_, fun q => ?_⟩
    · by_cases hq : q = b
      · subst hq; rw [nextOf_some hob]; unfold nextOf; rw [hg, Function.update_self]; rfl
      · unfold nextOf; rw [hg, Function.update_of_ne hq]
    · by_cases hq : q = b
      · subst hq; unfold levelOf; rw [hg, Function.update_self, hob]; rfl
      · unfold levelOf; rw [hg, Function.update_of_ne hq]
    · by_cases hq : q = b
      · subst hq; rw [if_pos rfl]; unfold prevOf; rw [hg, Function.update_self]; rfl
      · rw [if_neg (by simpa using Ne.symm hq)]; unfold prevOf; rw [hg, Function.update_of_ne hq]

/-- `unlink` removes a member wherever it stands; the order stays live, without links. -/
theorem unlink_spec (hw : heap.WF) (h : LevelRep heap.get addr level (l₁ ++ p :: l₂)) (ho : heap.get p = some o) :
    ∃ heap' level', unlink heap level p = some (heap', level') ∧ heap'.WF ∧
      LevelRep heap'.get addr level' (l₁ ++ l₂) ∧ level'.price = level.price ∧
      heap'.liveCount = heap.liveCount ∧ LinksOnly heap.get heap'.get (l₁ ++ p :: l₂) := by
  obtain ⟨heap₁, hr₁, hw₁, hc₁, hl₁, hp₁, hprev₁, hlev₁, hnext₁⟩ := unlinkPrev_spec hw h ho
  obtain ⟨heap₂, hr₂, hw₂, hc₂, hl₂, hp₂, hnext₂, hlev₂, hprev₂⟩ :=
    unlinkNext_spec { level with head := if o.prev = none then o.next else level.head } hw₁ h hl₁ ho hp₁
  obtain ⟨heap₃, hr₃, hw₃, hg₃, hc₃⟩ :=
    hw₂.modify_spec hp₂ fun o => { o with prev := none, next := none, level := none }
  have hpL : p ∈ l₁ ++ p :: l₂ := List.mem_append_right _ (List.mem_cons_self ..)
  have hl := (hl₁.trans hl₂).trans (.of_update hp₂ hg₃ rfl hpL)
  have hp₃ : heap₃.get p = some { o with prev := none, next := none, level := none } := by
    rw [hg₃, Function.update_self]
  have hnd := h.dll.nodup
  have hmem : ∀ q ∈ l₁ ++ l₂, q ≠ p ∧ q ∈ l₁ ++ p :: l₂ := by
    intro q hq
    rw [List.nodup_middle, List.nodup_cons] at hnd
    refine ⟨by rintro rfl; exact hnd.1 hq, ?_⟩
    rcases List.mem_append.1 hq with hq | hq
    · exact List.mem_append_left _ hq
    · exact List.mem_append_right _ (List.mem_cons_of_mem _ hq)
  have hsame₃ : ∀ q, q ≠ p → heap₃.get q = heap₂.get q := fun q hq => by rw [hg₃, Function.update_of_ne hq]
  have hnext₃ : ∀ q, q ≠ p → nextOf heap₃.get q = if o.prev = some q then o.next else nextOf heap.get q := by
    intro q hq
    rw [show nextOf heap₃.get q = nextOf heap₂.get q by unfold nextOf; rw [hsame₃ q hq], hnext₂, hnext₁]
  have hprev₃ : ∀ q, q ≠ p → prevOf heap₃.get q = if o.next = some q then o.prev else prevOf heap.get q := by
    intro q hq
    rw [show prevOf heap₃.get q = prevOf heap₂.get q by unfold prevOf; rw [hsame₃ q hq], hprev₂, hprev₁]
  obtain ⟨hpp, hpn⟩ := h.dll.links l₁ p l₂ rfl
  rw [prevOf_some ho] at hpp
  rw [nextOf_some ho] at hpn
  refine ⟨heap₃, { level with
      head := if o.prev = none then o.next else level.head
      tail := if o.next = none then o.prev else level.tail
      count := level.count - 1
      totalQty := level.totalQty - o.remaining },
    by simp [unlink, hr₁, hr₂, hr₃, hp₃], hw₃, ⟨?_, ?_, ?_, fun q hq => ?_⟩, rfl, by rw [hc₃, hc₂, hc₁], hl⟩
  · show Dll _ _ (if o.prev = none then o.next else level.head) (if o.next = none then o.prev else level.tail) _
    rw [← prevOf_some ho, ← nextOf_some ho]
    refine h.dll.remove ?_ ?_ ?_ ?_
    · intro a ha
      rw [prevOf_some ho] at ha
      have hap := (hmem a (List.mem_append_left _ (List.mem_of_getLast? (hpp ▸ ha)))).1
      rw [nextOf_some ho, hnext₃ a hap, if_pos ha]
    · intro b hb
      rw [nextOf_some ho] at hb
      have hbp := (hmem b (List.mem_append_right _ (List.mem_of_head? (hpn ▸ hb)))).1
      rw [prevOf_some ho, hprev₃ b hbp, if_pos hb]
    · intro q hq hqp
      rw [prevOf_some ho] at hqp
      rw [hnext₃ q (hmem q hq).1, if_neg hqp]
    · intro q hq hqn
      rw [nextOf_some ho] at hqn
      rw [hprev₃ q (hmem q hq).1, if_neg hqn]
  · show level.count - 1 = _
    rw [h.count]; simp
  · show level.totalQty - o.remaining = _
    rw [h.total, LevelRep.sum_congr fun q _ => hl.data q]
    simp only [List.map_append, List.map_cons, List.sum_append, List.sum_cons, remainingOf_some ho]
    grind
  · obtain ⟨oq, hoq, hlq⟩ := h.member q (hmem q hq).2
    have hlev : levelOf heap₃.get q = some addr := by
      rw [show levelOf heap₃.get q = levelOf heap₂.get q by unfold levelOf; rw [hsame₃ q (hmem q hq).1],
        hlev₂, hlev₁, levelOf, hoq]
      exact hlq
    exact Option.bind_eq_some_iff.1 hlev

/-- The order that `unlink` was given is in no level afterwards, and has no neighbours. -/
theorem unlink_unlinked {heap' : Heap} {level' : PriceLevel} (h : unlink heap level p = some (heap', level')) :
    ∃ o, heap'.get p = some o ∧ o.prev = none ∧ o.next = none ∧ o.level = none := by
  simp only [unlink, Option.bind_eq_bind, Option.bind_eq_some_iff] at h
  obtain ⟨_, -, ⟨heap₂, _⟩, -, heap₃, hm, o, ho, hr⟩ := h
  cases hr
  obtain ⟨o₂, -, rfl⟩ := Option.map_eq_some_iff.1 hm
  rw [MemoryPool.get_write, Function.update_self] at ho
  cases ho
  exact ⟨_, by rw [MemoryPool.get_write, Function.update_self], rfl, rfl, rfl⟩

/-- A fill of a member, with the aggregate adjusted by `on_fill`. -/
theorem fill_spec (hw : heap.WF) (h : LevelRep heap.get addr level (l₁ ++ p :: l₂)) (ho : heap.get p = some o)
    {qty : Quantity} (hq : qty ≤ o.remaining) :
    ∃ heap', heap.modify p (fun o => (o.fill qty).1) = some heap' ∧ heap'.WF ∧
      heap'.get = Function.update heap.get p (some { o with remaining := o.remaining - qty }) ∧
      LevelRep heap'.get addr (level.onFill qty) (l₁ ++ p :: l₂) ∧ heap'.liveCount = heap.liveCount := by
  obtain ⟨heap', hr, hw', hg, hc⟩ := hw.modify_spec ho fun o => (o.fill qty).1
  have hfill : (o.fill qty).1 = { o with remaining := o.remaining - qty } := by
    unfold Order.fill
    split
    · rfl
    · rw [show o.remaining = qty by grind]
  rw [hfill] at hg
  have hp : heap'.get p = some { o with remaining := o.remaining - qty } := by rw [hg, Function.update_self]
  have hsame : ∀ q, q ≠ p → heap'.get q = heap.get q := fun q hq => by rw [hg, Function.update_of_ne hq]
  have hnd := h.dll.nodup
  rw [List.nodup_middle, List.nodup_cons] at hnd
  have hrem : ∀ q ∈ l₁ ++ l₂, remainingOf heap'.get q = remainingOf heap.get q := by
    intro q hq
    unfold remainingOf
    rw [hsame q (by rintro rfl; exact hnd.1 hq)]
  refine ⟨heap', hr, hw', hg, ⟨h.dll.congr (fun q _ => ?_) (fun q _ => ?_), h.count, ?_, fun q hq => ?_⟩, hc⟩
  · by_cases hqp : q = p
    · subst hqp; rw [nextOf_some hp, nextOf_some ho]
    · unfold nextOf; rw [hsame q hqp]
  · by_cases hqp : q = p
    · subst hqp; rw [prevOf_some hp, prevOf_some ho]
    · unfold prevOf; rw [hsame q hqp]
  · show level.totalQty - qty = _
    rw [h.total]
    simp only [List.map_append, List.map_cons, List.sum_append, List.sum_cons, remainingOf_some hp,
      remainingOf_some ho]
    rw [List.map_congr_left fun q hq => hrem q (List.mem_append_left _ hq),
      List.map_congr_left fun q hq => hrem q (List.mem_append_right _ hq)]
    grind
  · by_cases hqp : q = p
    · subst hqp
      obtain ⟨oq, hoq, hlq⟩ := h.member q hq
      rw [ho] at hoq; cases hoq
      exact ⟨_, hp, hlq⟩
    · rw [hsame q hqp]; exact h.member q hq

end PriceLevel

end Obe
