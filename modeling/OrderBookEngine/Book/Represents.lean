/-
What the shared store of a book represents: a view assigns every level address the orders queued
there, and `Shows` ties the levels and the pool to it, `Indexed` the order index. Each operation
of the store is one change of the view; an entry is a price and the address of its level.
-/
import OrderBookEngine.Book.ListBook

namespace Obe

/-- The orders queued at each level address, each with where it lives. -/
abbrev View := LevelPtr → List (Slot × OrderData)

abbrev Entry := Price × LevelPtr

/-- The orders of some levels, one level after the other. -/
def shown (view : View) (entries : List Entry) : List (Slot × OrderData) := entries.flatMap fun e => view e.2

def ordersOf (view : View) (entries : List Entry) : List OrderData := (shown view entries).map (·.2)

namespace Store

/-- The levels at the entries' addresses hold the orders of the view. -/
structure Shows (s : Store) (entries : List Entry) (view : View) : Prop where
  pool : s.pool.WF
  nodup : (entries.map (·.2)).Nodup
  fresh : ∀ e ∈ entries, e.2 < s.nextLevel
  level : ∀ e ∈ entries, ∃ lv, s.levels e.2 = some lv ∧ lv.price = e.1 ∧
    LevelRep s.pool.get e.2 lv ((view e.2).map (·.1))
  data : ∀ e ∈ entries, ∀ x ∈ view e.2, dataOf s.pool.get x.1 = some x.2 ∧ x.2.price = e.1

/-- The index and the pool hold exactly the orders of `xs`. -/
structure Indexed (s : Store) (xs : List (Slot × OrderData)) : Prop where
  index : s.index.WF
  ids : (xs.map (·.2.id)).Nodup
  size : s.index.size = xs.length
  live : s.pool.liveCount = xs.length
  lookup : ∀ id r, s.index.lookup id = some r ↔ ∃ x ∈ xs, r = some x.1 ∧ id = x.2.id

end Store

section Views

variable {view : View} {l₁ l₂ entries : List Entry} {e : Entry} {v : List (Slot × OrderData)}

theorem mem_shown {x : Slot × OrderData} : x ∈ shown view entries ↔ ∃ e ∈ entries, x ∈ view e.2 := List.mem_flatMap

theorem shown_append (view : View) (l₁ l₂ : List Entry) : shown view (l₁ ++ l₂) = shown view l₁ ++ shown view l₂ :=
  List.flatMap_append ..

theorem shown_cons (view : View) (e : Entry) (l : List Entry) : shown view (e :: l) = view e.2 ++ shown view l :=
  List.flatMap_cons ..

theorem ordersOf_append (view : View) (l₁ l₂ : List Entry) :
    ordersOf view (l₁ ++ l₂) = ordersOf view l₁ ++ ordersOf view l₂ := by
  simp only [ordersOf, shown_append, List.map_append]

theorem ordersOf_cons (view : View) (e : Entry) (l : List Entry) :
    ordersOf view (e :: l) = (view e.2).map (·.2) ++ ordersOf view l := by
  simp only [ordersOf, shown_cons, List.map_append]

/-- A change at an address that is not among the entries'. -/
theorem shown_update_of_notMem {a : LevelPtr} (h : a ∉ entries.map (·.2)) (v : List (Slot × OrderData)) :
    shown (Function.update view a v) entries = shown view entries := by
  unfold shown
  rw [List.flatMap_def, List.flatMap_def]
  congr 1
  refine List.map_congr_left fun e he => Function.update_of_ne ?_ _ _
  rintro rfl
  exact h (List.mem_map_of_mem he)

theorem notMem_split (h : ((l₁ ++ e :: l₂).map (·.2)).Nodup) : e.2 ∉ l₁.map (·.2) ∧ e.2 ∉ l₂.map (·.2) := by
  rw [List.map_append, List.map_cons, List.nodup_middle, List.nodup_cons] at h
  exact ⟨fun hm => h.1 (List.mem_append_left _ hm), fun hm => h.1 (List.mem_append_right _ hm)⟩

/-- The other levels are at other addresses. -/
theorem addr_ne_of_split {e' : Entry} (h : ((l₁ ++ e :: l₂).map (·.2)).Nodup) (he' : e' ∈ l₁ ++ l₂) :
    e'.2 ≠ e.2 := by
  obtain ⟨h1, h2⟩ := notMem_split h
  intro ha
  rcases List.mem_append.1 he' with hm | hm
  · exact h1 (ha ▸ List.mem_map_of_mem hm)
  · exact h2 (ha ▸ List.mem_map_of_mem hm)

/-- A change at one entry shows there only. -/
theorem shown_update (l₁ : List Entry) (h : ((l₁ ++ e :: l₂).map (·.2)).Nodup) (v : List (Slot × OrderData)) :
    shown (Function.update view e.2 v) (l₁ ++ e :: l₂) = shown view l₁ ++ (v ++ shown view l₂) := by
  obtain ⟨h1, h2⟩ := notMem_split h
  rw [shown_append, shown_cons, Function.update_self, shown_update_of_notMem h1, shown_update_of_notMem h2]

theorem ordersOf_update (l₁ : List Entry) (h : ((l₁ ++ e :: l₂).map (·.2)).Nodup) (v : List (Slot × OrderData)) :
    ordersOf (Function.update view e.2 v) (l₁ ++ e :: l₂) =
      ordersOf view l₁ ++ (v.map (·.2) ++ ordersOf view l₂) := by
  simp only [ordersOf, shown_update l₁ h, List.map_append]

end Views

namespace Store

variable {s s' : Store} {entries l₁ l₂ : List Entry} {view : View} {e e' : Entry} {x x' : Slot × OrderData}
  {v₁ v₂ : List (Slot × OrderData)} {xs ys : List (Slot × OrderData)}

/-! ## The index -/

theorem Indexed.perm (h : s.Indexed xs) (hp : xs.Perm ys) : s.Indexed ys :=
  ⟨h.index, (hp.map _).nodup_iff.1 h.ids, h.size.trans hp.length_eq, h.live.trans hp.length_eq,
    fun id r => by rw [h.lookup]; simp only [hp.mem_iff]⟩

/-- The index and the pool see an order by its address and its id. -/
theorem Indexed.of_keys (h : s.Indexed xs) (hk : ys.map (fun x => (x.1, x.2.id)) = xs.map fun x => (x.1, x.2.id))
    (hi : s'.index = s.index) (hc : s'.pool.liveCount = s.pool.liveCount) : s'.Indexed ys := by
  have hids : ys.map (·.2.id) = xs.map (·.2.id) := by
    simpa [Function.comp_def] using congrArg (List.map Prod.snd) hk
  have hlen : ys.length = xs.length := by simpa using congrArg List.length hk
  refine ⟨hi ▸ h.index, by rw [hids]; exact h.ids, by rw [hi, hlen]; exact h.size, by rw [hc, hlen]; exact h.live,
    fun id r => ?_⟩
  have hkeys : ∀ zs : List (Slot × OrderData), (∃ x ∈ zs, r = some x.1 ∧ id = x.2.id) ↔
      ∃ k ∈ zs.map (fun x => (x.1, x.2.id)), r = some k.1 ∧ id = k.2 := by
    intro zs
    constructor
    · rintro ⟨x, hx, hr⟩; exact ⟨_, List.mem_map_of_mem hx, hr⟩
    · rintro ⟨k, hk, hr⟩
      obtain ⟨x, hx, rfl⟩ := List.mem_map.1 hk
      exact ⟨x, hx, hr⟩
  rw [hi, h.lookup, hkeys xs, hkeys ys, hk]

theorem Indexed.congr (h : s.Indexed xs) (hi : s'.index = s.index) (hc : s'.pool.liveCount = s.pool.liveCount) :
    s'.Indexed xs := h.of_keys rfl hi hc

/-- An order leaves the index and the pool. -/
theorem Indexed.remove (h : s.Indexed (x :: xs)) (hi : s'.index.WF)
    (hl : s'.index.lookup = Function.update s.index.lookup x.2.id none) (hs : s'.index.size = s.index.size - 1)
    (hc : s'.pool.liveCount + 1 = s.pool.liveCount) : s'.Indexed xs := by
  have hids := h.ids
  have hsize := h.size
  have hlive := h.live
  rw [List.map_cons, List.nodup_cons] at hids
  rw [List.length_cons] at hsize hlive
  refine ⟨hi, hids.2, by omega, by omega, fun id r => ?_⟩
  rw [hl]
  by_cases hid : id = x.2.id
  · subst hid
    rw [Function.update_self]
    refine ⟨by simp, ?_⟩
    rintro ⟨y, hy, -, hid⟩
    exact absurd (hid ▸ List.mem_map_of_mem hy) hids.1
  · rw [Function.update_of_ne hid, h.lookup]
    constructor
    · rintro ⟨y, hy, hr, hy'⟩
      rcases List.mem_cons.1 hy with rfl | hy
      · exact absurd hy' hid
      · exact ⟨y, hy, hr, hy'⟩
    · rintro ⟨y, hy, hr, hy'⟩
      exact ⟨y, List.mem_cons_of_mem _ hy, hr, hy'⟩

/-- A new order enters the index and the pool. -/
theorem Indexed.add (h : s.Indexed xs) (hx : x.2.id ∉ xs.map (·.2.id)) (hi : s'.index.WF)
    (hl : s'.index.lookup = Function.update s.index.lookup x.2.id (some (some x.1)))
    (hs : s'.index.size = s.index.size + 1) (hc : s'.pool.liveCount = s.pool.liveCount + 1) :
    s'.Indexed (x :: xs) := by
  refine ⟨hi, by rw [List.map_cons, List.nodup_cons]; exact ⟨hx, h.ids⟩, by rw [hs, h.size]; rfl,
    by rw [hc, h.live]; rfl, fun id r => ?_⟩
  rw [hl]
  by_cases hid : id = x.2.id
  · subst hid
    rw [Function.update_self]
    constructor
    · intro hr
      exact ⟨x, List.mem_cons_self .., (Option.some.inj hr).symm, rfl⟩
    · rintro ⟨y, hy, hr, hid⟩
      rcases List.mem_cons.1 hy with rfl | hy
      · rw [hr]
      · exact absurd (hid ▸ List.mem_map_of_mem hy) hx
  · rw [Function.update_of_ne hid, h.lookup]
    constructor
    · rintro ⟨y, hy, hr, hy'⟩
      exact ⟨y, List.mem_cons_of_mem _ hy, hr, hy'⟩
    · rintro ⟨y, hy, hr, hy'⟩
      rcases List.mem_cons.1 hy with rfl | hy
      · exact absurd hy' hid
      · exact ⟨y, hy, hr, hy'⟩

/-- The index takes a new order. -/
theorem Indexed.insert_spec {p : Slot} {d : OrderData} (h : s.Indexed xs) (hi : s'.index = s.index)
    (hc : s'.pool.liveCount = s.pool.liveCount + 1) (hd : d.id ∉ xs.map (·.2.id)) :
    ∃ index, s'.index.insert d.id (some p) = some index ∧ ({ s' with index } : Store).Indexed ((p, d) :: xs) := by
  obtain ⟨index, hr, hw, hl, hs, -⟩ := h.index.insert_spec d.id (some p)
  have hnone : s.index.lookup d.id = none := by
    rw [Option.eq_none_iff_forall_ne_some]
    intro r hr
    obtain ⟨x, hx, -, hid⟩ := (h.lookup d.id r).1 hr
    exact hd (hid ▸ List.mem_map_of_mem hx)
  refine ⟨index, by rw [hi, hr], h.add hd hw hl ?_ hc⟩
  show index.size = _
  rw [hs, hnone]
  rfl

/-! ## The levels -/

theorem Shows.perm {es es' : List Entry} (h : s.Shows es view) (hp : es.Perm es') : s.Shows es' view :=
  ⟨h.pool, (hp.map _).nodup_iff.1 h.nodup, fun e he => h.fresh e (hp.mem_iff.2 he),
    fun e he => h.level e (hp.mem_iff.2 he), fun e he => h.data e (hp.mem_iff.2 he)⟩

theorem Shows.sublist {es : List Entry} (h : s.Shows entries view) (hs : es.Sublist entries) : s.Shows es view :=
  ⟨h.pool, (hs.map _).nodup h.nodup, fun e he => h.fresh e (hs.mem he), fun e he => h.level e (hs.mem he),
    fun e he => h.data e (hs.mem he)⟩

theorem Shows.entry_inj (h : s.Shows entries view) (he : e ∈ entries) (he' : e' ∈ entries) (ha : e.2 = e'.2) :
    e = e' := List.inj_on_of_nodup_map h.nodup he he' ha

/-- An order of the view lives at its address, in its level. -/
theorem Shows.live (h : s.Shows entries view) (he : e ∈ entries) (hx : x ∈ view e.2) :
    ∃ o, s.pool.get x.1 = some o ∧ o.level = some e.2 ∧ o.toOrderData = x.2 := by
  obtain ⟨lv, -, -, hrep⟩ := h.level e he
  obtain ⟨o, ho, hl⟩ := hrep.member x.1 (List.mem_map_of_mem hx)
  have hd := (h.data e he x hx).1
  rw [dataOf_some ho] at hd
  exact ⟨o, ho, hl, Option.some.inj hd⟩

/-- Different levels share no order. -/
theorem Shows.addr_inj (h : s.Shows entries view) (he : e ∈ entries) (he' : e' ∈ entries) (hx : x ∈ view e.2)
    (hx' : x' ∈ view e'.2) (hs : x.1 = x'.1) : e.2 = e'.2 := by
  obtain ⟨o, ho, hl, -⟩ := h.live he hx
  obtain ⟨o', ho', hl', -⟩ := h.live he' hx'
  rw [hs, ho'] at ho; cases ho
  rw [hl] at hl'; exact Option.some.inj hl'

/-- An address stands in one place of its level. -/
theorem Shows.slot_notMem (h : s.Shows entries view) (he : e ∈ entries) (hv : view e.2 = v₁ ++ x :: v₂) :
    ∀ y ∈ v₁ ++ v₂, y.1 ≠ x.1 := by
  obtain ⟨lv, -, -, hrep⟩ := h.level e he
  have hnd := hrep.dll.nodup
  rw [hv, List.map_append, List.map_cons, List.nodup_middle, List.nodup_cons, ← List.map_append] at hnd
  intro y hy hyx
  exact hnd.1 (hyx ▸ List.mem_map_of_mem hy)

/-- The store changed at one level and in the memory of its orders. -/
theorem Shows.change (h : s.Shows entries view) (he : e ∈ entries) {lv : PriceLevel} {v : List (Slot × OrderData)}
    (hpool : s'.pool.WF) (hnext : s'.nextLevel = s.nextLevel)
    (hlv : s'.levels = Function.update s.levels e.2 (some lv)) (hprice : lv.price = e.1)
    (hrep : LevelRep s'.pool.get e.2 lv (v.map (·.1)))
    (hdata : ∀ x ∈ v, dataOf s'.pool.get x.1 = some x.2 ∧ x.2.price = e.1)
    (hframe : ∀ e' ∈ entries, e'.2 ≠ e.2 → ∀ y ∈ view e'.2, s'.pool.get y.1 = s.pool.get y.1) :
    s'.Shows entries (Function.update view e.2 v) := by
  refine ⟨hpool, h.nodup, fun e' he' => hnext ▸ h.fresh e' he', fun e' he' => ?_, fun e' he' y hy => ?_⟩
  · by_cases ha : e'.2 = e.2
    · obtain rfl := h.entry_inj he' he ha
      exact ⟨lv, by rw [hlv, Function.update_self], hprice, by rw [Function.update_self]; exact hrep⟩
    · obtain ⟨lv', hlv', hp', hrep'⟩ := h.level e' he'
      refine ⟨lv', by rw [hlv, Function.update_of_ne ha, hlv'], hp', ?_⟩
      rw [Function.update_of_ne ha]
      refine hrep'.congr fun p hp => ?_
      obtain ⟨y, hy, rfl⟩ := List.mem_map.1 hp
      exact hframe e' he' ha y hy
  · by_cases ha : e'.2 = e.2
    · obtain rfl := h.entry_inj he' he ha
      rw [Function.update_self] at hy
      exact hdata y hy
    · rw [Function.update_of_ne ha] at hy
      obtain ⟨h1, h2⟩ := h.data e' he' y hy
      refine ⟨?_, h2⟩
      unfold dataOf
      rw [hframe e' he' ha y hy]
      exact h1

/-- The memory changed outside the view. -/
theorem Shows.frame (h : s.Shows entries view) (hpool : s'.pool.WF) (hnext : s'.nextLevel = s.nextLevel)
    (hlv : s'.levels = s.levels) (hframe : ∀ e ∈ entries, ∀ x ∈ view e.2, s'.pool.get x.1 = s.pool.get x.1) :
    s'.Shows entries view := by
  refine ⟨hpool, h.nodup, fun e he => hnext ▸ h.fresh e he, fun e he => ?_, fun e he x hx => ?_⟩
  · obtain ⟨lv, h1, h2, h3⟩ := h.level e he
    refine ⟨lv, by rw [hlv, h1], h2, h3.congr fun p hp => ?_⟩
    obtain ⟨y, hy, rfl⟩ := List.mem_map.1 hp
    exact hframe e he y hy
  · obtain ⟨h1, h2⟩ := h.data e he x hx
    refine ⟨?_, h2⟩
    unfold dataOf
    rw [hframe e he x hx]
    exact h1

/-- A level leaves. -/
theorem Shows.eraseEntry (h : s.Shows (l₁ ++ e :: l₂) view) :
    ({ s with levels := Function.update s.levels e.2 none } : Store).Shows (l₁ ++ l₂) view := by
  have hsub : (l₁ ++ l₂).Sublist (l₁ ++ e :: l₂) := (List.sublist_cons_self e l₂).append_left l₁
  refine ⟨h.pool, (hsub.map _).nodup h.nodup, fun e' he' => h.fresh e' (hsub.mem he'), fun e' he' => ?_,
    fun e' he' => h.data e' (hsub.mem he')⟩
  have hne := addr_ne_of_split h.nodup he'
  obtain ⟨lv, h1, h2, h3⟩ := h.level e' (hsub.mem he')
  exact ⟨lv, by simp only [Function.update_of_ne hne, h1], h2, h3⟩

/-- A new level enters, without orders. -/
theorem Shows.addEntry (h : s.Shows (l₁ ++ l₂) view) (price : Price) :
    ({ s with levels := Function.update s.levels s.nextLevel (some (.new price)), nextLevel := s.nextLevel + 1 } :
      Store).Shows (l₁ ++ (price, s.nextLevel) :: l₂) (Function.update view s.nextLevel []) := by
  have hne : ∀ e ∈ l₁ ++ l₂, e.2 ≠ s.nextLevel := fun e he => Nat.ne_of_lt (h.fresh e he)
  refine Shows.perm ?_ List.perm_middle.symm
  refine ⟨h.pool, ?_, ?_, ?_, ?_⟩
  · rw [List.map_cons, List.nodup_cons]
    refine ⟨fun hm => ?_, h.nodup⟩
    obtain ⟨e, he, ha⟩ := List.mem_map.1 hm
    exact hne e he ha
  · intro e he
    rcases List.mem_cons.1 he with rfl | he
    · exact Nat.lt_succ_self _
    · exact Nat.lt_succ_of_lt (h.fresh e he)
  · intro e he
    rcases List.mem_cons.1 he with rfl | he
    · exact ⟨.new price, by simp only [Function.update_self], rfl,
        by simp only [Function.update_self]; exact LevelRep.new _ _ _⟩
    · obtain ⟨lv, h1, h2, h3⟩ := h.level e he
      exact ⟨lv, by simp only [Function.update_of_ne (hne e he), h1], h2,
        by simp only [Function.update_of_ne (hne e he)]; exact h3⟩
  · intro e he x hx
    rcases List.mem_cons.1 he with rfl | he
    · simp only [Function.update_self, List.not_mem_nil] at hx
    · rw [Function.update_of_ne (hne e he)] at hx
      exact h.data e he x hx

/-! ## The operations -/

/-- Unlinking an order takes it out of the view; it stays live. -/
theorem Shows.unlink_spec (h : s.Shows entries view) (he : e ∈ entries) (hv : view e.2 = v₁ ++ x :: v₂) :
    ∃ s' lv, s.unlink e.2 x.1 = some s' ∧ s'.levels e.2 = some lv ∧ (lv.empty = true ↔ v₁ ++ v₂ = []) ∧
      s'.Shows entries (Function.update view e.2 (v₁ ++ v₂)) ∧
      s'.index = s.index ∧ s'.trades = s.trades ∧ s'.pool.liveCount = s.pool.liveCount ∧
      dataOf s'.pool.get x.1 = some x.2 := by
  have hx : x ∈ view e.2 := by rw [hv]; exact List.mem_append_right _ (List.mem_cons_self ..)
  obtain ⟨lv, hlv, hprice, hrep⟩ := h.level e he
  obtain ⟨o, ho, -, hod⟩ := h.live he hx
  rw [hv, List.map_append, List.map_cons] at hrep
  obtain ⟨heap, lv', hr, hw, hrep', hp', hc, hl⟩ := PriceLevel.unlink_spec h.pool hrep ho
  have hdata : ∀ q, dataOf heap.get q = dataOf s.pool.get q := hl.data
  refine ⟨{ s with pool := heap, levels := Function.update s.levels e.2 (some lv') }, lv',
    by simp [unlink, hlv, hr], by simp, by rw [hrep'.empty_iff, ← List.map_append, List.map_eq_nil_iff], ?_, rfl,
    rfl, hc, (hdata x.1).trans (h.data e he x hx).1⟩
  refine h.change he hw rfl rfl (hp'.trans hprice) (by rw [List.map_append]; exact hrep') (fun y hy => ?_)
    (fun e' he' hne y hy => hl.same _ fun hm => ?_)
  · have hy' : y ∈ view e.2 := by
      rw [hv]
      rcases List.mem_append.1 hy with hy | hy
      · exact List.mem_append_left _ hy
      · exact List.mem_append_right _ (List.mem_cons_of_mem _ hy)
    exact ⟨(hdata y.1).trans (h.data e he y hy').1, (h.data e he y hy').2⟩
  · rw [← List.map_cons, ← List.map_append, ← hv] at hm
    obtain ⟨z, hz, hzy⟩ := List.mem_map.1 hm
    exact hne (h.addr_inj he he' hz hy hzy).symm

/-- Releasing an order that no level holds. -/
theorem Shows.release_spec {p : Slot} {d : OrderData} (h : s.Shows entries view) (hd : dataOf s.pool.get p = some d)
    (hp : ∀ e ∈ entries, ∀ y ∈ view e.2, y.1 ≠ p) :
    ∃ s', s.release p = some s' ∧ s'.Shows entries view ∧ s'.index = s.index ∧ s'.trades = s.trades ∧
      s'.pool.liveCount + 1 = s.pool.liveCount ∧ s'.levels = s.levels := by
  obtain ⟨o, ho, -⟩ := dataOf_eq_some hd
  obtain ⟨heap, hr, hw, hg, hc⟩ := h.pool.release_spec ho
  refine ⟨{ s with pool := heap }, by simp [release, hr], h.frame hw rfl rfl fun e he y hy => ?_, rfl, rfl, hc, rfl⟩
  show heap.get y.1 = s.pool.get y.1
  rw [hg, Function.update_of_ne (hp e he y hy)]

theorem removeFromIndex_spec {p : Slot} {d : OrderData} (hi : s.index.WF) (hd : dataOf s.pool.get p = some d) :
    ∃ index, s.removeFromIndex p = some { s with index } ∧ index.WF ∧
      index.lookup = Function.update s.index.lookup d.id none ∧
      index.size = if (s.index.lookup d.id).isSome then s.index.size - 1 else s.index.size := by
  obtain ⟨o, ho, rfl⟩ := dataOf_eq_some hd
  obtain ⟨index, hr, hw, hl, -, hs⟩ := hi.erase_spec o.id
  exact ⟨index, by simp [removeFromIndex, ho, hr], hw, hl, hs⟩

/-- After an order left the view no level holds its address. -/
theorem Shows.update_notMem (h : s.Shows entries view) (he : e ∈ entries) (hv : view e.2 = v₁ ++ x :: v₂) :
    ∀ e' ∈ entries, ∀ y ∈ Function.update view e.2 (v₁ ++ v₂) e'.2, y.1 ≠ x.1 := by
  intro e' he' y hy hyx
  by_cases ha : e'.2 = e.2
  · rw [ha, Function.update_self] at hy
    exact h.slot_notMem he hv y hy hyx
  · rw [Function.update_of_ne ha] at hy
    have hx : x ∈ view e.2 := by rw [hv]; exact List.mem_append_right _ (List.mem_cons_self ..)
    exact ha (h.addr_inj he' he hy hx hyx)

/-- `match` removes a maker: it leaves the view, the index and the pool. -/
theorem removeMaker_spec (l₁ : List Entry) (v₁ : List (Slot × OrderData)) (h : s.Shows (l₁ ++ e :: l₂) view)
    (hi : s.Indexed (shown view (l₁ ++ e :: l₂)))
    (hv : view e.2 = v₁ ++ x :: v₂) :
    ∃ s', s.removeMaker e.2 x.1 = some s' ∧ s'.Shows (l₁ ++ e :: l₂) (Function.update view e.2 (v₁ ++ v₂)) ∧
      s'.Indexed (shown (Function.update view e.2 (v₁ ++ v₂)) (l₁ ++ e :: l₂)) ∧ s'.trades = s.trades := by
  have he : e ∈ l₁ ++ e :: l₂ := List.mem_append_right _ (List.mem_cons_self ..)
  obtain ⟨s₁, lv, hr₁, -, -, h₁, hi₁, ht₁, hc₁, hd₁⟩ := h.unlink_spec he hv
  obtain ⟨index, hr₂, hw₂, hl₂, hs₂⟩ := removeFromIndex_spec (s := s₁) (hi₁ ▸ hi.index) hd₁
  have h₂ : ({ s₁ with index } : Store).Shows (l₁ ++ e :: l₂) (Function.update view e.2 (v₁ ++ v₂)) :=
    h₁.frame h₁.pool rfl rfl fun _ _ _ _ => rfl
  obtain ⟨s₃, hr₃, h₃, hi₃, ht₃, hc₃, -⟩ := h₂.release_spec hd₁ (h.update_notMem he hv)
  refine ⟨s₃, by simp [removeMaker, hr₁, hr₂, hr₃], h₃, ?_, by rw [ht₃, ht₁]⟩
  rw [shown_append, shown_cons, hv, List.append_assoc, List.cons_append, ← List.append_assoc] at hi
  have hx := (hi.lookup x.2.id (some x.1)).2
    ⟨x, List.mem_append_right _ (List.mem_cons_self ..), rfl, rfl⟩
  rw [shown_update l₁ h.nodup, List.append_assoc, ← List.append_assoc]
  refine (hi.perm List.perm_middle).remove (hi₃ ▸ hw₂)
    (by rw [hi₃]; show index.lookup = _; rw [hl₂, hi₁]) ?_ (by rw [hc₃]; exact hc₁)
  rw [hi₃]
  show index.size = _
  rw [hs₂, hi₁, hx]; rfl

/-- A fill changes the remainder of one order of the view. -/
theorem fill_spec (l₁ : List Entry) (v₁ : List (Slot × OrderData)) (h : s.Shows (l₁ ++ e :: l₂) view)
    (hi : s.Indexed (shown view (l₁ ++ e :: l₂)))
    (hv : view e.2 = v₁ ++ x :: v₂) {qty : Quantity} (hq : qty ≤ x.2.remaining) :
    ∃ s', s.fill e.2 x.1 qty = some s' ∧
      s'.Shows (l₁ ++ e :: l₂) (Function.update view e.2 (v₁ ++ (x.1, x.2.reduce qty) :: v₂)) ∧
      s'.Indexed (shown (Function.update view e.2 (v₁ ++ (x.1, x.2.reduce qty) :: v₂)) (l₁ ++ e :: l₂)) ∧
      s'.trades = s.trades ∧ dataOf s'.pool.get x.1 = some (x.2.reduce qty) := by
  have he : e ∈ l₁ ++ e :: l₂ := List.mem_append_right _ (List.mem_cons_self ..)
  have hx : x ∈ view e.2 := by rw [hv]; exact List.mem_append_right _ (List.mem_cons_self ..)
  obtain ⟨lv, hlv, hprice, hrep⟩ := h.level e he
  obtain ⟨o, ho, -, hod⟩ := h.live he hx
  have hrep₀ := hrep
  rw [hv, List.map_append, List.map_cons] at hrep
  have hq' : qty ≤ o.remaining := by rw [← hod] at hq; exact hq
  obtain ⟨heap, hr, hw, hg, hrep', hc⟩ := PriceLevel.fill_spec h.pool hrep ho hq'
  have hp : dataOf heap.get x.1 = some (x.2.reduce qty) := by
    rw [hg]; unfold dataOf; rw [Function.update_self, ← hod]; rfl
  refine ⟨{ s with pool := heap, levels := Function.update s.levels e.2 (some (lv.onFill qty)) },
    by simp [fill, hlv, hr], ?_, ?_, rfl, hp⟩
  · refine h.change he hw rfl rfl hprice ?_ (fun y hy => ?_) (fun e' he' hne y hy => ?_)
    · rw [List.map_append, List.map_cons]; exact hrep'
    · rcases List.mem_append.1 hy with hy | hy
      · have hm : y ∈ view e.2 := by rw [hv]; exact List.mem_append_left _ hy
        have hne := h.slot_notMem he hv y (List.mem_append_left _ hy)
        refine ⟨?_, (h.data e he y hm).2⟩
        rw [← (h.data e he y hm).1]
        show dataOf heap.get y.1 = _
        rw [hg]; unfold dataOf; rw [Function.update_of_ne hne]
      · rcases List.mem_cons.1 hy with rfl | hy
        · exact ⟨hp, (h.data e he x hx).2⟩
        · have hm : y ∈ view e.2 := by rw [hv]; exact List.mem_append_right _ (List.mem_cons_of_mem _ hy)
          have hne := h.slot_notMem he hv y (List.mem_append_right _ hy)
          refine ⟨?_, (h.data e he y hm).2⟩
          rw [← (h.data e he y hm).1]
          show dataOf heap.get y.1 = _
          rw [hg]; unfold dataOf; rw [Function.update_of_ne hne]
    · have hyx : y.1 ≠ x.1 := fun hyx => hne (h.addr_inj he' he hy hx hyx)
      show heap.get y.1 = _
      rw [hg, Function.update_of_ne hyx]
  · rw [shown_append, shown_cons, hv, List.append_assoc, List.cons_append, ← List.append_assoc] at hi
    rw [shown_update l₁ h.nodup, List.append_assoc, List.cons_append, ← List.append_assoc]
    exact hi.of_keys (by simp [OrderData.reduce]) rfl hc

section Sides

variable {lt : Price → Price → Prop} {book : SortedMap Price LevelPtr lt} {other : List Entry}

/-- Erasing an empty level by its price. -/
theorem eraseLevel_spec [Std.Irrefl lt] (l₁ : List Entry) (h : s.Shows (book.entries ++ other) view)
    (hb : book.entries = l₁ ++ e :: l₂) :
    ∃ s' book', s.eraseLevel book e.1 = (s', book') ∧ book'.entries = l₁ ++ l₂ ∧
      s'.Shows (book'.entries ++ other) view ∧ s'.pool = s.pool ∧ s'.index = s.index ∧ s'.trades = s.trades := by
  have hfind : book.find? e.1 = some e.2 := SortedMap.find?_of_split hb
  have herase : (book.erase e.1).entries = l₁ ++ l₂ := SortedMap.erase_split hb
  refine ⟨{ s with levels := Function.update s.levels e.2 none }, book.erase e.1, by simp [eraseLevel, hfind],
    herase, ?_, rfl, rfl, rfl⟩
  rw [herase, List.append_assoc]
  refine Shows.eraseEntry ?_
  rw [hb, List.append_assoc] at h
  exact h

/-- The level at a price, found or built; the orders shown are the same. -/
theorem emplaceLevel_spec [DecidableRel lt] [IsStrictTotalOrder Price lt] (h : s.Shows (book.entries ++ other) view)
    (hne : ∀ e ∈ book.entries, view e.2 ≠ []) (price : Price) :
    ∃ addr s' book' view' l₁ l₂, s.emplaceLevel book price = (addr, s', book') ∧
      book'.entries = l₁ ++ (price, addr) :: l₂ ∧ s'.Shows (book'.entries ++ other) view' ∧
      (∀ e ∈ l₁, lt e.1 price ∧ view' e.2 ≠ []) ∧ (∀ e ∈ l₂, lt price e.1 ∧ view' e.2 ≠ []) ∧
      shown view' book'.entries = shown view book.entries ∧ (∀ e ∈ other, view' e.2 = view e.2) ∧
      s'.pool = s.pool ∧ s'.index = s.index ∧ s'.trades = s.trades := by
  unfold emplaceLevel
  cases hf : book.find? price with
  | some addr =>
    obtain ⟨l₁, l₂, hb⟩ := SortedMap.find?_some hf
    obtain ⟨h1, h2⟩ := book.split_lt hb
    refine ⟨addr, s, book, view, l₁, l₂, rfl, hb, h, fun e he => ⟨h1 e he, hne e ?_⟩, fun e he => ⟨h2 e he, hne e ?_⟩,
      rfl, fun _ _ => rfl, rfl, rfl, rfl⟩
    · rw [hb]; exact List.mem_append_left _ he
    · rw [hb]; exact List.mem_append_right _ (List.mem_cons_of_mem _ he)
  | none =>
    obtain ⟨-, l₁, l₂, hb, hb', h1, h2⟩ := SortedMap.tryEmplace_absent s.nextLevel hf
    rw [hb, List.append_assoc] at h
    have hnew := h.addEntry price
    have hold : ∀ e ∈ l₁ ++ (l₂ ++ other), Function.update view s.nextLevel [] e.2 = view e.2 :=
      fun e he => Function.update_of_ne (Nat.ne_of_lt (h.fresh e he)) _ _
    have hold₁ : ∀ e ∈ l₁, Function.update view s.nextLevel [] e.2 = view e.2 :=
      fun e he => hold e (List.mem_append_left _ he)
    have hold₂ : ∀ e ∈ l₂, Function.update view s.nextLevel [] e.2 = view e.2 :=
      fun e he => hold e (List.mem_append_right _ (List.mem_append_left _ he))
    refine ⟨s.nextLevel,
      { s with levels := Function.update s.levels s.nextLevel (some (.new price)), nextLevel := s.nextLevel + 1 },
      (book.tryEmplace price s.nextLevel).2, Function.update view s.nextLevel [], l₁, l₂, rfl, hb', ?_,
      fun e he => ⟨h1 e he, ?_⟩, fun e he => ⟨h2 e he, ?_⟩, ?_,
      fun e he => hold e (List.mem_append_right _ (List.mem_append_right _ he)), rfl, rfl, rfl⟩
    · rw [hb', List.append_assoc]; exact hnew
    · rw [hold₁ e he]; exact hne e (by rw [hb]; exact List.mem_append_left _ he)
    · rw [hold₂ e he]; exact hne e (by rw [hb]; exact List.mem_append_right _ he)
    · rw [hb', hb, shown_append, shown_append, shown_cons, Function.update_self, List.nil_append]
      unfold shown
      rw [List.flatMap_def, List.flatMap_def, List.flatMap_def, List.flatMap_def, List.map_congr_left hold₁,
        List.map_congr_left hold₂]

end Sides

/-- Queueing a live order that no level holds. -/
theorem Shows.enqueue_spec {p : Slot} {d : OrderData} (h : s.Shows entries view) (he : e ∈ entries)
    (hd : dataOf s.pool.get p = some d) (hprice : d.price = e.1) (hp : ∀ e ∈ entries, ∀ y ∈ view e.2, y.1 ≠ p) :
    ∃ s', s.enqueue e.2 p = some s' ∧ s'.Shows entries (Function.update view e.2 (view e.2 ++ [(p, d)])) ∧
      s'.index = s.index ∧ s'.trades = s.trades ∧ s'.pool.liveCount = s.pool.liveCount := by
  obtain ⟨o, ho, -⟩ := dataOf_eq_some hd
  obtain ⟨lv, hlv, hlp, hrep⟩ := h.level e he
  have hnotin : p ∉ (view e.2).map (·.1) := fun hm => by
    obtain ⟨y, hy, hyp⟩ := List.mem_map.1 hm
    exact hp e he y hy hyp
  obtain ⟨heap, lv', hr, hw, hrep', hlp', hc, hl⟩ := PriceLevel.enqueue_spec h.pool hrep ho hnotin
  refine ⟨{ s with pool := heap, levels := Function.update s.levels e.2 (some lv') }, by simp [enqueue, hlv, hr],
    h.change he hw rfl rfl (hlp'.trans hlp) (by rw [List.map_append]; exact hrep') (fun y hy => ?_)
      (fun e' he' hne y hy => hl.same _ fun hm => ?_), rfl, rfl, hc⟩
  · show dataOf heap.get y.1 = _ ∧ _
    rw [hl.data]
    rcases List.mem_append.1 hy with hy | hy
    · exact h.data e he y hy
    · obtain rfl : y = (p, d) := by simpa using hy
      exact ⟨hd, hprice⟩
  · rcases List.mem_cons.1 hm with hyp | hm
    · exact hp e' he' y hy hyp
    · obtain ⟨z, hz, hzy⟩ := List.mem_map.1 hm
      exact hne (h.addr_inj he he' hz hy hzy).symm

end Store

end Obe
