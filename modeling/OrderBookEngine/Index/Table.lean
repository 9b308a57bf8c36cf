/-
The order index keeps the chain invariant of linear probing, and so acts as a map: `lookup` is
what `find` points to, `insert` and `erase` change it at their key only, `reserve` and the
rehashes inside `insert` do not change it. Every call ends.
-/
import OrderBookEngine.Index.FlatHashMap

namespace Obe.FlatHashMap

open Probing

/-! ## The slots of a table -/

section Slots

variable {Key Value : Type}

/-- The three arrays as one table. -/
def slots (m : FlatHashMap Key Value) : Table Key Value :=
  fun i => if m.state i = .occupied then some (m.keys i, m.values i) else none

/-- The capacity is a power of two and the mask selects its slots. -/
structure Layout (m : FlatHashMap Key Value) : Prop where
  cap : ∃ k, m.capacity = 2 ^ k
  mask : m.mask = m.capacity - 1

variable {m : FlatHashMap Key Value} {i j : Nat} {key : Key} {v : Value}

theorem Layout.pos (h : m.Layout) : 0 < m.capacity := by
  obtain ⟨k, hc⟩ := h.cap
  rw [hc]
  exact Nat.two_pow_pos k

theorem Layout.and_mask (h : m.Layout) (x : Nat) : x &&& m.mask = x % m.capacity := by
  obtain ⟨k, hc⟩ := h.cap
  rw [h.mask, hc, Pow2.and_mask]

theorem Layout.next (h : m.Layout) (hi : i < m.capacity) : (i + 1) &&& m.mask = add m.capacity i 1 := by
  rw [h.and_mask]
  rcases add_eq m.capacity i 1 with ⟨h1, h2⟩ | ⟨h1, h2⟩
  · rw [h2, Nat.mod_eq_of_lt h1]
  · rw [h2, show i + 1 = m.capacity by omega, Nat.mod_self, Nat.sub_self]

theorem slots_none : m.slots i = none ↔ m.state i = .empty := by
  unfold slots
  cases m.state i <;> simp

theorem slots_some : m.slots i = some (key, v) ↔ m.state i = .occupied ∧ m.keys i = key ∧ m.values i = v := by
  unfold slots
  cases m.state i <;> simp

theorem state_of_slots {a : Key × Value} (h : m.slots i = some a) : m.state i = .occupied ∧ m.keys i = a.1 :=
  ⟨(slots_some.1 h).1, (slots_some.1 h).2.1⟩

theorem slots_insert (m : FlatHashMap Key Value) (i : Nat) (key : Key) (v : Value) (size : Nat) :
    slots { m with
      keys := Function.update m.keys i key
      values := Function.update m.values i v
      state := Function.update m.state i .occupied
      size := size } = Function.update m.slots i (some (key, v)) := by
  funext x
  by_cases hx : x = i
  · subst hx; simp [slots]
  · simp [slots, Function.update_of_ne hx]

theorem slots_overwrite (hi : m.state i = .occupied) (hk : m.keys i = key) :
    slots { m with values := Function.update m.values i v } = Function.update m.slots i (some (key, v)) := by
  funext x
  by_cases hx : x = i
  · subst hx; simp [slots, hi, hk]
  · simp [slots, Function.update_of_ne hx]

theorem slots_openHole (m : FlatHashMap Key Value) (i : Nat) :
    (m.openHole i).slots = Function.update m.slots i none := by
  funext x
  by_cases hx : x = i
  · subst hx; simp [slots, openHole]
  · simp [slots, openHole, Function.update_of_ne hx]

theorem slots_moveBack {a : Key × Value} (ha : m.slots j = some a) (i : Nat) :
    (m.moveBack i j).slots = Function.update (Function.update m.slots i (some a)) j none := by
  obtain ⟨-, hk, hv⟩ := slots_some.1 (show m.slots j = some (a.1, a.2) from ha)
  funext x
  by_cases hxj : x = j
  · subst hxj; simp [slots, moveBack]
  · rw [Function.update_of_ne hxj]
    by_cases hxi : x = i
    · subst hxi; simp [slots, moveBack, Function.update_of_ne hxj, hk, hv]
    · simp [slots, moveBack, Function.update_of_ne hxj, Function.update_of_ne hxi]

theorem Layout.moveBack (h : m.Layout) (i j : Nat) : (m.moveBack i j).Layout := ⟨h.cap, h.mask⟩

/-! ## The probe loops -/

variable {t fuel : Nat}

theorem findLoop_stop [DecidableEq Key] (h : m.Layout) (ht : t < m.capacity) (hf : t < fuel) (hi : i < m.capacity)
    (hc : Clear m.capacity m.slots i key t) :
    (m.slots (add m.capacity i t) = none → m.findLoop key fuel i = some none) ∧
      (m.slots (add m.capacity i t) = some (key, v) → m.findLoop key fuel i = some (some (add m.capacity i t))) := by
  induction t generalizing i fuel with
  | zero =>
    obtain ⟨f, rfl⟩ : ∃ f, fuel = f + 1 := ⟨fuel - 1, by omega⟩
    rw [add_zero hi]
    constructor
    · intro hn; simp [findLoop, slots_none.1 hn]
    · intro hs
      obtain ⟨ho, hk, -⟩ := slots_some.1 hs
      simp [findLoop, ho, hk]
  | succ t ih =>
    obtain ⟨f, rfl⟩ : ∃ f, fuel = f + 1 := ⟨fuel - 1, by omega⟩
    obtain ⟨⟨a, ha, hne⟩, hc'⟩ := hc.tail hi (by omega)
    obtain ⟨ho, hk⟩ := state_of_slots ha
    have hstep : m.findLoop key (f + 1) i = m.findLoop key f (add m.capacity i 1) := by
      simp [findLoop, ho, hk, hne, h.next hi]
    rw [hstep, add_succ hi (by omega)]
    exact ih (by omega) (by omega) (add_lt hi (by omega)) hc'

theorem insertLoop_stop [DecidableEq Key] (h : m.Layout) (ht : t < m.capacity) (hf : t < fuel) (hi : i < m.capacity)
    (hc : Clear m.capacity m.slots i key t) (v w : Value) :
    (m.slots (add m.capacity i t) = none → ∃ m', m.insertLoop key v fuel i = some m' ∧
      m'.slots = Function.update m.slots (add m.capacity i t) (some (key, v)) ∧
      m'.capacity = m.capacity ∧ m'.mask = m.mask ∧ m'.size = m.size + 1) ∧
    (m.slots (add m.capacity i t) = some (key, w) → ∃ m', m.insertLoop key v fuel i = some m' ∧
      m'.slots = Function.update m.slots (add m.capacity i t) (some (key, v)) ∧
      m'.capacity = m.capacity ∧ m'.mask = m.mask ∧ m'.size = m.size) := by
  induction t generalizing i fuel with
  | zero =>
    obtain ⟨f, rfl⟩ : ∃ f, fuel = f + 1 := ⟨fuel - 1, by omega⟩
    rw [add_zero hi]
    constructor
    · intro hn
      have he : m.state i ≠ .occupied := by rw [slots_none.1 hn]; simp
      refine ⟨_, by simp only [insertLoop, if_neg he], slots_insert m i key v _, rfl, rfl, rfl⟩
    · intro hs
      obtain ⟨ho, hk, -⟩ := slots_some.1 hs
      refine ⟨_, by simp only [insertLoop, if_pos ho, if_pos hk], slots_overwrite ho hk, rfl, rfl, rfl⟩
  | succ t ih =>
    obtain ⟨f, rfl⟩ : ∃ f, fuel = f + 1 := ⟨fuel - 1, by omega⟩
    obtain ⟨⟨a, ha, hne⟩, hc'⟩ := hc.tail hi (by omega)
    obtain ⟨ho, hk⟩ := state_of_slots ha
    have hstep : m.insertLoop key v (f + 1) i = m.insertLoop key v f (add m.capacity i 1) := by
      simp only [insertLoop, if_pos ho, hk, if_neg hne, h.next hi]
    rw [hstep, add_succ hi (by omega)]
    exact ih (by omega) (by omega) (add_lt hi (by omega)) hc'

/-- What `eraseLoop` keeps: the table with its hole, its entries and their number. -/
structure Erasing (n : Nat) (home : Key → Nat) (T : Table Key Value) (m : FlatHashMap Key Value) (i j : Nat) :
    Prop where
  layout : m.Layout
  capacity : m.capacity = n
  holed : Holed n home m.slots i j
  holds : ∀ k v, Holds n m.slots k v ↔ Holds n T k v
  used : used n m.slots = used n T

/-- What `eraseLoop` returns. -/
structure Erased (n : Nat) (home : Key → Nat) (T : Table Key Value) (m m' : FlatHashMap Key Value) : Prop where
  layout : m'.Layout
  capacity : m'.capacity = n
  mask : m'.mask = m.mask
  size : m'.size = m.size
  chained : Chained n home m'.slots
  holds : ∀ k v, Holds n m'.slots k v ↔ Holds n T k v
  used : used n m'.slots = used n T

variable {n : Nat} {home : Key → Nat}

/-- One round of `eraseLoop`: the scan ends at a free slot, passes an entry whose home is after the
hole, or moves the entry back into the hole. -/
theorem eraseLoop_cases (hhome : ∀ k, home k < n) (hm : m.Layout) (hn : m.capacity = n) (hi : i < n) (hj : j < n)
    (fuel : Nat) :
    (m.slots (add n j 1) = none ∧ eraseLoop home (fuel + 1) m i j = some m) ∨
      ∃ a, m.slots (add n j 1) = some a ∧
        ((dist n (home a.1) (add n j 1) < dist n i (add n j 1) ∧
            eraseLoop home (fuel + 1) m i j = eraseLoop home fuel m i (add n j 1)) ∨
          (dist n i (add n j 1) ≤ dist n (home a.1) (add n j 1) ∧
            eraseLoop home (fuel + 1) m i j =
              eraseLoop home fuel (m.moveBack i (add n j 1)) (add n j 1) (add n j 1))) := by
  simp only [eraseLoop, hm.next (hn ▸ hj), hn]
  split
  · rename_i he
    exact .inl ⟨slots_none.2 he, rfl⟩
  · rename_i hne
    obtain ⟨a, ha⟩ := Option.ne_none_iff_exists'.1 (mt slots_none.1 hne)
    refine .inr ⟨a, ha, ?_⟩
    simp only [(state_of_slots ha).2, cyclic_mem hi (hhome a.1)]
    split
    · rename_i hstay
      exact .inl ⟨hstay, rfl⟩
    · rename_i hmove
      exact .inr ⟨Nat.not_lt.1 hmove, rfl⟩

theorem eraseLoop_correct {T : Table Key Value} {m' : FlatHashMap Key Value} (hhome : ∀ k, home k < n) (hi : i < n)
    (hj : j < n) (h : m.Erasing n home T i j) (hr : eraseLoop home fuel m i j = some m') :
    Erased n home T m m' := by
  induction fuel generalizing m i j with
  | zero => cases hr
  | succ fuel ih =>
    have hjn : add n j 1 < n := add_lt hj (by omega)
    rcases eraseLoop_cases hhome h.layout h.capacity hi hj fuel with
      ⟨hfree, he⟩ | ⟨a, ha, ⟨hstay, he⟩ | ⟨hmove, he⟩⟩ <;> rw [he] at hr
    · cases hr
      exact ⟨h.layout, h.capacity, rfl, rfl, h.holed.done hhome hi hj hfree, h.holds, h.used⟩
    · exact ih hi hjn ⟨h.layout, h.capacity, h.holed.skip hi hj ha hstay, h.holds, h.used⟩ hr
    · have hs := slots_moveBack ha i
      have := ih hjn hjn ⟨h.layout.moveBack i _, h.capacity, ?_, ?_, ?_⟩ hr
      · exact ⟨this.layout, this.capacity, this.mask, this.size, this.chained, this.holds, this.used⟩
      · rw [hs]; exact h.holed.move hhome hi hj ha hmove
      · intro k v; rw [hs, ← h.holds k v]; exact holds_move hi hjn h.holed.hole ha k v
      · rw [hs, ← h.used]; exact used_move hi hjn h.holed.hole ha

/-- The scan ends at the latest at a slot that is free besides the hole. -/
theorem eraseLoop_returns {e : Nat} (hhome : ∀ k, home k < n) (hm : m.Layout) (hn : m.capacity = n) (hi : i < n)
    (hj : j < n) (he : e < n) (hfree : m.slots e = none) (hei : e ≠ i) (hej : j ≠ e) (hf : dist n j e ≤ fuel) :
    ∃ m', eraseLoop home fuel m i j = some m' := by
  induction fuel generalizing m i j with
  | zero => exact absurd ((dist_eq_zero hj).1 (by omega)) hej
  | succ fuel ih =>
    have hnext := dist_next_to he hj hej
    have hjn : add n j 1 < n := add_lt hj (by omega)
    rcases eraseLoop_cases hhome hm hn hi hj fuel with ⟨-, hr⟩ | ⟨a, ha, h⟩
    · exact ⟨m, hr⟩
    · have hje : add n j 1 ≠ e := by intro heq; rw [heq, hfree] at ha; cases ha
      rcases h with ⟨-, hr⟩ | ⟨-, hr⟩ <;> rw [hr]
      · exact ih hm hn hi hjn hfree hei hje (by omega)
      · refine ih (hm.moveBack i _) hn hjn hjn ?_ hje.symm hje (by omega)
        rw [slots_moveBack ha i, Function.update_of_ne hje.symm, Function.update_of_ne hei, hfree]

theorem eraseLoop_capacity {m' : FlatHashMap Key Value} (h : eraseLoop home fuel m i j = some m') :
    m'.capacity = m.capacity := by
  induction fuel generalizing m i j with
  | zero => cases h
  | succ fuel ih =>
    simp only [eraseLoop] at h
    split_ifs at h
    · cases h
      rfl
    all_goals exact (ih h).trans rfl

/-- The scan ends in any table: a round takes it one slot further from the hole, or takes an entry
nearer to its home by as much as the scan had gone. -/
theorem eraseLoop_ends (hhome : ∀ k, home k < n) (hm : m.Layout) (hn : m.capacity = n) (hi : i < n) (hj : j < n)
    (hhole : m.slots i = none) (hf : displacement n home m.slots + n ≤ fuel + dist n i j) :
    ∃ m', eraseLoop home fuel m i j = some m' := by
  induction fuel generalizing m i j with
  | zero =>
    have := dist_lt hi hj
    omega
  | succ fuel ih =>
    have hjn : add n j 1 < n := add_lt hj (by omega)
    rcases eraseLoop_cases hhome hm hn hi hj fuel with ⟨-, hr⟩ | ⟨a, ha, h⟩
    · exact ⟨m, hr⟩
    · have hji : add n j 1 ≠ i := by intro heq; rw [heq, hhole] at ha; cases ha
      have hnext := dist_next hi hj hji
      rcases h with ⟨-, hr⟩ | ⟨hmove, hr⟩ <;> rw [hr]
      · exact ih hm hn hi hjn hhole (by omega)
      · have hs := slots_moveBack ha i
        have hless := displacement_move hhome hi hjn hhole ha hmove
        refine ih (hm.moveBack i _) hn hjn hjn (by rw [hs, Function.update_self]) ?_
        rw [hs, dist_self]
        omega

theorem eraseLoop_mono {m' : FlatHashMap Key Value} {fuel' : Nat} (h : eraseLoop home fuel m i j = some m')
    (hle : fuel ≤ fuel') : eraseLoop home fuel' m i j = some m' := by
  induction fuel generalizing m i j fuel' with
  | zero => cases h
  | succ fuel ih =>
    obtain ⟨f, rfl⟩ : ∃ f, fuel' = f + 1 := ⟨fuel' - 1, by omega⟩
    simp only [eraseLoop] at h ⊢
    split_ifs at h ⊢
    · exact h
    all_goals exact ih h (by omega)

/-- The rounds of a scan: never more than `n * (n - 1) + 1`, and one pass over the slots when there
is a free one. -/
theorem eraseAt_returns (hm : m.Layout) (hhome : ∀ k, home k < m.capacity) (hi : i < m.capacity)
    (ha : m.slots i = some (key, v)) :
    ∃ m', eraseLoop home (m.capacity * (m.capacity - 1) + 1) (m.openHole i) i i = some m' ∧
      eraseAt home m i = some m' ∧
      ((∃ e < m.capacity, m.slots e = none) → eraseLoop home m.capacity (m.openHole i) i i = some m') := by
  have hs := slots_openHole m i
  have hl : (m.openHole i).Layout := ⟨hm.cap, hm.mask⟩
  obtain ⟨n, hn⟩ : ∃ n, m.capacity = n + 1 := ⟨m.capacity - 1, by omega⟩
  have hused := used_erase hi ha
  have hle := used_le m.capacity m.slots
  have hdisp := displacement_le (T := Function.update m.slots i none) hhome
  have hrounds : displacement m.capacity home (m.openHole i).slots + m.capacity ≤
      m.capacity * (m.capacity - 1) + 1 := by
    have hmul : used m.capacity (Function.update m.slots i none) * (m.capacity - 1) ≤ n * (m.capacity - 1) :=
      Nat.mul_le_mul_right _ (by omega)
    rw [hs]
    rw [hn, Nat.add_sub_cancel] at hmul hdisp ⊢
    rw [Nat.succ_mul]
    omega
  obtain ⟨m', hr⟩ := eraseLoop_ends hhome hl rfl hi hi (by rw [hs, Function.update_self])
    (by rw [dist_self]; exact hrounds)
  refine ⟨m', hr, eraseLoop_mono hr ?_, fun ⟨e, he, hfree⟩ => ?_⟩
  · rw [hn, Nat.add_sub_cancel, Nat.mul_succ]
    omega
  · have hei : e ≠ i := by rintro rfl; rw [hfree] at ha; cases ha
    have hd := dist_lt hi he
    obtain ⟨m'', hr'⟩ := eraseLoop_returns hhome hl rfl hi hi he (by rw [hs, Function.update_of_ne hei, hfree]) hei
      hei.symm (Nat.le_of_lt hd)
    have h2 : 2 ≤ m.capacity := by omega
    have hone : m.capacity ≤ m.capacity * (m.capacity - 1) + 1 := by
      have := Nat.le_mul_of_pos_right m.capacity (show 0 < m.capacity - 1 by omega)
      omega
    rwa [Option.some.inj (hr.symm.trans (eraseLoop_mono hr' hone))]

theorem eraseAt_spec (hm : m.Layout) (hhome : ∀ k, home k < m.capacity) (hc : Chained m.capacity home m.slots)
    (hi : i < m.capacity) (ha : m.slots i = some (key, v)) :
    ∃ m', eraseAt home m i = some m' ∧ m'.Layout ∧ m'.capacity = m.capacity ∧ m'.mask = m.mask ∧
      m'.size = m.size - 1 ∧ Chained m.capacity home m'.slots ∧
      (∀ k w, Holds m.capacity m'.slots k w ↔ k ≠ key ∧ Holds m.capacity m.slots k w) ∧
      used m.capacity m'.slots + 1 = used m.capacity m.slots := by
  have hs := slots_openHole m i
  have hl : (m.openHole i).Layout := ⟨hm.cap, hm.mask⟩
  obtain ⟨m', -, hr, -⟩ := eraseAt_returns hm hhome hi ha
  have h := eraseLoop_correct (T := Function.update m.slots i none) (m := m.openHole i) hhome hi hi
    ⟨hl, rfl, by rw [hs]; exact hc.hole, by rw [hs]; exact fun _ _ => Iff.rfl, by rw [hs]⟩ hr
  refine ⟨m', hr, h.layout, h.capacity, h.mask, h.size, h.chained, fun k w => ?_, ?_⟩
  · rw [h.holds]; exact holds_erase hc hi ha
  · rw [h.used]; exact used_erase hi ha

/-- `erase_at` takes out one entry and leaves the others reachable, in a full table too. There the
scan may pass the slots many times. -/
theorem eraseAt_shifts (hm : m.Layout) (hhome : ∀ k, home k < m.capacity) (hc : Chained m.capacity home m.slots)
    (hi : i < m.capacity) (ho : m.state i = .occupied) :
    ∃ m', eraseAt home m i = some m' ∧
      eraseLoop home (m.capacity * (m.capacity - 1) + 1) (m.openHole i) i i = some m' ∧
      ((∃ e < m.capacity, m.state e = .empty) → eraseLoop home m.capacity (m.openHole i) i i = some m') ∧
      m'.Layout ∧ m'.capacity = m.capacity ∧ m'.mask = m.mask ∧ Chained m.capacity home m'.slots ∧
      (∀ k w, Holds m.capacity m'.slots k w ↔ k ≠ m.keys i ∧ Holds m.capacity m.slots k w) ∧
      m'.size = m.size - 1 ∧ used m.capacity m'.slots + 1 = used m.capacity m.slots := by
  have ha : m.slots i = some (m.keys i, m.values i) := slots_some.2 ⟨ho, rfl, rfl⟩
  obtain ⟨m', hr, he, hpass⟩ := eraseAt_returns hm hhome hi ha
  obtain ⟨m'', he', hl, hcap, hmask, hsize, hchain, hholds, hused⟩ := eraseAt_spec hm hhome hc hi ha
  obtain rfl : m' = m'' := Option.some.inj (he.symm.trans he')
  refine ⟨m', he, hr, ?_, hl, hcap, hmask, hchain, hholds, hsize, hused⟩
  rintro ⟨e, hlt, hfree⟩
  exact hpass ⟨e, hlt, slots_none.2 hfree⟩

/-- A full table of four slots, for keys that belong in the slot after theirs. -/
def fullTable : FlatHashMap Nat Nat :=
  { keys := id, values := id, state := fun _ => .occupied, capacity := 4, mask := 3, size := 4 }

theorem fullTable_layout : fullTable.Layout := ⟨⟨2, rfl⟩, rfl⟩

theorem fullTable_chained : Chained fullTable.capacity (fun k => (k + 1) % 4) fullTable.slots := by
  have hfull : ∀ i, fullTable.slots i = some (i, i) := fun i => slots_some.2 ⟨rfl, rfl, rfl⟩
  constructor
  · intro i j a b _ _ ha hb hab
    rw [hfull] at ha hb
    cases ha; cases hb
    exact hab
  · intro j a _ _ t _
    rw [hfull]
    simp

theorem eraseAt_shifts_full : ∃ m', eraseAt (fun k => (k + 1) % 4) fullTable 0 = some m' ∧ m'.size = 3 := by
  obtain ⟨m', h, -, -, -, -, -, -, -, hsize, -⟩ := eraseAt_shifts fullTable_layout
    (fun k => Nat.mod_lt _ (by decide)) fullTable_chained (show 0 < fullTable.capacity by decide) rfl
  exact ⟨m', h, hsize⟩

/-- Every entry slides back by three slots, one entry a pass: the scan goes on after one pass, and
after three. -/
theorem fullTable_passes : fullTable.Layout ∧ (∀ k, (k + 1) % 4 < fullTable.capacity) ∧
    Chained fullTable.capacity (fun k => (k + 1) % 4) fullTable.slots ∧
    fullTable.size = used fullTable.capacity fullTable.slots ∧ fullTable.state 0 = .occupied ∧
    eraseLoop (fun k => (k + 1) % 4) fullTable.capacity (fullTable.openHole 0) 0 0 = none ∧
    eraseLoop (fun k => (k + 1) % 4) (3 * fullTable.capacity) (fullTable.openHole 0) 0 0 = none :=
  ⟨fullTable_layout, fun k => Nat.mod_lt _ (by decide), fullTable_chained, by decide, rfl, rfl, rfl⟩

end Slots

/-! ## The map -/

section Map

variable {Value : Type}

/-- A table as the constructor makes it and every call leaves it: below 7/8 of its slots in use. -/
structure WF (m : FlatHashMap UInt64 Value) : Prop where
  layout : m.Layout
  chained : Chained m.capacity m.home m.slots
  size : m.size = used m.capacity m.slots
  load : m.size * 8 < m.capacity * 7

/-- The value `find` points to. -/
def lookup (m : FlatHashMap UInt64 Value) (key : UInt64) : Option Value := (m.find key).join.map m.values

variable {m : FlatHashMap UInt64 Value} {key : UInt64} {v : Value}

theorem Layout.home_lt (h : m.Layout) (key : UInt64) : m.home key < m.capacity := by
  unfold home
  rw [h.and_mask]
  exact Nat.mod_lt _ h.pos

theorem home_congr {m' : FlatHashMap UInt64 Value} (h : m'.mask = m.mask) : m'.home = m.home := by
  funext k; unfold home; rw [h]

theorem WF.exists_free (h : m.WF) : ∃ e < m.capacity, m.slots e = none :=
  Probing.exists_free (by have := h.load; have := h.size; omega)

/-- The probe run of `find`, `insert` and `erase` for one key. -/
theorem WF.probe (h : m.WF) (key : UInt64) :
    ∃ t < m.capacity, Clear m.capacity m.slots (m.home key) key t ∧
      (m.slots (add m.capacity (m.home key) t) = none ∨
        ∃ v, m.slots (add m.capacity (m.home key) t) = some (key, v)) :=
  probe_stops (h.layout.home_lt key) h.exists_free key

/-- `find` returns the slot of the key, or null when the key is absent. -/
theorem WF.find_cases (h : m.WF) (key : UInt64) :
    (∃ i v, i < m.capacity ∧ m.slots i = some (key, v) ∧
      m.findLoop key (m.capacity + 1) (m.home key) = some (some i)) ∨
    ((∀ v, ¬ Holds m.capacity m.slots key v) ∧ m.findLoop key (m.capacity + 1) (m.home key) = some none) := by
  have hh := h.layout.home_lt key
  obtain ⟨t, ht, hc, hs | ⟨v, hs⟩⟩ := h.probe key
  · exact .inr ⟨h.chained.absent h.layout.home_lt hc hs,
      (findLoop_stop (v := m.values 0) h.layout ht (by omega) hh hc).1 hs⟩
  · exact .inl ⟨_, v, add_lt hh (by omega), hs, (findLoop_stop h.layout ht (by omega) hh hc).2 hs⟩

theorem WF.find_lookup (h : m.WF) (key : UInt64) : ∃ r, m.find key = some r ∧ r.map m.values = m.lookup key := by
  rcases h.find_cases key with ⟨i, v, -, -, hf⟩ | ⟨-, hf⟩
  · exact ⟨some i, hf, by unfold lookup find; rw [hf]; rfl⟩
  · exact ⟨none, hf, by unfold lookup find; rw [hf]; rfl⟩

theorem WF.lookup_eq_some (h : m.WF) : m.lookup key = some v ↔ Holds m.capacity m.slots key v := by
  unfold lookup find
  rcases h.find_cases key with ⟨i, w, hi, hs, hf⟩ | ⟨hn, hf⟩
  · rw [hf]
    have hw : Holds m.capacity m.slots key w := ⟨i, hi, hs⟩
    have hv := (slots_some.1 hs).2.2
    simp only [Option.join_some, Option.map_some, Option.some.injEq, hv]
    exact ⟨fun e => e ▸ hw, fun h' => Holds.unique h.chained hw h'⟩
  · rw [hf]
    simp only [Option.join_some, Option.map_none, reduceCtorEq, false_iff]
    exact hn v

theorem WF.lookup_eq_none (h : m.WF) : m.lookup key = none ↔ ∀ v, ¬ Holds m.capacity m.slots key v := by
  constructor
  · intro hn v hv
    rw [h.lookup_eq_some.2 hv] at hn; cases hn
  · intro hn
    rcases hl : m.lookup key with _ | v
    · rfl
    · exact absurd (h.lookup_eq_some.1 hl) (hn v)

theorem WF.contains_eq (h : m.WF) (key : UInt64) : m.contains key = some (m.lookup key).isSome := by
  obtain ⟨r, hr, hl⟩ := h.find_lookup key
  rw [contains, hr, ← hl]
  cases r <;> rfl

/-- Two maps with the same entries, up to a change at one key, as functions. -/
theorem lookup_ext {m' : FlatHashMap UInt64 Value} (h : m'.WF) {f : UInt64 → Option Value}
    (hf : ∀ k v, Holds m'.capacity m'.slots k v ↔ f k = some v) : m'.lookup = f := by
  funext k
  apply Option.ext
  intro v
  rw [← hf k v]
  exact h.lookup_eq_some

theorem WF.erase_spec (h : m.WF) (key : UInt64) :
    ∃ m', m.erase key = some ((m.lookup key).isSome, m') ∧ m'.WF ∧
      m'.lookup = Function.update m.lookup key none ∧ m'.capacity = m.capacity ∧
      m'.size = if (m.lookup key).isSome then m.size - 1 else m.size := by
  rcases h.find_cases key with ⟨i, v, hi, hs, hf⟩ | ⟨hn, hf⟩
  · have hl : m.lookup key = some v := h.lookup_eq_some.2 ⟨i, hi, hs⟩
    obtain ⟨m', hr, hlay, hcap, hmask, hsz, hch, hho, hus⟩ :=
      eraseAt_spec h.layout h.layout.home_lt h.chained hi hs
    have hwf : m'.WF := by
      refine ⟨hlay, ?_, ?_, ?_⟩
      · rw [hcap, home_congr hmask]; exact hch
      · rw [hsz, hcap, h.size]; omega
      · rw [hsz, hcap]; have := h.load; omega
    refine ⟨m', by simp only [erase, hf, hr, hl, Option.bind_some, Option.map_some, Option.isSome_some], hwf, ?_,
      hcap, by rw [hl, hsz]; rfl⟩
    refine lookup_ext hwf fun k w => ?_
    rw [hcap, hho]
    by_cases hk : k = key
    · subst hk; simp
    · rw [Function.update_of_ne hk, h.lookup_eq_some]
      exact ⟨fun h => h.2, fun h => ⟨hk, h⟩⟩
  · have hl := h.lookup_eq_none.2 hn
    exact ⟨m, by simp only [erase, hf, hl, Option.bind_some, Option.isSome_none], h,
      by rw [← hl, Function.update_eq_self], rfl, by rw [hl]; rfl⟩

/-- `erase` moves entries within its slots. -/
theorem erase_capacity {m' : FlatHashMap UInt64 Value} {found : Bool} (h : m.erase key = some (found, m')) :
    m'.capacity = m.capacity := by
  obtain ⟨r, -, hr⟩ := Option.bind_eq_some_iff.1 h
  cases r with
  | none =>
    cases hr
    rfl
  | some i =>
    obtain ⟨_, he, hm⟩ := Option.map_eq_some_iff.1 hr
    cases hm
    exact eraseLoop_capacity (m := m.openHole i) he

/-! ## Insertion and rehashing -/

/-- The write of `insert`, when there is room for one more entry. -/
theorem WF.insertLoop_spec (h : m.WF) (hroom : (m.size + 1) * 8 < m.capacity * 7) (key : UInt64) (v : Value) :
    ∃ m', m.insertLoop key v (m.capacity + 1) (m.home key) = some m' ∧ m'.WF ∧
      m'.lookup = Function.update m.lookup key (some v) ∧ m'.capacity = m.capacity ∧
      m'.size = if (m.lookup key).isSome then m.size else m.size + 1 := by
  have hh := h.layout.home_lt key
  obtain ⟨t, ht, hc, hs⟩ := h.probe key
  have hi : add m.capacity (m.home key) t < m.capacity := add_lt hh (by omega)
  have hf : t < m.capacity + 1 := by omega
  rcases hs with hs | ⟨w, hs⟩
  · obtain ⟨m', hr, hsl, hcap, hmask, hsz⟩ := (insertLoop_stop h.layout ht hf hh hc v v).1 hs
    have habs := h.chained.absent h.layout.home_lt hc hs
    have hwf : m'.WF := by
      refine ⟨⟨hcap ▸ h.layout.cap, by rw [hmask, hcap]; exact h.layout.mask⟩, ?_, ?_, by rw [hsz, hcap]; exact hroom⟩
      · rw [hcap, home_congr hmask, hsl]
        exact h.chained.insert h.layout.home_lt ht hc hs
      · rw [hsz, hcap, hsl, used_insert hi hs, h.size]
    refine ⟨m', hr, hwf, ?_, hcap, by rw [h.lookup_eq_none.2 habs, hsz]; rfl⟩
    refine lookup_ext hwf fun k x => ?_
    rw [hcap, hsl, holds_insert hi hs habs]
    by_cases hk : k = key
    · subst hk; simp [eq_comm]
    · simp [hk, h.lookup_eq_some]
  · obtain ⟨m', hr, hsl, hcap, hmask, hsz⟩ := (insertLoop_stop h.layout ht hf hh hc v w).2 hs
    have hl : m.lookup key = some w := h.lookup_eq_some.2 ⟨_, hi, hs⟩
    have hwf : m'.WF := by
      refine ⟨⟨hcap ▸ h.layout.cap, by rw [hmask, hcap]; exact h.layout.mask⟩, ?_, ?_,
        by rw [hsz, hcap]; exact h.load⟩
      · rw [hcap, home_congr hmask, hsl]
        exact h.chained.set hs
      · rw [hsz, hcap, hsl, used_set hi hs, h.size]
    refine ⟨m', hr, hwf, ?_, hcap, by rw [hl, hsz]; rfl⟩
    refine lookup_ext hwf fun k x => ?_
    rw [hcap, hsl, holds_set h.chained hi hs]
    by_cases hk : k = key
    · subst hk; simp [eq_comm]
    · simp [hk, h.lookup_eq_some]

/-- In a table of at most `2^60` slots, more than any address space holds, the products of
`insert` stay within a word. -/
theorem WF.insert_no_wrap (h : m.WF) (hcap : m.capacity ≤ 2 ^ 60) :
    (m.size + 1) * 8 < 2 ^ 64 ∧ m.capacity * 7 < 2 ^ 64 ∧ m.capacity * 2 < 2 ^ 64 := by
  have := h.load
  omega

variable [Inhabited Value]

theorem insertN_room (hroom : (m.size + 1) * 8 < m.capacity * 7) (depth : Nat) (key : UInt64) (v : Value) :
    insertN (depth + 1) m key v = m.insertLoop key v (m.capacity + 1) (m.home key) := by
  simp only [insertN, if_neg (show ¬ (m.size + 1) * 8 ≥ m.capacity * 7 by omega), Option.bind_some]

theorem insertN_grow (hroom : ¬ (m.size + 1) * 8 < m.capacity * 7) (depth : Nat) (key : UInt64) (v : Value) :
    insertN (depth + 1) m key v = (rehashWith (insertN depth) m (m.capacity * 2)).bind
      fun m => m.insertLoop key v (m.capacity + 1) (m.home key) := by
  simp only [insertN, if_pos (show (m.size + 1) * 8 ≥ m.capacity * 7 by omega)]

theorem cleared_wf {n : Nat} (h : ∃ k, 1 ≤ k ∧ n = 2 ^ k) : (cleared n : FlatHashMap UInt64 Value).WF := by
  have hs : (cleared n : FlatHashMap UInt64 Value).slots = fun _ => none := by
    funext i; exact slots_none.2 rfl
  obtain ⟨k, hk, rfl⟩ := h
  have := Nat.two_pow_pos k
  refine ⟨⟨⟨k, rfl⟩, rfl⟩, by rw [hs]; exact chained_empty _ _, by rw [hs, used_empty]; rfl, ?_⟩
  simp only [cleared]
  omega

theorem cleared_lookup {n : Nat} (h : ∃ k, 1 ≤ k ∧ n = 2 ^ k) :
    (cleared n : FlatHashMap UInt64 Value).lookup = fun _ => none := by
  refine lookup_ext (cleared_wf h) fun k v => ?_
  simp only [reduceCtorEq, iff_false]
  rintro ⟨i, -, hi⟩
  rw [show (cleared n : FlatHashMap UInt64 Value).slots i = none from slots_none.2 rfl] at hi
  cases hi

/-- The table after the first `s` slots of `m` have been carried over. -/
structure Carried (m acc : FlatHashMap UInt64 Value) (newCap s : Nat) : Prop where
  wf : acc.WF
  capacity : acc.capacity = newCap
  lookup : ∀ k v, acc.lookup k = some v ↔ ∃ i < s, m.slots i = some (k, v)
  size : acc.size = used s m.slots

/-- The loop of `rehash` over the first `s` slots. -/
theorem rehash_fold (h : m.WF) {newCap : Nat} (hcap : ∃ k, 1 ≤ k ∧ newCap = 2 ^ k)
    (hroom : m.size * 8 < newCap * 7) (depth : Nat) :
    ∀ s ≤ m.capacity, ∃ acc, (List.range s).foldlM
      (fun acc i => if m.state i = .occupied then insertN (depth + 1) acc (m.keys i) (m.values i) else some acc)
      (cleared newCap) = some acc ∧ Carried m acc newCap s
  | 0, _ => by
    refine ⟨cleared newCap, rfl, cleared_wf hcap, rfl, ?_, by simp [used, cleared]⟩
    intro k v
    simp [cleared_lookup hcap]
  | s + 1, hs => by
    obtain ⟨acc, hacc, hc⟩ := rehash_fold h hcap hroom depth s (by omega)
    rw [List.range_succ, List.foldlM_append, hacc]
    simp only [Option.bind_eq_bind, Option.bind_some, List.foldlM_cons, List.foldlM_nil]
    rcases hm : m.slots s with _ | ⟨k, v⟩
    · have he : m.state s ≠ .occupied := by rw [slots_none.1 hm]; simp
      refine ⟨acc, by rw [if_neg he]; rfl, hc.wf, hc.capacity, fun k v => ?_, by rw [hc.size, used_succ, hm]; rfl⟩
      rw [hc.lookup]
      constructor
      · rintro ⟨i, hi, hv⟩; exact ⟨i, by omega, hv⟩
      · rintro ⟨i, hi, hv⟩
        refine ⟨i, ?_, hv⟩
        rcases Nat.lt_or_eq_of_le (Nat.le_of_lt_succ hi) with h | rfl
        · exact h
        · rw [hm] at hv; cases hv
    · obtain ⟨ho, hk, hv⟩ := slots_some.1 hm
      -- the key has not been carried over yet, and the new table has room for all of `m`
      have hnew : acc.lookup k = none := by
        rcases hl : acc.lookup k with _ | w
        · rfl
        · obtain ⟨i, hi, hw⟩ := (hc.lookup k w).1 hl
          have := h.chained.uniq i s _ _ (by omega) (by omega) hw hm rfl
          omega
      have hlt : acc.size + 1 ≤ m.size := by
        have h1 : used (s + 1) m.slots ≤ used m.capacity m.slots := used_mono hs
        rw [used_succ, hm, Option.isSome_some, if_pos rfl] at h1
        rw [hc.size, h.size]
        exact h1
      obtain ⟨acc', hr, hwf, hlk, hcap', hsz⟩ := hc.wf.insertLoop_spec (by rw [hc.capacity]; omega) k v
      refine ⟨acc', ?_, hwf, hcap'.trans hc.capacity, fun k' v' => ?_, ?_⟩
      · rw [if_pos ho, hk, hv, insertN_room (by rw [hc.capacity]; omega), hr]; rfl
      · rw [hlk]
        by_cases hk' : k' = k
        · subst hk'
          rw [Function.update_self]
          constructor
          · intro e; cases e; exact ⟨s, by omega, hm⟩
          · rintro ⟨i, hi, hv'⟩
            obtain rfl := h.chained.uniq i s _ _ (by omega) (by omega) hv' hm rfl
            rw [hm] at hv'; cases hv'; rfl
        · rw [Function.update_of_ne hk', hc.lookup]
          constructor
          · rintro ⟨i, hi, hv'⟩; exact ⟨i, by omega, hv'⟩
          · rintro ⟨i, hi, hv'⟩
            refine ⟨i, ?_, hv'⟩
            rcases Nat.lt_or_eq_of_le (Nat.le_of_lt_succ hi) with h | rfl
            · exact h
            · rw [hm] at hv'; cases hv'; exact absurd rfl hk'
      · rw [hsz, hnew, hc.size, used_succ, hm]; rfl

/-- A rehash into enough room keeps the map. -/
theorem WF.rehashWith_spec (h : m.WF) {newCap : Nat} (hcap : ∃ k, 1 ≤ k ∧ newCap = 2 ^ k)
    (hroom : m.size * 8 < newCap * 7) (depth : Nat) :
    ∃ m', rehashWith (insertN (depth + 1)) m newCap = some m' ∧ m'.WF ∧ m'.lookup = m.lookup ∧
      m'.capacity = newCap ∧ m'.size = m.size := by
  obtain ⟨m', hr, hc⟩ := rehash_fold h hcap hroom depth m.capacity (Nat.le_refl _)
  refine ⟨m', hr, hc.wf, ?_, hc.capacity, by rw [hc.size, h.size]⟩
  funext k
  apply Option.ext
  intro v
  rw [hc.lookup, h.lookup_eq_some]; rfl

/-- `insert` changes the map at its key only, and the size when the key is new; a rehash doubles the capacity. -/
theorem WF.insert_spec (h : m.WF) (key : UInt64) (v : Value) :
    ∃ m', m.insert key v = some m' ∧ m'.WF ∧ m'.lookup = Function.update m.lookup key (some v) ∧
      m'.size = (if (m.lookup key).isSome then m.size else m.size + 1) ∧
      m'.capacity = (if (m.size + 1) * 8 < m.capacity * 7 then m.capacity else m.capacity * 2) := by
  by_cases hroom : (m.size + 1) * 8 < m.capacity * 7
  · obtain ⟨m', hr, hwf, hl, hcap, hsz⟩ := h.insertLoop_spec hroom key v
    exact ⟨m', by unfold insert; rw [insertN_room hroom, hr], hwf, hl, hsz, by rw [if_pos hroom, hcap]⟩
  · have hcap : ∃ k, 1 ≤ k ∧ m.capacity * 2 = 2 ^ k := by
      obtain ⟨k, hc⟩ := h.layout.cap
      exact ⟨k + 1, by omega, by rw [hc, Nat.pow_succ]⟩
    have hpos := h.layout.pos
    have hload := h.load
    have hlt : m.size < m.capacity := by omega
    obtain ⟨m₁, hr₁, hwf₁, hl₁, hcap₁, hsz₁⟩ := h.rehashWith_spec hcap (by omega) 62
    obtain ⟨m', hr, hwf, hl, hcap', hsz⟩ := hwf₁.insertLoop_spec (by rw [hsz₁, hcap₁]; omega) key v
    refine ⟨m', ?_, hwf, by rw [hl, hl₁], by rw [hsz, hl₁, hsz₁], by rw [if_neg hroom, hcap', hcap₁]⟩
    exact (insertN_grow hroom 63 key v).trans (by rw [hr₁, Option.bind_some, hr])

/-- The slots that `reserve` asks for keep `n` entries below 7/8 of them, when `n * 8` does not wrap. -/
theorem reserve_need (n : UInt64) : (n * 8 / 7 + 1).toNat ≤ 2 ^ 63 ∧
    (n.toNat * 8 < 2 ^ 64 → n.toNat * 8 < (n * 8 / 7 + 1).toNat * 7) := by
  have hneed : (n * 8 / 7 + 1).toNat = n.toNat * 8 % 2 ^ 64 / 7 + 1 := by
    rw [UInt64.toNat_add, UInt64.toNat_div, UInt64.toNat_mul]
    simp only [UInt64.reduceToNat]
    omega
  rw [hneed]
  constructor
  · omega
  · intro hn
    rw [Nat.mod_eq_of_lt hn]
    omega

/-- `reserve` keeps the map, whatever its argument, and makes room for as many entries. -/
theorem WF.reserve_spec (h : m.WF) (n : UInt64) :
    ∃ m', m.reserve n = some m' ∧ m'.WF ∧ m'.lookup = m.lookup ∧ m'.size = m.size ∧
      (n.toNat * 8 < 2 ^ 64 → n.toNat * 8 < m'.capacity * 7) := by
  obtain ⟨hle, hroom⟩ := reserve_need n
  obtain ⟨k, hk, -, hp, hge⟩ := roundUpPow2_spec hle
  unfold reserve
  by_cases hgt : (roundUpPow2 (n * 8 / 7 + 1)).toNat > m.capacity
  · have hload := h.load
    obtain ⟨m', hr, hwf, hl, hcap, hsz⟩ := h.rehashWith_spec ⟨k, hk, hp⟩ (by omega) 63
    simp only [if_pos hgt]
    refine ⟨m', hr, hwf, hl, hsz, fun hn => ?_⟩
    have := hroom hn
    omega
  · simp only [if_neg hgt]
    refine ⟨m, rfl, h, rfl, rfl, fun hn => ?_⟩
    have := hroom hn
    omega

/-- The constructor makes an empty map, for every capacity that can be rounded up in a word. -/
theorem ofCapacity_spec {n : UInt64} (hn : n.toNat ≤ 2 ^ 63) :
    ∃ m : FlatHashMap UInt64 Value, ofCapacity n = some m ∧ m.WF ∧ m.lookup = (fun _ => none) ∧ m.size = 0 := by
  have hle : (if n < 8 then 8 else n).toNat ≤ 2 ^ 63 := by
    split
    · decide
    · exact hn
  obtain ⟨k, hk, -, hp, -⟩ := roundUpPow2_spec hle
  exact ⟨_, rfl, cleared_wf ⟨k, hk, hp⟩, cleared_lookup ⟨k, hk, hp⟩, rfl⟩

end Map

end Obe.FlatHashMap
