/-
What lookups cost, and that the past of a table is no part of it. Deletion shifts entries back and
leaves no marks, so after any calls the slots in use, the slots a lookup that misses looks at, and
the slots that the lookups of all keys look at are those of any other table of the same keys.
-/
import OrderBookEngine.Index.FiniteMap
import OrderBookEngine.Lib.ProbeOrder

namespace Obe.FlatHashMap

open Probing

variable {Value : Type} {m m' : FlatHashMap UInt64 Value} {key : UInt64} {v : Value}

/-! ## What a lookup costs -/

/-- The slots that the loop of `find` looks at. -/
def probeLoop (m : FlatHashMap UInt64 Value) (key : UInt64) : Nat → Nat → Nat
  | 0, _ => 0
  | fuel + 1, i =>
    if m.state i ≠ .empty then
      if m.state i = .occupied ∧ m.keys i = key then 1 else probeLoop m key fuel ((i + 1) &&& m.mask) + 1
    else 1

def probes (m : FlatHashMap UInt64 Value) (key : UInt64) : Nat := m.probeLoop key (m.capacity + 1) (m.home key)

theorem probeLoop_stop {t fuel i : Nat} (h : m.Layout) (ht : t < m.capacity) (hf : t < fuel) (hi : i < m.capacity)
    (hc : Clear m.capacity m.slots i key t)
    (hstop : m.slots (add m.capacity i t) = none ∨ ∃ v, m.slots (add m.capacity i t) = some (key, v)) :
    m.probeLoop key fuel i = t + 1 := by
  induction t generalizing i fuel with
  | zero =>
    obtain ⟨f, rfl⟩ : ∃ f, fuel = f + 1 := ⟨fuel - 1, by omega⟩
    rw [add_zero hi] at hstop
    rcases hstop with hn | ⟨v, hs⟩
    · simp [probeLoop, slots_none.1 hn]
    · obtain ⟨ho, hk, -⟩ := slots_some.1 hs
      simp [probeLoop, ho, hk]
  | succ t ih =>
    obtain ⟨f, rfl⟩ : ∃ f, fuel = f + 1 := ⟨fuel - 1, by omega⟩
    obtain ⟨⟨a, ha, hne⟩, hc'⟩ := hc.tail hi (by omega)
    obtain ⟨ho, hk⟩ := state_of_slots ha
    have hstep : m.probeLoop key (f + 1) i = m.probeLoop key f (add m.capacity i 1) + 1 := by
      simp [probeLoop, ho, hk, hne, h.next hi]
    rw [add_succ hi (by omega)] at hstop
    rw [hstep, ih (by omega) (by omega) (add_lt hi (by omega)) hc' hstop]

/-- A lookup looks at the slots from the home of the key to its slot. -/
theorem WF.probes_present (h : m.WF) {i : Nat} (hi : i < m.capacity) (hs : m.slots i = some (key, v)) :
    m.probes key = dist m.capacity (m.home key) i + 1 := by
  have hh := h.layout.home_lt key
  obtain ⟨t, ht, hc, hstop⟩ := h.probe key
  have hprobes : m.probes key = t + 1 := probeLoop_stop h.layout ht (by omega) hh hc hstop
  rcases hstop with hn | ⟨w, hw⟩
  · exact absurd ⟨i, hi, hs⟩ (h.chained.absent h.layout.home_lt hc hn v)
  · obtain rfl := h.chained.uniq _ i _ _ (add_lt hh (by omega)) hi hw hs rfl
    rw [hprobes, dist_add hh ht]

/-- A lookup that misses looks at the slots in use from the home of the key, and one more. -/
theorem WF.probes_absent (h : m.WF) (habsent : ∀ v, ¬ Holds m.capacity m.slots key v) :
    ∃ t < m.capacity, m.probes key = t + 1 ∧ m.slots (add m.capacity (m.home key) t) = none ∧
      ∀ s < t, add m.capacity (m.home key) s ∈ taken m.capacity m.slots := by
  have hh := h.layout.home_lt key
  obtain ⟨t, ht, hc, hstop⟩ := h.probe key
  refine ⟨t, ht, probeLoop_stop h.layout ht (by omega) hh hc hstop, ?_, fun s hs => ?_⟩
  · rcases hstop with hn | ⟨w, hw⟩
    · exact hn
    · exact absurd ⟨_, add_lt hh (by omega), hw⟩ (habsent w)
  · obtain ⟨a, ha, -⟩ := hc s hs
    exact mem_taken.2 ⟨add_lt hh (by omega), a, ha⟩

/-! ## Tables of the same keys -/

variable {f f' : Entries Value}

theorem Represents.has_iff (h : m.Represents f) (key : UInt64) : Has m.capacity m.slots key ↔ key ∈ f.keys := by
  rw [mem_keys_iff, ← h.lookup, Option.isSome_iff_exists]
  exact exists_congr fun v => h.wf.lookup_eq_some.symm

theorem home_eq (h : m.WF) (h' : m'.WF) (hcap : m.capacity = m'.capacity) : m'.home = m.home :=
  home_congr (by rw [h.layout.mask, h'.layout.mask, hcap])

/-- More keys take more slots. -/
theorem Represents.taken_mono (h : m.Represents f) (h' : m'.Represents f') (hcap : m.capacity = m'.capacity)
    (hkeys : f.keys ⊆ f'.keys) : taken m.capacity m.slots ⊆ taken m'.capacity m'.slots := by
  have hchained := h'.wf.chained
  have hhas := h'.has_iff
  rw [home_eq h.wf h'.wf hcap, ← hcap] at hchained
  rw [← hcap] at hhas ⊢
  exact h.wf.chained.taken_mono hchained h.wf.layout.home_lt h.wf.exists_free fun k hk =>
    (hhas k).2 (hkeys ((h.has_iff k).1 hk))

/-- A lookup that misses in both tables looks at no more slots in the one of fewer keys. -/
theorem Represents.probes_mono (h : m.Represents f) (h' : m'.Represents f') (hcap : m.capacity = m'.capacity)
    (hkeys : f.keys ⊆ f'.keys) (hkey : key ∉ f'.keys) : m.probes key ≤ m'.probes key := by
  have hmiss : ∀ v, ¬ Holds m.capacity m.slots key v := fun v hv => hkey (hkeys ((h.has_iff key).1 ⟨v, hv⟩))
  have hmiss' : ∀ v, ¬ Holds m'.capacity m'.slots key v := fun v hv => hkey ((h'.has_iff key).1 ⟨v, hv⟩)
  obtain ⟨t, ht, hprobes, -, hall⟩ := h.wf.probes_absent hmiss
  obtain ⟨t', -, hprobes', hfree, -⟩ := h'.wf.probes_absent hmiss'
  rw [hprobes, hprobes']
  by_contra hlt
  -- the slot at which the other lookup stops would be taken
  have hmem := h.taken_mono h' hcap hkeys (hall t' (by omega))
  rw [hcap, ← home_eq h.wf h'.wf hcap] at hmem
  obtain ⟨-, a, ha⟩ := mem_taken.1 hmem
  rw [hfree] at ha
  cases ha

/-- The lookups of all keys look at the slots between the entries and their homes, and at the entries. -/
theorem Represents.sum_probes (h : m.Represents f) :
    f.keys.sum m.probes = displacement m.capacity m.home m.slots + f.keys.card := by
  have hkeys : f.keys = (taken m.capacity m.slots).image m.keys := by
    ext key
    rw [← h.has_iff, Finset.mem_image]
    constructor
    · rintro ⟨v, i, hi, hs⟩
      exact ⟨i, mem_taken.2 ⟨hi, _, hs⟩, (slots_some.1 hs).2.1⟩
    · rintro ⟨i, hi, rfl⟩
      obtain ⟨hin, a, ha⟩ := mem_taken.1 hi
      rw [(state_of_slots ha).2]
      exact ⟨a.2, i, hin, ha⟩
  have hinj : Set.InjOn m.keys (taken m.capacity m.slots : Finset Nat) := by
    intro i hi j hj he
    obtain ⟨hin, a, ha⟩ := mem_taken.1 hi
    obtain ⟨hjn, b, hb⟩ := mem_taken.1 hj
    rw [(state_of_slots ha).2, (state_of_slots hb).2] at he
    exact h.wf.chained.uniq i j a b hin hjn ha hb he
  have hcard : f.keys.card = (taken m.capacity m.slots).card := by rw [hkeys, Finset.card_image_of_injOn hinj]
  have hzero : ∀ i ∈ Finset.range m.capacity, apart m.capacity m.home i (m.slots i) ≠ 0 →
      (m.slots i).isSome = true := by
    intro i _ hi
    cases hs : m.slots i with
    | none => rw [hs] at hi; exact absurd rfl hi
    | some a => rfl
  have hway : displacement m.capacity m.home m.slots =
      (taken m.capacity m.slots).sum fun i => apart m.capacity m.home i (m.slots i) :=
    (Finset.sum_filter_of_ne hzero).symm
  rw [hcard, hway, hkeys, Finset.sum_image hinj, Finset.card_eq_sum_ones, ← Finset.sum_add_distrib]
  refine Finset.sum_congr rfl fun i hi => ?_
  obtain ⟨hin, a, ha⟩ := mem_taken.1 hi
  rw [(state_of_slots ha).2, h.wf.probes_present (v := a.2) hin ha, ha, apart, Option.elim_some]

theorem Represents.displacement_eq (h : m.Represents f) (h' : m'.Represents f') (hcap : m.capacity = m'.capacity)
    (hkeys : f.keys = f'.keys) :
    displacement m.capacity m.home m.slots = displacement m'.capacity m'.home m'.slots := by
  have hchained := h'.wf.chained
  have hhas := h'.has_iff
  have hfree := h'.wf.exists_free
  rw [home_eq h.wf h'.wf hcap, ← hcap] at hchained ⊢
  rw [← hcap] at hhas hfree
  exact h.wf.chained.displacement_eq hchained h.wf.layout.home_lt h.wf.exists_free hfree fun k => by
    rw [h.has_iff, hhas, hkeys]

/-- The constructor makes a table without entries, and calls keep it in step with a finite map. -/
theorem run_represents {c : UInt64} (h : c.toNat ≤ 2 ^ 63) [Inhabited Value] (calls : List (Call Value)) :
    ∃ m rets, ((ofCapacity c).bind fun m₀ => Machine.run call m₀ calls) = some (m, rets) ∧
      m.Represents (Machine.runT callMap ∅ calls).1 := by
  obtain ⟨m₀, hr, hwf, hl, hs⟩ := @ofCapacity_spec Value _ _ h
  have h₀ : Represents m₀ (∅ : Entries Value) :=
    ⟨hwf, fun k => by rw [hl, Finmap.lookup_empty], by rw [hs, Finmap.keys_empty]; rfl⟩
  obtain ⟨m, hm, hR⟩ := call_refines.run h₀ calls
  exact ⟨m, _, by rw [hr]; exact hm, hR⟩

/-- **The past of a table costs nothing.** Two tables of one capacity, however they came to it, that hold
the same keys use the same slots; a lookup that misses looks at as many slots in both, and the lookups of
all keys do so taken together. With fewer keys, a lookup that misses never looks at more. -/
theorem history_free {c c' : UInt64} (h : c.toNat ≤ 2 ^ 63) (h' : c'.toNat ≤ 2 ^ 63)
    [Inhabited Value] (calls calls' : List (Call Value)) :
    ∃ m rets m' rets', ((ofCapacity c).bind fun m₀ => Machine.run call m₀ calls) = some (m, rets) ∧
      ((ofCapacity c').bind fun m₀ => Machine.run call m₀ calls') = some (m', rets') ∧
      (m.capacity = m'.capacity →
        let keys := (Machine.runT callMap ∅ calls).1.keys
        let keys' := (Machine.runT callMap ∅ calls').1.keys
        (keys = keys' → (∀ i < m.capacity, m.state i = m'.state i) ∧
          (∀ key, key ∉ keys → m.probes key = m'.probes key) ∧ keys.sum m.probes = keys.sum m'.probes) ∧
        (keys ⊆ keys' → ∀ key, key ∉ keys' → m.probes key ≤ m'.probes key)) := by
  obtain ⟨m, rets, hrun, hR⟩ := run_represents h calls
  obtain ⟨m', rets', hrun', hR'⟩ := run_represents h' calls'
  refine ⟨m, rets, m', rets', hrun, hrun', fun hcap => ⟨fun hkeys => ⟨fun i hi => ?_, fun key hkey => ?_, ?_⟩,
    fun hkeys key hkey => hR.probes_mono hR' hcap hkeys hkey⟩⟩
  · -- a slot is taken in both or in neither
    have hmem : i ∈ taken m.capacity m.slots ↔ i ∈ taken m'.capacity m'.slots :=
      ⟨fun h => hR.taken_mono hR' hcap hkeys.subset h, fun h => hR'.taken_mono hR hcap.symm hkeys.symm.subset h⟩
    have hstate : ∀ q : FlatHashMap UInt64 Value, i < q.capacity →
        (i ∈ taken q.capacity q.slots ↔ q.state i = .occupied) := by
      intro q hq
      rw [mem_taken]
      constructor
      · rintro ⟨-, a, ha⟩
        exact (state_of_slots ha).1
      · intro ho
        exact ⟨hq, (q.keys i, q.values i), slots_some.2 ⟨ho, rfl, rfl⟩⟩
    rw [hstate m hi, hstate m' (hcap ▸ hi)] at hmem
    cases hs : m.state i <;> cases hs' : m'.state i <;> simp_all
  · refine Nat.le_antisymm (hR.probes_mono hR' hcap hkeys.subset (hkeys ▸ hkey)) ?_
    exact hR'.probes_mono hR hcap.symm hkeys.symm.subset hkey
  · have hsum := hR.sum_probes
    have hsum' := hR'.sum_probes
    rw [← hkeys] at hsum'
    rw [hsum, hsum', hR.displacement_eq hR' hcap hkeys]

/-- A key that came and went, beside one that never came. -/
theorem history_free_churn :
    ∃ m rets m' rets', ((ofCapacity 8).bind fun m₀ => Machine.run call m₀
        [.insert 1 (10 : Nat), .insert 2 20, .insert 3 30, .erase 1]) = some (m, rets) ∧
      ((ofCapacity 8).bind fun m₀ => Machine.run call m₀ [.insert 3 (30 : Nat), .insert 2 20]) = some (m', rets') ∧
      (m.capacity = m'.capacity → (∀ i < m.capacity, m.state i = m'.state i) ∧
        ({2, 3} : Finset UInt64).sum m.probes = ({2, 3} : Finset UInt64).sum m'.probes) := by
  obtain ⟨m, rets, m', rets', hrun, hrun', hfree⟩ := @history_free Nat 8 8 (by decide) (by decide) _
    [.insert 1 (10 : Nat), .insert 2 20, .insert 3 30, .erase 1] [.insert 3 30, .insert 2 20]
  refine ⟨m, rets, m', rets', hrun, hrun', fun hcap => ?_⟩
  obtain ⟨hstate, -, hsum⟩ := (hfree hcap).1 (by decide)
  have hkeys : (Machine.runT callMap ∅ [.insert 1 (10 : Nat), .insert 2 20, .insert 3 30, .erase 1]).1.keys =
      {2, 3} := by decide
  rw [hkeys] at hsum
  exact ⟨hstate, hsum⟩

end Obe.FlatHashMap
