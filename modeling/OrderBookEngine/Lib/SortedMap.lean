/-
Ordered maps as their in-order sequence of entries, for any strict total order `lt` of the keys:
what `std::map` with comparator `lt` shows its users. The order is a field, so every map is
sorted. Each operation is described by where it cuts the sequence.
-/
import Mathlib.Order.RelClasses
import Mathlib.Data.List.Nodup

/-- The entries of a map in the order of its comparator. -/
structure SortedMap (K V : Type) (lt : K → K → Prop) where
  entries : List (K × V)
  sorted : entries.Pairwise fun a b => lt a.1 b.1

namespace SortedMap

variable {K V : Type} {lt : K → K → Prop}

@[ext] theorem ext {m n : SortedMap K V lt} (h : m.entries = n.entries) : m = n := by
  cases m; cases n; cases h; rfl

def empty : SortedMap K V lt := ⟨[], .nil⟩

def isEmpty (m : SortedMap K V lt) : Bool := m.entries.isEmpty

def size (m : SortedMap K V lt) : Nat := m.entries.length

/-- `*begin()`, the least entry. -/
def begin? (m : SortedMap K V lt) : Option (K × V) := m.entries.head?

def keys (m : SortedMap K V lt) : List K := m.entries.map (·.1)

/-! ## Order facts -/

theorem not_mem_of_lt [Std.Irrefl lt] {k : K} {l : List (K × V)} (h : ∀ e ∈ l, lt e.1 k ∨ lt k e.1) :
    ∀ e ∈ l, e.1 ≠ k := by
  rintro e he rfl
  rcases h e he with h | h <;> exact Std.Irrefl.irrefl _ h

theorem split_lt (m : SortedMap K V lt) {l₁ l₂ : List (K × V)} {e : K × V} (h : m.entries = l₁ ++ e :: l₂) :
    (∀ a ∈ l₁, lt a.1 e.1) ∧ (∀ b ∈ l₂, lt e.1 b.1) := by
  have hs := m.sorted
  rw [h, List.pairwise_append, List.pairwise_cons] at hs
  exact ⟨fun a ha => hs.2.2 a ha e (List.mem_cons_self ..), hs.2.1.1⟩

theorem keys_nodup [Std.Irrefl lt] (m : SortedMap K V lt) : m.keys.Nodup := by
  unfold keys
  rw [List.Nodup, List.pairwise_map]
  refine m.sorted.imp ?_
  intro a b h (e : a.1 = b.1)
  rw [e] at h
  exact Std.Irrefl.irrefl _ h

/-! ## Find -/

section Find

variable [DecidableEq K]

def find? (m : SortedMap K V lt) (k : K) : Option V := (m.entries.find? fun e => e.1 = k).map (·.2)

theorem find?_none {m : SortedMap K V lt} {k : K} (h : m.find? k = none) : ∀ e ∈ m.entries, e.1 ≠ k := by
  unfold find? at h
  rw [Option.map_eq_none_iff, List.find?_eq_none] at h
  intro e he; simpa using h e he

theorem find?_some {m : SortedMap K V lt} {k : K} {v : V} (h : m.find? k = some v) :
    ∃ l₁ l₂, m.entries = l₁ ++ (k, v) :: l₂ := by
  unfold find? at h
  obtain ⟨⟨k', v'⟩, hf, rfl⟩ := Option.map_eq_some_iff.1 h
  obtain ⟨hk, l₁, l₂, he, -⟩ := List.find?_eq_some_iff_append.1 hf
  obtain rfl : k' = k := by simpa using hk
  exact ⟨l₁, l₂, he⟩

theorem find?_of_split [Std.Irrefl lt] {m : SortedMap K V lt} {l₁ l₂ : List (K × V)} {k : K} {v : V}
    (h : m.entries = l₁ ++ (k, v) :: l₂) : m.find? k = some v := by
  obtain ⟨h1, -⟩ := m.split_lt h
  unfold find?
  rw [h, List.find?_append, List.find?_eq_none.2, Option.none_or]
  · simp
  · intro e he; simpa using not_mem_of_lt (fun e he => .inl (h1 e he)) e he

end Find

/-! ## Insertion -/

section Insert

variable [DecidableRel lt]

/-- `(k, v)` in front of the first entry whose key is not before `k`. -/
def insertSorted (lt : K → K → Prop) [DecidableRel lt] (k : K) (v : V) : List (K × V) → List (K × V)
  | [] => [(k, v)]
  | e :: l => if lt e.1 k then e :: insertSorted lt k v l else (k, v) :: e :: l

variable (lt) in
theorem insertSorted_split [IsTrans K lt] [Std.Trichotomous lt] (k : K) (v : V) :
    ∀ {l : List (K × V)}, (l.Pairwise fun a b => lt a.1 b.1) → (∀ e ∈ l, e.1 ≠ k) →
      ∃ l₁ l₂, l = l₁ ++ l₂ ∧ insertSorted lt k v l = l₁ ++ (k, v) :: l₂ ∧
        (∀ e ∈ l₁, lt e.1 k) ∧ (∀ e ∈ l₂, lt k e.1)
  | [], _, _ => ⟨[], [], rfl, rfl, by simp, by simp⟩
  | e :: l, hs, hk => by
    rw [List.pairwise_cons] at hs
    unfold insertSorted
    by_cases hlt : lt e.1 k
    · rw [if_pos hlt]
      obtain ⟨l₁, l₂, rfl, h2, h3, h4⟩ := insertSorted_split k v hs.2 fun e he => hk e (List.mem_cons_of_mem _ he)
      refine ⟨e :: l₁, l₂, rfl, by rw [h2]; rfl, ?_, h4⟩
      intro a ha
      rcases List.mem_cons.1 ha with rfl | ha
      · exact hlt
      · exact h3 a ha
    · rw [if_neg hlt]
      have hke : lt k e.1 := by
        rcases trichotomous_of lt e.1 k with h | h | h
        · exact absurd h hlt
        · exact absurd h (hk e (List.mem_cons_self ..))
        · exact h
      refine ⟨[], e :: l, rfl, rfl, by simp, ?_⟩
      intro a ha
      rcases List.mem_cons.1 ha with rfl | ha
      · exact hke
      · exact IsTrans.trans _ _ _ hke (hs.1 a ha)

theorem insertSorted_sorted [IsTrans K lt] [Std.Trichotomous lt] {k : K} {v : V} {l : List (K × V)}
    (hs : l.Pairwise fun a b => lt a.1 b.1) (hk : ∀ e ∈ l, e.1 ≠ k) :
    (insertSorted lt k v l).Pairwise fun a b => lt a.1 b.1 := by
  obtain ⟨l₁, l₂, rfl, h2, h3, h4⟩ := insertSorted_split lt k v hs hk
  rw [List.pairwise_append] at hs
  rw [h2, List.pairwise_append, List.pairwise_cons]
  refine ⟨hs.1, ⟨h4, hs.2.1⟩, fun a ha b hb => ?_⟩
  rcases List.mem_cons.1 hb with rfl | hb
  · exact h3 a ha
  · exact hs.2.2 a ha b hb

variable [DecidableEq K] [IsTrans K lt] [Std.Trichotomous lt]

/-- `try_emplace(k, v)`: the value now stored at `k`, and the map; a present key keeps its value. -/
def tryEmplace (m : SortedMap K V lt) (k : K) (v : V) : V × SortedMap K V lt :=
  match h : m.find? k with
  | some w => (w, m)
  | none => (v, ⟨insertSorted lt k v m.entries, insertSorted_sorted m.sorted (find?_none h)⟩)

theorem tryEmplace_absent {m : SortedMap K V lt} {k : K} (v : V) (h : m.find? k = none) :
    (m.tryEmplace k v).1 = v ∧ ∃ l₁ l₂, m.entries = l₁ ++ l₂ ∧
      (m.tryEmplace k v).2.entries = l₁ ++ (k, v) :: l₂ ∧ (∀ e ∈ l₁, lt e.1 k) ∧ (∀ e ∈ l₂, lt k e.1) := by
  have he : (m.tryEmplace k v).1 = v ∧ (m.tryEmplace k v).2.entries = insertSorted lt k v m.entries := by
    unfold tryEmplace
    split
    · rename_i w hw; rw [h] at hw; cases hw
    · exact ⟨rfl, rfl⟩
  obtain ⟨l₁, l₂, h1, h2, h3, h4⟩ := insertSorted_split lt k v m.sorted (find?_none h)
  exact ⟨he.1, l₁, l₂, h1, he.2.trans h2, h3, h4⟩

end Insert

/-! ## Erasure -/

section Erase

variable [DecidableEq K]

def erase (m : SortedMap K V lt) (k : K) : SortedMap K V lt :=
  ⟨m.entries.filter fun e => e.1 ≠ k, m.sorted.filter _⟩

/-- Erasing a present key removes exactly its entry. -/
theorem erase_split [Std.Irrefl lt] {m : SortedMap K V lt} {l₁ l₂ : List (K × V)} {k : K} {v : V}
    (h : m.entries = l₁ ++ (k, v) :: l₂) : (m.erase k).entries = l₁ ++ l₂ := by
  obtain ⟨h1, h2⟩ := m.split_lt h
  have f1 : l₁.filter (fun e => e.1 ≠ k) = l₁ :=
    List.filter_eq_self.2 fun e he => by simpa using not_mem_of_lt (fun e he => .inl (h1 e he)) e he
  have f2 : l₂.filter (fun e => e.1 ≠ k) = l₂ :=
    List.filter_eq_self.2 fun e he => by simpa using not_mem_of_lt (fun e he => .inr (h2 e he)) e he
  unfold erase
  simp only [h, List.filter_append, List.filter_cons, f1]
  simpa using f2

end Erase

end SortedMap
