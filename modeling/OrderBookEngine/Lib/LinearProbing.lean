/-
Linear probing in a circular table of `n` slots, over any keys and any home slots: the chain
invariant, what a probe run finds, insertion into the first free slot, and backward-shift
deletion (Knuth 6.4, Algorithm R), where one slot is a hole while later entries slide back. Every
slide takes an entry as much nearer to its home as the scan has gone since the slide before, which
bounds the scan also in a table without a free slot.
-/
import Mathlib.Algebra.BigOperators.Group.Finset.Basic
import Mathlib.Algebra.Order.BigOperators.Group.Finset
import Mathlib.Data.Finset.Card
import Mathlib.Data.Finset.Range
import Mathlib.Logic.Function.Basic
import Mathlib.Data.Nat.Find

namespace Probing

/-! ## Circular positions -/

/-- The slot `t` steps after `h`, for `t ≤ n`. -/
def add (n h t : Nat) : Nat := if h + t < n then h + t else h + t - n

/-- The number of steps from slot `h` to slot `j`. -/
def dist (n h j : Nat) : Nat := if h ≤ j then j - h else j + n - h

variable {n h i j k t : Nat}

theorem add_eq (n h t : Nat) : h + t < n ∧ add n h t = h + t ∨ n ≤ h + t ∧ add n h t = h + t - n := by
  unfold add; split <;> omega

theorem dist_eq (n h j : Nat) : h ≤ j ∧ dist n h j = j - h ∨ j < h ∧ dist n h j = j + n - h := by
  unfold dist; split <;> omega

theorem add_lt (hh : h < n) (ht : t ≤ n) : add n h t < n := by
  have := add_eq n h t; omega

theorem dist_lt (hh : h < n) (hj : j < n) : dist n h j < n := by
  have := dist_eq n h j; omega

@[simp] theorem dist_self (n h : Nat) : dist n h h = 0 := by simp [dist]

theorem dist_eq_zero (hh : h < n) : dist n h j = 0 ↔ h = j := by
  have := dist_eq n h j; omega

theorem add_dist (hh : h < n) (hj : j < n) : add n h (dist n h j) = j := by
  have := dist_eq n h j; have := add_eq n h (dist n h j); omega

theorem dist_add (hh : h < n) (ht : t < n) : dist n h (add n h t) = t := by
  have := add_eq n h t; have := dist_eq n h (add n h t); omega

theorem add_zero (hh : h < n) : add n h 0 = h := by
  have := add_eq n h 0; omega

theorem add_succ (hh : h < n) (ht : t < n) : add n h (t + 1) = add n (add n h 1) t := by
  have := add_eq n h 1; have := add_eq n h (t + 1); have := add_eq n (add n h 1) t; omega

theorem dist_next (hi : i < n) (hj : j < n) (hne : add n j 1 ≠ i) : dist n i (add n j 1) = dist n i j + 1 := by
  have := add_eq n j 1; have := dist_eq n i j; have := dist_eq n i (add n j 1); omega

theorem dist_next_to (hi : i < n) (hj : j < n) (hne : j ≠ i) : dist n (add n j 1) i + 1 = dist n j i := by
  have := add_eq n j 1; have := dist_eq n j i; have := dist_eq n (add n j 1) i; omega

/-- A slot on the way from `h` to `j` cuts the way in two. -/
theorem dist_split (hh : h < n) (hi : i < n) (hj : j < n) (hle : dist n h i ≤ dist n h j) :
    dist n h j = dist n h i + dist n i j := by
  have := dist_eq n h i; have := dist_eq n h j; have := dist_eq n i j; omega

/-- A slot behind `k` on the way to `j` cuts the way in two. -/
theorem dist_of_le (hk : k < n) (hi : i < n) (hj : j < n) (hle : dist n i j ≤ dist n k j) :
    dist n k i + dist n i j = dist n k j := by
  have := dist_eq n i j; have := dist_eq n k j; have := dist_eq n k i; omega

/-- Ways put one after the other do not wrap while their sum is below `n`. -/
theorem dist_trans (hk : k < n) (hi : i < n) (hj : j < n) (hlt : dist n k i + dist n i j < n) :
    dist n k j = dist n k i + dist n i j := by
  have := dist_eq n i j; have := dist_eq n k j; have := dist_eq n k i; omega

/-- The slot after `j` is `i` only when `j` is the last slot seen from `i`. -/
theorem dist_of_next_eq (hi : i < n) (hj : j < n) (he : add n j 1 = i) : dist n i j + 1 = n := by
  have := add_eq n j 1; have := dist_eq n i j; omega

/-- The cyclic interval test of Algorithm R: `k` is in `(i, j]`. -/
theorem cyclic_mem (hi : i < n) (hk : k < n) :
    (if i ≤ j then k > i ∧ k ≤ j else k > i ∨ k ≤ j) ↔ dist n k j < dist n i j := by
  have := dist_eq n k j; have := dist_eq n i j
  split <;> omega

/-! ## Tables -/

variable {K V : Type}

/-- What the slots hold. -/
abbrev Table (K V : Type) := Nat → Option (K × V)

/-- Every key sits in one slot, and no slot between its home and that slot is free. -/
structure Chained (n : Nat) (home : K → Nat) (T : Table K V) : Prop where
  uniq : ∀ i j a b, i < n → j < n → T i = some a → T j = some b → a.1 = b.1 → i = j
  chain : ∀ j a, j < n → T j = some a → ∀ t < dist n (home a.1) j, T (add n (home a.1) t) ≠ none

/-- The table holds `k` with value `v`. -/
def Holds (n : Nat) (T : Table K V) (k : K) (v : V) : Prop := ∃ i < n, T i = some (k, v)

/-- The number of slots in use. -/
def used (n : Nat) (T : Table K V) : Nat := ((Finset.range n).filter fun i => (T i).isSome).card

/-- The first `t` slots from `h` on are taken by other keys than `k`. -/
def Clear (n : Nat) (T : Table K V) (h : Nat) (k : K) (t : Nat) : Prop :=
  ∀ s < t, ∃ a, T (add n h s) = some a ∧ a.1 ≠ k

section Table

variable {home : K → Nat} {T : Table K V} {a : K × V} {key : K} {v : V}

theorem Holds.unique (hT : Chained n home T) {v w : V} (h1 : Holds n T key v) (h2 : Holds n T key w) : v = w := by
  obtain ⟨i, hi, h1⟩ := h1
  obtain ⟨j, hj, h2⟩ := h2
  obtain rfl := hT.uniq i j _ _ hi hj h1 h2 rfl
  rw [h1] at h2; cases h2; rfl

theorem chained_empty (n : Nat) (home : K → Nat) : Chained (V := V) n home fun _ => none :=
  ⟨fun _ _ _ _ _ _ h => (nomatch h), fun _ _ _ h => (nomatch h)⟩

theorem used_empty (n : Nat) : used (K := K) (V := V) n (fun _ => none) = 0 := by simp [used]

theorem exists_free (hlt : used n T < n) : ∃ e < n, T e = none := by
  by_contra hne
  push Not at hne
  have hall : (Finset.range n).filter (fun i => (T i).isSome) = Finset.range n := by
    refine Finset.filter_true_of_mem fun i hi => ?_
    exact Option.isSome_iff_ne_none.2 (hne i (Finset.mem_range.1 hi))
  unfold used at hlt
  rw [hall, Finset.card_range] at hlt
  omega

theorem used_insert {i : Nat} (hi : i < n) (h : T i = none) :
    used n (Function.update T i (some a)) = used n T + 1 := by
  unfold used
  have hset : (Finset.range n).filter (fun x => (Function.update T i (some a) x).isSome) =
      insert i ((Finset.range n).filter fun x => (T x).isSome) := by
    ext x
    by_cases hx : x = i
    · subst hx; simp [hi]
    · simp [hx]
  rw [hset, Finset.card_insert_of_notMem (by simp [h])]

theorem used_erase {i : Nat} (hi : i < n) (h : T i = some a) : used n (Function.update T i none) + 1 = used n T := by
  have := used_insert (T := Function.update T i none) (a := a) hi (by simp)
  rw [Function.update_idem, ← h, Function.update_eq_self] at this
  exact this.symm

theorem used_set {i : Nat} {b : K × V} (hi : i < n) (h : T i = some b) :
    used n (Function.update T i (some a)) = used n T := by
  have h1 := used_erase hi h
  have h2 := used_insert (T := Function.update T i none) (a := a) hi (by simp)
  rw [Function.update_idem] at h2
  omega

theorem used_succ (s : Nat) :
    used (s + 1) T = used s T + if (T s).isSome then 1 else 0 := by
  unfold used
  rw [Finset.range_add_one, Finset.filter_insert]
  split
  · rw [Finset.card_insert_of_notMem (by simp)]
  · rfl

theorem used_mono {s t : Nat} (h : s ≤ t) : used s T ≤ used t T := by
  refine Finset.card_le_card fun i hi => ?_
  rw [Finset.mem_filter, Finset.mem_range] at hi ⊢
  exact ⟨by omega, hi.2⟩

/-! ## Probing -/

/-- A probe run from any slot ends within one pass: at the key or at a free slot. -/
theorem probe_stops (hh : h < n) (hfree : ∃ e < n, T e = none) (key : K) :
    ∃ t < n, Clear n T h key t ∧ (T (add n h t) = none ∨ ∃ v, T (add n h t) = some (key, v)) := by
  classical
  have hex : ∃ t, t < n ∧ ∀ a, T (add n h t) = some a → a.1 = key := by
    obtain ⟨e, he, hn⟩ := hfree
    refine ⟨dist n h e, dist_lt hh he, fun a ha => ?_⟩
    rw [add_dist hh he, hn] at ha
    cases ha
  refine ⟨Nat.find hex, (Nat.find_spec hex).1, fun s hs => ?_, ?_⟩
  · have hmin := Nat.find_min hex hs
    have hsn : s < n := lt_trans hs (Nat.find_spec hex).1
    push Not at hmin
    exact hmin hsn
  · rcases hT : T (add n h (Nat.find hex)) with _ | ⟨k', v⟩
    · exact .inl rfl
    · have := (Nat.find_spec hex).2 _ hT
      cases this
      exact .inr ⟨v, rfl⟩

/-- A probe run that ends at a free slot has not missed the key. -/
theorem Chained.absent (hT : Chained n home T) (hhome : ∀ k, home k < n) {t : Nat}
    (hc : Clear n T (home key) key t) (hfree : T (add n (home key) t) = none) : ∀ v, ¬ Holds n T key v := by
  rintro v ⟨j, hj, hv⟩
  rcases Nat.lt_trichotomy t (dist n (home key) j) with hlt | heq | hgt
  · exact hT.chain j _ hj hv t hlt hfree
  · rw [heq, add_dist (hhome key) hj, hv] at hfree; cases hfree
  · obtain ⟨a, ha, hne⟩ := hc _ hgt
    rw [add_dist (hhome key) hj, hv] at ha
    cases ha
    exact hne rfl

theorem Clear.tail {t : Nat} (hh : h < n) (ht : t < n) (hc : Clear n T h key (t + 1)) :
    (∃ a, T h = some a ∧ a.1 ≠ key) ∧ Clear n T (add n h 1) key t := by
  refine ⟨by simpa [add_zero hh] using hc 0 (by omega), fun s hs => ?_⟩
  rw [← add_succ hh (by omega)]
  exact hc (s + 1) (by omega)

/-! ## Insertion -/

theorem Chained.insert (hT : Chained n home T) (hhome : ∀ k, home k < n) {t : Nat} (ht : t < n)
    (hc : Clear n T (home key) key t) (hfree : T (add n (home key) t) = none) :
    Chained n home (Function.update T (add n (home key) t) (some (key, v))) := by
  have habs := hT.absent hhome hc hfree
  constructor
  · intro i j a b hi hj ha hb hab
    by_cases hi' : i = add n (home key) t <;> by_cases hj' : j = add n (home key) t
    · rw [hi', hj']
    · subst hi'
      rw [Function.update_self] at ha; cases ha
      rw [Function.update_of_ne hj'] at hb
      exact absurd ⟨j, hj, by rw [hb, show key = b.1 from hab]⟩ (habs b.2)
    · subst hj'
      rw [Function.update_self] at hb; cases hb
      rw [Function.update_of_ne hi'] at ha
      exact absurd ⟨i, hi, by rw [ha, show key = a.1 from hab.symm]⟩ (habs a.2)
    · rw [Function.update_of_ne hi'] at ha
      rw [Function.update_of_ne hj'] at hb
      exact hT.uniq i j a b hi hj ha hb hab
  · intro j a hj ha s hs
    have hkeep : ∀ x, T x ≠ none → Function.update T (add n (home key) t) (some (key, v)) x ≠ none := by
      intro x hx
      by_cases hxi : x = add n (home key) t
      · subst hxi; simp
      · rwa [Function.update_of_ne hxi]
    by_cases hj' : j = add n (home key) t
    · subst hj'
      rw [Function.update_self] at ha; cases ha
      simp only [dist_add (hhome key) ht] at hs
      obtain ⟨b, hb, -⟩ := hc s hs
      exact hkeep _ (by rw [hb]; simp)
    · rw [Function.update_of_ne hj'] at ha
      exact hkeep _ (hT.chain j a hj ha s hs)

theorem holds_insert (hi : i < n) (h : T i = none) {k' : K} {v' : V} (hne : ∀ w, ¬ Holds n T key w) :
    Holds n (Function.update T i (some (key, v))) k' v' ↔ (k' = key ∧ v' = v) ∨ (k' ≠ key ∧ Holds n T k' v') := by
  constructor
  · rintro ⟨j, hj, hjv⟩
    by_cases hji : j = i
    · subst hji; rw [Function.update_self] at hjv; cases hjv; exact .inl ⟨rfl, rfl⟩
    · rw [Function.update_of_ne hji] at hjv
      refine .inr ⟨?_, j, hj, hjv⟩
      rintro rfl
      exact hne v' ⟨j, hj, hjv⟩
  · rintro (⟨rfl, rfl⟩ | ⟨-, j, hj, hjv⟩)
    · exact ⟨i, hi, Function.update_self ..⟩
    · refine ⟨j, hj, ?_⟩
      rwa [Function.update_of_ne (by rintro rfl; rw [h] at hjv; cases hjv)]

/-- Writing a new value over a present key moves no key. -/
theorem Chained.set (hT : Chained n home T) {w : V} (h : T i = some (key, w)) :
    Chained n home (Function.update T i (some (key, v))) := by
  have hback : ∀ j a, Function.update T i (some (key, v)) j = some a → ∃ b, T j = some b ∧ b.1 = a.1 := by
    intro j a ha
    by_cases hj : j = i
    · subst hj; rw [Function.update_self] at ha; cases ha; exact ⟨_, h, rfl⟩
    · rw [Function.update_of_ne hj] at ha; exact ⟨a, ha, rfl⟩
  constructor
  · intro x y a b hx hy ha hb hab
    obtain ⟨a', ha', hea⟩ := hback x a ha
    obtain ⟨b', hb', heb⟩ := hback y b hb
    exact hT.uniq x y a' b' hx hy ha' hb' (by rw [hea, heb, hab])
  · intro j a hj ha s hs
    obtain ⟨a', ha', hea⟩ := hback j a ha
    rw [← hea] at hs ⊢
    have := hT.chain j a' hj ha' s hs
    by_cases hx : add n (home a'.1) s = i
    · rw [hx]; simp
    · rwa [Function.update_of_ne hx]

theorem holds_set (hT : Chained n home T) (hi : i < n) {w : V} (h : T i = some (key, w)) {k' : K} {v' : V} :
    Holds n (Function.update T i (some (key, v))) k' v' ↔ (k' = key ∧ v' = v) ∨ (k' ≠ key ∧ Holds n T k' v') := by
  constructor
  · rintro ⟨j, hj, hjv⟩
    by_cases hji : j = i
    · subst hji; rw [Function.update_self] at hjv; cases hjv; exact .inl ⟨rfl, rfl⟩
    · rw [Function.update_of_ne hji] at hjv
      refine .inr ⟨?_, j, hj, hjv⟩
      rintro rfl
      exact hji (hT.uniq j i _ _ hj hi hjv h rfl)
  · rintro (⟨rfl, rfl⟩ | ⟨hne, j, hj, hjv⟩)
    · exact ⟨i, hi, Function.update_self ..⟩
    · refine ⟨j, hj, ?_⟩
      rwa [Function.update_of_ne (by rintro rfl; rw [h] at hjv; cases hjv; exact hne rfl)]

/-! ## Backward-shift deletion -/

/-- The table while Algorithm R runs with its hole at `i` and its scan at `j`: keys are unique,
chains may be broken at the hole only, and every slot scanned since the hole was made holds an
entry whose home is after the hole. -/
structure Holed (n : Nat) (home : K → Nat) (T : Table K V) (i j : Nat) : Prop where
  hole : T i = none
  uniq : ∀ x y a b, x < n → y < n → T x = some a → T y = some b → a.1 = b.1 → x = y
  chain : ∀ s a, s < n → T s = some a → ∀ t < dist n (home a.1) s,
    T (add n (home a.1) t) ≠ none ∨ add n (home a.1) t = i
  scanned : ∀ s < n, 0 < dist n i s → dist n i s ≤ dist n i j →
    ∃ a, T s = some a ∧ dist n (home a.1) s < dist n i s

/-- Taking an entry out makes its slot the hole. -/
theorem Chained.hole (hT : Chained n home T) : Holed n home (Function.update T i none) i i := by
  have hback : ∀ j a, Function.update T i none j = some a → j ≠ i ∧ T j = some a := by
    intro j a ha
    by_cases hj : j = i
    · subst hj; rw [Function.update_self] at ha; cases ha
    · rw [Function.update_of_ne hj] at ha; exact ⟨hj, ha⟩
  refine ⟨Function.update_self .., ?_, ?_, ?_⟩
  · intro x y a b hx hy ha hb hab
    exact hT.uniq x y a b hx hy (hback x a ha).2 (hback y b hb).2 hab
  · intro s a hs ha t ht
    have := hT.chain s a hs (hback s a ha).2 t ht
    by_cases hx : add n (home a.1) t = i
    · exact .inr hx
    · exact .inl (by rwa [Function.update_of_ne hx])
  · intro s _ h0 hle
    rw [dist_self] at hle
    omega

/-- The scan ends at a free slot: the chains are whole again. -/
theorem Holed.done (hT : Holed n home T i j) (hhome : ∀ k, home k < n) (hi : i < n) (hj : j < n)
    (hfree : T (add n j 1) = none) : Chained n home T := by
  refine ⟨hT.uniq, fun s a hs ha t ht => ?_⟩
  rcases hT.chain s a hs ha t ht with h | hx
  · exact h
  · -- the chain of `s` would run through the hole, so past the free slot the scan has reached
    exfalso
    have hh := hhome a.1
    have htn : t < n := lt_trans ht (dist_lt hh hs)
    have hdi : dist n (home a.1) i = t := by rw [← hx, dist_add hh htn]
    have hsplit := dist_split hh hi hs (by omega)
    have hpos : 0 < dist n i s := by omega
    have hfar : dist n i j < dist n i s := by
      by_contra hle
      obtain ⟨b, hb, hlt⟩ := hT.scanned s hs hpos (by omega)
      rw [ha] at hb; cases hb
      omega
    have hne : add n j 1 ≠ i := by
      intro he
      have h1 := dist_of_next_eq hi hj he
      have h2 := dist_lt hi hs
      omega
    have hnext := dist_next hi hj hne
    have hjn : add n j 1 < n := add_lt hj (by omega)
    have hne' : add n j 1 ≠ s := by intro he; rw [he, ha] at hfree; cases hfree
    have hbefore : dist n i (add n j 1) < dist n i s := by
      rcases Nat.lt_or_eq_of_le (show dist n i (add n j 1) ≤ dist n i s by omega) with h | h
      · exact h
      · exact absurd (by rw [← add_dist hi hjn, h, add_dist hi hs]) hne'
    have hreach : add n (home a.1) (t + dist n i (add n j 1)) = add n j 1 := by
      have hlt := dist_lt hh hs
      have hk := dist_trans hh hi hjn (by omega)
      rw [← hdi, ← hk, add_dist hh hjn]
    rcases hT.chain s a hs ha (t + dist n i (add n j 1)) (by omega) with h | h
    · rw [hreach] at h; exact h hfree
    · rw [hreach] at h; exact hne h

/-- An entry whose home is after the hole stays. -/
theorem Holed.skip (hT : Holed n home T i j) (hi : i < n) (hj : j < n) {a : K × V} (ha : T (add n j 1) = some a)
    (hstay : dist n (home a.1) (add n j 1) < dist n i (add n j 1)) : Holed n home T i (add n j 1) := by
  have hne : add n j 1 ≠ i := by intro he; rw [he, hT.hole] at ha; cases ha
  have hjn : add n j 1 < n := add_lt hj (by omega)
  have hnext := dist_next hi hj hne
  refine ⟨hT.hole, hT.uniq, hT.chain, fun s hs h0 hle => ?_⟩
  rcases Nat.lt_or_eq_of_le hle with h | h
  · exact hT.scanned s hs h0 (by omega)
  · obtain rfl : s = add n j 1 := by rw [← add_dist hi hs, h, add_dist hi hjn]
    exact ⟨a, ha, hstay⟩

/-- An entry whose home is not after the hole slides back into it and leaves the new hole. -/
theorem Holed.move (hT : Holed n home T i j) (hhome : ∀ k, home k < n) (hi : i < n) (hj : j < n) {a : K × V}
    (ha : T (add n j 1) = some a) (hmove : dist n i (add n j 1) ≤ dist n (home a.1) (add n j 1)) :
    Holed n home (Function.update (Function.update T i (some a)) (add n j 1) none) (add n j 1) (add n j 1) := by
  have hjn : add n j 1 < n := add_lt hj (by omega)
  generalize add n j 1 = j' at *
  have hne : i ≠ j' := by rintro rfl; rw [hT.hole] at ha; cases ha
  have hback : ∀ x b, Function.update (Function.update T i (some a)) j' none x = some b →
      (x = i ∧ b = a) ∨ (x ≠ i ∧ x ≠ j' ∧ T x = some b) := by
    intro x b hb
    by_cases hxj : x = j'
    · subst hxj; rw [Function.update_self] at hb; cases hb
    · rw [Function.update_of_ne hxj] at hb
      by_cases hxi : x = i
      · subst hxi; rw [Function.update_self] at hb; cases hb; exact .inl ⟨rfl, rfl⟩
      · rw [Function.update_of_ne hxi] at hb; exact .inr ⟨hxi, hxj, hb⟩
  have hkeep : ∀ x, T x ≠ none ∨ x = i →
      Function.update (Function.update T i (some a)) j' none x ≠ none ∨ x = j' := by
    intro x hx
    by_cases hxj : x = j'
    · exact .inr hxj
    · refine .inl ?_
      rw [Function.update_of_ne hxj]
      by_cases hxi : x = i
      · subst hxi; simp
      · rw [Function.update_of_ne hxi]
        rcases hx with hx | hx
        · exact hx
        · exact absurd hx hxi
  refine ⟨Function.update_self .., ?_, ?_, ?_⟩
  · intro x y b c hx hy hb hc hbc
    rcases hback x b hb with ⟨rfl, rfl⟩ | ⟨hxi, hxj, hb'⟩ <;> rcases hback y c hc with ⟨rfl, rfl⟩ | ⟨hyi, hyj, hc'⟩
    · rfl
    · exact absurd (hT.uniq y j' _ _ hy hjn hc' ha hbc.symm) hyj
    · exact absurd (hT.uniq x j' _ _ hx hjn hb' ha hbc) hxj
    · exact hT.uniq x y b c hx hy hb' hc' hbc
  · intro s b hs hb t ht
    apply hkeep
    rcases hback s b hb with ⟨rfl, rfl⟩ | ⟨-, -, hb'⟩
    · -- the moved entry: its way to the hole is the first part of its old way
      have hsum := dist_of_le (hhome b.1) hi hjn hmove
      exact hT.chain j' b hjn ha t (by omega)
    · exact hT.chain s b hs hb' t ht
  · intro s _ h0 hle
    rw [dist_self] at hle
    omega

theorem holds_move (hi : i < n) (hj : j < n) (hhole : T i = none) {a : K × V} (ha : T j = some a) (k : K) (v : V) :
    Holds n (Function.update (Function.update T i (some a)) j none) k v ↔ Holds n T k v := by
  have hne : i ≠ j := by rintro rfl; rw [hhole] at ha; cases ha
  constructor
  · rintro ⟨x, hx, hv⟩
    by_cases hxj : x = j
    · subst hxj; rw [Function.update_self] at hv; cases hv
    · rw [Function.update_of_ne hxj] at hv
      by_cases hxi : x = i
      · subst hxi; rw [Function.update_self] at hv; cases hv; exact ⟨j, hj, ha⟩
      · rw [Function.update_of_ne hxi] at hv; exact ⟨x, hx, hv⟩
  · rintro ⟨x, hx, hv⟩
    by_cases hxj : x = j
    · subst hxj
      refine ⟨i, hi, ?_⟩
      rw [Function.update_of_ne hne, Function.update_self, ← ha, hv]
    · refine ⟨x, hx, ?_⟩
      rwa [Function.update_of_ne hxj, Function.update_of_ne (by rintro rfl; rw [hhole] at hv; cases hv)]

theorem used_move (hi : i < n) (hj : j < n) (hhole : T i = none) {a : K × V} (ha : T j = some a) :
    used n (Function.update (Function.update T i (some a)) j none) = used n T := by
  have hne : i ≠ j := by rintro rfl; rw [hhole] at ha; cases ha
  have h1 := used_insert (a := a) hi hhole
  have h2 := used_erase (T := Function.update T i (some a)) (i := j) (a := a) hj
    (by rwa [Function.update_of_ne hne.symm])
  omega

theorem holds_erase (hT : Chained n home T) (hi : i < n) (h : T i = some (key, v)) {k' : K} {v' : V} :
    Holds n (Function.update T i none) k' v' ↔ k' ≠ key ∧ Holds n T k' v' := by
  constructor
  · rintro ⟨j, hj, hv⟩
    have hji : j ≠ i := by rintro rfl; rw [Function.update_self] at hv; cases hv
    rw [Function.update_of_ne hji] at hv
    refine ⟨?_, j, hj, hv⟩
    rintro rfl
    exact hji (hT.uniq j i _ _ hj hi hv h rfl)
  · rintro ⟨hne, j, hj, hv⟩
    refine ⟨j, hj, ?_⟩
    rwa [Function.update_of_ne (by rintro rfl; rw [h] at hv; cases hv; exact hne rfl)]

/-! ## The way of a scan -/

/-- How far what slot `i` holds stands from its home. -/
def apart (n : Nat) (home : K → Nat) (i : Nat) (x : Option (K × V)) : Nat := x.elim 0 fun a => dist n (home a.1) i

/-- How far the entries of a table stand from their homes, taken together. -/
def displacement (n : Nat) (home : K → Nat) (T : Table K V) : Nat :=
  (Finset.range n).sum fun i => apart n home i (T i)

theorem displacement_update (home : K → Nat) (T : Table K V) (hi : i < n) (x : Option (K × V)) :
    displacement n home (Function.update T i x) + apart n home i (T i) =
      displacement n home T + apart n home i x := by
  have hmem : i ∈ Finset.range n := Finset.mem_range.2 hi
  have hrest : ((Finset.range n).erase i).sum (fun s => apart n home s (Function.update T i x s)) =
      ((Finset.range n).erase i).sum fun s => apart n home s (T s) := by
    refine Finset.sum_congr rfl fun s hs => ?_
    rw [Function.update_of_ne (Finset.ne_of_mem_erase hs)]
  unfold displacement
  rw [← Finset.add_sum_erase _ _ hmem, ← Finset.add_sum_erase _ (fun s => apart n home s (T s)) hmem, hrest,
    Function.update_self]
  omega

/-- A slide from `j` back to `i` takes the way between them off the displacement. -/
theorem displacement_move (hhome : ∀ k, home k < n) (hi : i < n) (hj : j < n) (hhole : T i = none) {a : K × V}
    (ha : T j = some a) (hmove : dist n i j ≤ dist n (home a.1) j) :
    displacement n home (Function.update (Function.update T i (some a)) j none) + dist n i j =
      displacement n home T := by
  have hne : j ≠ i := by rintro rfl; rw [hhole] at ha; cases ha
  have hin := displacement_update home T hi (some a)
  have hout := displacement_update home (Function.update T i (some a)) hj none
  have hway := dist_of_le (hhome a.1) hi hj hmove
  rw [hhole] at hin
  rw [Function.update_of_ne hne, ha] at hout
  simp only [apart, Option.elim_none, Option.elim_some] at hin hout
  omega

theorem used_le (n : Nat) (T : Table K V) : used n T ≤ n := by
  have := Finset.card_filter_le (Finset.range n) fun i => (T i).isSome
  rwa [Finset.card_range] at this

/-- No entry stands further from its home than the last slot before it. -/
theorem displacement_le (hhome : ∀ k, home k < n) : displacement n home T ≤ used n T * (n - 1) := by
  have hfree : ∀ i ∈ Finset.range n, apart n home i (T i) ≠ 0 → (T i).isSome = true := by
    intro i _ h
    cases hT : T i with
    | none => rw [hT] at h; exact absurd rfl h
    | some a => rfl
  have hone : ∀ i ∈ (Finset.range n).filter (fun i => (T i).isSome), apart n home i (T i) ≤ n - 1 := by
    intro i hi
    have hin : i < n := Finset.mem_range.1 (Finset.mem_filter.1 hi).1
    obtain ⟨a, ha⟩ := Option.isSome_iff_exists.1 (Finset.mem_filter.1 hi).2
    have := dist_lt (hhome a.1) hin
    rw [ha]
    simp only [apart, Option.elim_some]
    omega
  unfold displacement used
  rw [← Finset.sum_filter_of_ne hfree]
  exact Finset.sum_le_card_nsmul _ _ _ hone

end Table

end Probing
