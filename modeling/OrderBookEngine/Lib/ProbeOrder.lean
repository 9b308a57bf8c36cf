/-
What a table of linear probing owes to its history. The slots in use depend on the keys and their
homes alone, however the keys came in and whatever was deleted in between, and so does the way of
all entries from their homes taken together: only which key sits in which slot is left to history.
-/
import OrderBookEngine.Lib.LinearProbing
import Mathlib.Combinatorics.Enumerative.DoubleCounting

namespace Probing

variable {K V : Type} {n e f h i j s : Nat} {home : K → Nat} {T T' : Table K V} {a : K × V}

/-- The slots in use. -/
def taken (n : Nat) (T : Table K V) : Finset Nat := (Finset.range n).filter fun i => (T i).isSome

theorem mem_taken : i ∈ taken n T ↔ i < n ∧ ∃ a, T i = some a := by
  simp [taken, Option.isSome_iff_exists]

/-- The table holds the key, with some value. -/
def Has (n : Nat) (T : Table K V) (k : K) : Prop := ∃ v, Holds n T k v

/-! ## Between two free slots -/

/-- No entry is led past a free slot. -/
theorem Chained.before_free (hT : Chained n home T) (hhome : ∀ k, home k < n) (hf : f < n) (hfree : T f = none)
    (hi : i < n) (ha : T i = some a) : dist n (home a.1) i < dist n (home a.1) f := by
  by_contra hle
  have hne : f ≠ i := by rintro rfl; rw [hfree] at ha; cases ha
  have hlt : dist n (home a.1) f < dist n (home a.1) i := by
    have h1 := dist_eq n (home a.1) i
    have h2 := dist_eq n (home a.1) f
    have := hhome a.1
    omega
  exact hT.chain i a hi ha _ hlt (by rw [add_dist (hhome a.1) hf]; exact hfree)

/-- Seen from a free slot, the home of an entry comes before its slot. -/
theorem Chained.after_free (hT : Chained n home T) (hhome : ∀ k, home k < n) (hf : f < n) (hfree : T f = none)
    (hi : i < n) (ha : T i = some a) :
    0 < dist n f (home a.1) ∧ dist n f (home a.1) + dist n (home a.1) i = dist n f i := by
  have hlt := hT.before_free hhome hf hfree hi ha
  have := hhome a.1
  have h1 := dist_eq n (home a.1) i
  have h2 := dist_eq n (home a.1) f
  have h3 := dist_eq n f (home a.1)
  have h4 := dist_eq n f i
  omega

/-- The last free slot before one that is taken: all slots from there on are taken. -/
theorem exists_last_free (hfree : ∃ e < n, T e = none) (hs : s < n) (htaken : T s ≠ none) :
    ∃ f < n, T f = none ∧ 0 < dist n f s ∧
      ∀ i < n, 0 < dist n f i → dist n f i ≤ dist n f s → ∃ a, T i = some a := by
  obtain ⟨e, he, hempty⟩ := hfree
  have hne : ((Finset.range n).filter fun e => T e = none).Nonempty :=
    ⟨e, Finset.mem_filter.2 ⟨Finset.mem_range.2 he, hempty⟩⟩
  obtain ⟨f, hf, hmin⟩ := Finset.exists_min_image _ (fun e => dist n e s) hne
  obtain ⟨hfn, hfree⟩ := Finset.mem_filter.1 hf
  have hfn := Finset.mem_range.1 hfn
  refine ⟨f, hfn, hfree, ?_, fun i hi hpos hle => ?_⟩
  · refine Nat.pos_of_ne_zero fun h0 => htaken ?_
    rwa [← (dist_eq_zero hfn).1 h0]
  · by_contra hnone
    have hi' : T i = none := Option.eq_none_iff_forall_ne_some.2 fun a ha => hnone ⟨a, ha⟩
    have hnearer := hmin i (Finset.mem_filter.2 ⟨Finset.mem_range.2 hi, hi'⟩)
    have := dist_split hfn hi hs hle
    omega

/-! ## The slots in use -/

/-- **More keys take more slots.** A slot taken in one table is taken in every other that holds its keys. -/
theorem Chained.taken_mono (hT : Chained n home T) (hT' : Chained n home T') (hhome : ∀ k, home k < n)
    (hfree : ∃ e < n, T e = none) (hkeys : ∀ k, Has n T k → Has n T' k) : taken n T ⊆ taken n T' := by
  intro s hs
  obtain ⟨hsn, b, hb⟩ := mem_taken.1 hs
  by_contra hout
  have hfree' : T' s = none := Option.eq_none_iff_forall_ne_some.2 fun c hc => hout (mem_taken.2 ⟨hsn, c, hc⟩)
  obtain ⟨f, hf, hempty, hpos, hall⟩ := exists_last_free hfree hsn (by rw [hb]; simp)
  -- the keys between `f` and `s` sit strictly before `s` in the other table
  have hmoved : ∀ i ∈ (Finset.range n).filter (fun i => 0 < dist n f i ∧ dist n f i ≤ dist n f s),
      ∃ j, j ∈ (Finset.range n).filter (fun j => 0 < dist n f j ∧ dist n f j < dist n f s) ∧
        ∃ a b, T i = some a ∧ T' j = some b ∧ a.1 = b.1 := by
    intro i hi
    obtain ⟨hin, hi0, hile⟩ := Finset.mem_filter.1 hi
    have hin := Finset.mem_range.1 hin
    obtain ⟨a, ha⟩ := hall i hin hi0 hile
    obtain ⟨v, j, hj, hb'⟩ := hkeys a.1 ⟨a.2, i, hin, ha⟩
    obtain ⟨hhome0, hway⟩ := hT.after_free hhome hf hempty hin ha
    have hstop : dist n (home a.1) j < dist n (home a.1) s :=
      hT'.before_free (a := (a.1, v)) hhome hsn hfree' hj hb'
    have hsplit := dist_split hf (hhome a.1) hsn (by omega)
    have hsn' := dist_lt hf hsn
    have hjway := dist_trans hf (hhome a.1) hj (by omega)
    exact ⟨j, Finset.mem_filter.2 ⟨Finset.mem_range.2 hj, by omega, by omega⟩, a, _, ha, hb', rfl⟩
  have hle := Finset.card_le_card_of_forall_subsingleton _ hmoved (by
    rintro j - i ⟨hi, a, b, ha, hb, hab⟩ i' ⟨hi', a', b', ha', hb', hab'⟩
    obtain rfl : b = b' := Option.some.inj (hb.symm.trans hb')
    refine hT.uniq i i' a a' ?_ ?_ ha ha' (hab.trans hab'.symm)
    · exact Finset.mem_range.1 (Finset.mem_filter.1 hi).1
    · exact Finset.mem_range.1 (Finset.mem_filter.1 hi').1)
  have hlt : (Finset.range n).filter (fun j => 0 < dist n f j ∧ dist n f j < dist n f s) ⊂
      (Finset.range n).filter fun i => 0 < dist n f i ∧ dist n f i ≤ dist n f s := by
    refine Finset.ssubset_iff_of_subset (fun j hj => ?_) |>.2 ⟨s, ?_, ?_⟩
    · obtain ⟨hjn, h0, hlt⟩ := Finset.mem_filter.1 hj
      exact Finset.mem_filter.2 ⟨hjn, h0, hlt.le⟩
    · exact Finset.mem_filter.2 ⟨Finset.mem_range.2 hsn, hpos, Nat.le_refl _⟩
    · exact fun hj => absurd (Finset.mem_filter.1 hj).2.2 (Nat.lt_irrefl _)
  exact absurd hle (Nat.not_le.2 (Finset.card_lt_card hlt))

/-- Tables of the same keys have the same slots in use. -/
theorem Chained.taken_eq (hT : Chained n home T) (hT' : Chained n home T') (hhome : ∀ k, home k < n)
    (hfree : ∃ e < n, T e = none) (hfree' : ∃ e < n, T' e = none) (hkeys : ∀ k, Has n T k ↔ Has n T' k) :
    taken n T = taken n T' :=
  (hT.taken_mono hT' hhome hfree fun k => (hkeys k).1).antisymm (hT'.taken_mono hT hhome hfree' fun k => (hkeys k).2)

/-! ## The way of the entries -/

/-- What a function of the keys sums up to over the slots. -/
def keySum (n : Nat) (T : Table K V) (g : K → Nat) : Nat := (taken n T).sum fun i => (T i).elim 0 fun a => g a.1

theorem Chained.keySum_eq (hT : Chained n home T) (hT' : Chained n home T') (hkeys : ∀ k, Has n T k ↔ Has n T' k)
    (g : K → Nat) : keySum n T g = keySum n T' g := by
  classical
  -- over the keys themselves
  have himage : ∀ T : Table K V, Chained n home T → keySum n T g =
      ((taken n T).image fun i => (T i).map Prod.fst).sum fun k => k.elim 0 g := by
    intro T hT
    rw [Finset.sum_image]
    · exact Finset.sum_congr rfl fun i _ => by cases T i <;> rfl
    · intro i hi j hj he
      obtain ⟨hin, a, ha⟩ := mem_taken.1 hi
      obtain ⟨hjn, b, hb⟩ := mem_taken.1 hj
      simp only [ha, hb, Option.map_some, Option.some.injEq] at he
      exact hT.uniq i j a b hin hjn ha hb he
  have hmem : ∀ (T : Table K V) k, k ∈ (taken n T).image (fun i => (T i).map Prod.fst) ↔
      ∃ key, k = some key ∧ Has n T key := by
    intro T k
    rw [Finset.mem_image]
    constructor
    · rintro ⟨i, hi, rfl⟩
      obtain ⟨hin, a, ha⟩ := mem_taken.1 hi
      exact ⟨a.1, by rw [ha]; rfl, a.2, i, hin, ha⟩
    · rintro ⟨key, rfl, v, i, hin, hi⟩
      exact ⟨i, mem_taken.2 ⟨hin, _, hi⟩, by rw [hi]; rfl⟩
  rw [himage T hT, himage T' hT']
  refine Finset.sum_congr (Finset.ext fun k => ?_) fun _ _ => rfl
  rw [hmem, hmem]
  simp only [hkeys]

/-- Seen from a free slot, the way from the homes and the homes add up to the slots in use. -/
theorem Chained.displacement_add (hT : Chained n home T) (hhome : ∀ k, home k < n) (he : e < n) (hfree : T e = none) :
    displacement n home T + keySum n T (fun k => dist n e (home k)) = (taken n T).sum fun i => dist n e i := by
  have hzero : ∀ i ∈ Finset.range n, apart n home i (T i) ≠ 0 → (T i).isSome = true := by
    intro i _ h
    cases hTi : T i with
    | none => rw [hTi] at h; exact absurd rfl h
    | some a => rfl
  unfold displacement keySum
  rw [← Finset.sum_filter_of_ne hzero]
  show (taken n T).sum _ + _ = _
  rw [← Finset.sum_add_distrib]
  refine Finset.sum_congr rfl fun i hi => ?_
  obtain ⟨hin, a, ha⟩ := mem_taken.1 hi
  have := (hT.after_free hhome he hfree hin ha).2
  rw [ha]
  simp only [apart, Option.elim_some]
  omega

/-- **The way of the entries is the same in all tables of the same keys**, taken together. -/
theorem Chained.displacement_eq (hT : Chained n home T) (hT' : Chained n home T') (hhome : ∀ k, home k < n)
    (hfree : ∃ e < n, T e = none) (hfree' : ∃ e < n, T' e = none) (hkeys : ∀ k, Has n T k ↔ Has n T' k) :
    displacement n home T = displacement n home T' := by
  have htaken := hT.taken_eq hT' hhome hfree hfree' hkeys
  obtain ⟨e, he, hempty⟩ := hfree
  have hempty' : T' e = none := by
    refine Option.eq_none_iff_forall_ne_some.2 fun a ha => ?_
    have hmem : e ∈ taken n T := htaken ▸ mem_taken.2 ⟨he, a, ha⟩
    obtain ⟨-, b, hb⟩ := mem_taken.1 hmem
    rw [hempty] at hb
    cases hb
  have h1 := hT.displacement_add hhome he hempty
  have h2 := hT'.displacement_add hhome he hempty'
  rw [htaken, hT.keySum_eq hT' hkeys] at h1
  omega

end Probing
