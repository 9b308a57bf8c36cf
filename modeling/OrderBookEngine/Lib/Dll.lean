/-
Doubly linked lists in a heap, over any type of addresses: `Dll next prev head tail L` says that
the two link functions, the head and the tail represent the sequence `L`. The links of a member
are stated at every cut of `L` around it, so a splice is a case analysis on where the cut falls.
-/
import Mathlib.Data.List.Nodup

section Dll

variable {P : Type}

/-- `head`, `tail` and the links of the members of `L` spell out `L`. -/
structure Dll (next prev : P → Option P) (head tail : Option P) (L : List P) : Prop where
  head_eq : head = L.head?
  tail_eq : tail = L.getLast?
  nodup : L.Nodup
  links : ∀ l₁ p l₂, L = l₁ ++ p :: l₂ → prev p = l₁.getLast? ∧ next p = l₂.head?

/-- The addresses met by following `next` from an address to null, in at most `fuel` steps. -/
def walk (next : P → Option P) : Nat → Option P → Option (List P)
  | _, none => some []
  | 0, some _ => none
  | fuel + 1, some p => (walk next fuel (next p)).map (p :: ·)

namespace Dll

variable {next prev next' prev' : P → Option P} {head tail : Option P} {L l₁ l₂ : List P} {p : P}

theorem nil (next prev : P → Option P) : Dll next prev none none [] :=
  ⟨rfl, rfl, List.nodup_nil, by intro l₁ p l₂ h; cases l₁ <;> cases h⟩

theorem congr (h : Dll next prev head tail L) (hn : ∀ q ∈ L, next' q = next q) (hp : ∀ q ∈ L, prev' q = prev q) :
    Dll next' prev' head tail L := by
  refine ⟨h.head_eq, h.tail_eq, h.nodup, fun l₁ p l₂ hL => ?_⟩
  have hmem : p ∈ L := by rw [hL]; exact List.mem_append_right _ (List.mem_cons_self ..)
  rw [hn p hmem, hp p hmem]
  exact h.links l₁ p l₂ hL

theorem head_eq_none (h : Dll next prev head tail L) : head = none ↔ L = [] := by
  rw [h.head_eq, List.head?_eq_none_iff]

theorem tail_eq_none (h : Dll next prev head tail L) : tail = none ↔ L = [] := by
  rw [h.tail_eq, List.getLast?_eq_none_iff]

/-! ## Walks -/

theorem walk_suffix (h : Dll next prev head tail L) :
    ∀ (l₂ l₁ : List P), L = l₁ ++ l₂ → ∀ fuel, l₂.length ≤ fuel → walk next fuel l₂.head? = some l₂
  | [], _, _, fuel, _ => by cases fuel <;> rfl
  | p :: l₂, l₁, hL, fuel, hf => by
    obtain ⟨n, rfl⟩ : ∃ n, fuel = n + 1 := ⟨fuel - 1, by simp only [List.length_cons] at hf; omega⟩
    have ih := walk_suffix h l₂ (l₁ ++ [p]) (by simpa using hL) n (by simpa using hf)
    simp only [List.head?_cons, walk, (h.links l₁ p l₂ hL).2, ih, Option.map_some]

/-- The forward walk visits the sequence. -/
theorem walk_next (h : Dll next prev head tail L) {fuel : Nat} (hf : L.length ≤ fuel) :
    walk next fuel head = some L := by
  rw [h.head_eq]; exact h.walk_suffix L [] rfl fuel hf

/-- A list read backwards is a list with its two ends and its two links exchanged. -/
theorem symm (h : Dll next prev head tail L) : Dll prev next tail head L.reverse := by
  refine ⟨by rw [h.tail_eq, List.head?_reverse], by rw [h.head_eq, List.getLast?_reverse],
    List.nodup_reverse.2 h.nodup, fun l₁ p l₂ hL => ?_⟩
  have hL' : L = l₂.reverse ++ p :: l₁.reverse := by
    have := congrArg List.reverse hL
    simpa using this
  obtain ⟨h1, h2⟩ := h.links _ _ _ hL'
  exact ⟨by rw [h2, List.head?_reverse], by rw [h1, List.getLast?_reverse]⟩

/-- The backward walk visits the reversed sequence. -/
theorem walk_prev (h : Dll next prev head tail L) {fuel : Nat} (hf : L.length ≤ fuel) :
    walk prev fuel tail = some L.reverse :=
  h.symm.walk_next (by simpa using hf)

/-! ## Splices -/

theorem getLast?_append_cons (l₁ l₂ : List P) (p : P) : (l₁ ++ p :: l₂).getLast? = (p :: l₂).getLast? := by
  rw [List.getLast?_append, List.getLast?_cons]; rfl

/-- Appending a new address behind the tail. -/
theorem snoc (h : Dll next prev head tail L) (hp : p ∉ L) (hpn : next' p = none) (hpp : prev' p = tail)
    (hlast : ∀ t, tail = some t → next' t = some p) (hn : ∀ q ∈ L, tail ≠ some q → next' q = next q)
    (hpr : ∀ q ∈ L, prev' q = prev q) :
    Dll next' prev' (if tail = none then some p else head) (some p) (L ++ [p]) := by
  refine ⟨?_, by simp, List.nodup_append.2 ⟨h.nodup, List.nodup_singleton _, ?_⟩, fun l₁ q l₂ hL => ?_⟩
  · by_cases ht : tail = none
    · rw [if_pos ht, h.tail_eq_none.1 ht]; rfl
    · have hne : L ≠ [] := fun e => ht (h.tail_eq_none.2 e)
      rw [if_neg ht, h.head_eq]
      cases L with
      | nil => exact absurd rfl hne
      | cons => rfl
  · rintro a ha b hb rfl
    rw [List.mem_singleton] at hb
    exact hp (hb ▸ ha)
  · rcases List.eq_nil_or_concat l₂ with rfl | ⟨l₂, y, rfl⟩
    · -- the new address itself
      obtain ⟨rfl, hq⟩ := List.append_inj' hL rfl
      cases hq
      exact ⟨by rw [hpp, h.tail_eq], hpn⟩
    · rw [List.concat_eq_append, ← List.cons_append, ← List.append_assoc] at hL
      obtain ⟨rfl, hy⟩ := List.append_inj' hL rfl
      cases hy
      have hmem : q ∈ l₁ ++ q :: l₂ := List.mem_append_right _ (List.mem_cons_self ..)
      obtain ⟨h1, h2⟩ := h.links _ _ _ rfl
      refine ⟨by rw [hpr q hmem, h1], ?_⟩
      rcases List.eq_nil_or_concat l₂ with rfl | ⟨l₂, y, rfl⟩
      · -- the old tail
        rw [hlast q (by rw [h.tail_eq]; simp)]; rfl
      · rw [hn q hmem, h2]
        · cases l₂ <;> rfl
        · rw [h.tail_eq, List.concat_eq_append, getLast?_append_cons, ← List.cons_append, List.getLast?_concat]
          intro hyq
          have hnd := h.nodup
          rw [List.concat_eq_append, List.nodup_append, List.nodup_cons] at hnd
          cases hyq
          exact hnd.2.1.1 (List.mem_append_right _ (List.mem_singleton_self _))

/-- Splicing out an address anywhere in the sequence: its two neighbours, or the two ends where
it has none, take over its links. -/
theorem remove (h : Dll next prev head tail (l₁ ++ p :: l₂)) (hlast : ∀ a, prev p = some a → next' a = next p)
    (hhead : ∀ b, next p = some b → prev' b = prev p)
    (hn : ∀ q ∈ l₁ ++ l₂, prev p ≠ some q → next' q = next q)
    (hp : ∀ q ∈ l₁ ++ l₂, next p ≠ some q → prev' q = prev q) :
    Dll next' prev' (if prev p = none then next p else head) (if next p = none then prev p else tail)
      (l₁ ++ l₂) := by
  obtain ⟨hpp, hpn⟩ := h.links l₁ p l₂ rfl
  have hnd := h.nodup
  have hnd' := List.nodup_append.1 hnd
  have hnd₂ := List.nodup_cons.1 hnd'.2.1
  refine ⟨?_, ?_, ?_, fun a q b hL => ?_⟩
  · rw [h.head_eq, hpp, hpn]
    cases l₁ with
    | nil => rfl
    | cons x l₁ => rw [if_neg (by rw [List.getLast?_cons]; simp)]; rfl
  · rw [h.tail_eq, hpp, hpn]
    cases l₂ with
    | nil => simp
    | cons x l₂ =>
      rw [if_neg (by simp), getLast?_append_cons, getLast?_append_cons, List.getLast?_cons_cons]
  · exact List.nodup_append.2 ⟨hnd'.1, hnd₂.2, fun x hx y hy => hnd'.2.2 x hx y (List.mem_cons_of_mem _ hy)⟩
  · have hmem : q ∈ l₁ ++ l₂ := by rw [hL]; exact List.mem_append_right _ (List.mem_cons_self ..)
    -- the cut falls behind `p` (the member is in `l₂`) or in front of it (it is in `l₁`)
    have hcut : (∃ a', a = l₁ ++ a' ∧ l₂ = a' ++ q :: b) ∨ (∃ c, l₁ = a ++ q :: c ∧ b = c ++ l₂) := by
      rcases List.append_eq_append_iff.1 hL with ⟨a', h1, h2⟩ | ⟨c, h1, h2⟩
      · exact .inl ⟨a', h1, h2⟩
      · cases c with
        | nil => exact .inl ⟨[], by simpa using h1.symm, by simpa using h2.symm⟩
        | cons x c => cases h2; exact .inr ⟨c, h1, rfl⟩
    rcases hcut with ⟨a', rfl, rfl⟩ | ⟨c, rfl, rfl⟩
    · obtain ⟨h1, h2⟩ := h.links (l₁ ++ p :: a') q b (by simp)
      constructor
      · cases a' with
        | nil => rw [hhead q (by rw [hpn]; rfl), hpp, List.append_nil]
        | cons x a' =>
          have hxq : next p ≠ some q := by
            rw [hpn]; rintro hx; cases hx
            exact (List.nodup_cons.1 hnd₂.2).1 (by simp)
          rw [hp q hmem hxq, h1, getLast?_append_cons, getLast?_append_cons, List.getLast?_cons_cons]
      · rw [hn q hmem, h2]
        rw [hpp]; intro hq
        exact hnd'.2.2 q (List.mem_of_getLast? hq) q (by simp) rfl
    · obtain ⟨h1, h2⟩ := h.links a q (c ++ p :: l₂) (by simp)
      constructor
      · rw [hp q hmem, h1]
        rw [hpn]; intro hq
        exact hnd'.2.2 q (by simp) q (List.mem_cons_of_mem _ (List.mem_of_head? hq)) rfl
      · rcases List.eq_nil_or_concat c with rfl | ⟨c, y, rfl⟩
        · rw [hlast q (by rw [hpp]; simp), hpn]; rfl
        · have hyq : prev p ≠ some q := by
            rw [hpp, List.concat_eq_append, getLast?_append_cons, ← List.cons_append, List.getLast?_concat]
            intro hy; cases hy
            have := (List.nodup_append.1 hnd'.1).2.1
            rw [List.concat_eq_append, List.nodup_cons] at this
            exact this.1 (by simp)
          rw [hn q hmem hyq, h2]
          cases c <;> rfl

end Dll

end Dll
