/-
Deterministic machines that may get stuck: `step s a = none` is an operation that does not return
(a loop without end, an access to memory that is not there). Runs over lists of operations, the
invariant rule, and refinement of a total machine, also for operations with preconditions, each from
its one-step form.
-/
import Mathlib.Algebra.GroupWithZero.Nat

namespace Machine

variable {σ τ α ω : Type _}

/-- The outputs and the last state of a run; `none` when some step gets stuck. -/
def run (step : σ → α → Option (σ × ω)) : σ → List α → Option (σ × List ω)
  | s, [] => some (s, [])
  | s, a :: as => (step s a).bind fun r => (run step r.1 as).map fun q => (q.1, r.2 :: q.2)

/-- The run of a total machine. -/
def runT (step : τ → α → τ × ω) : τ → List α → τ × List ω
  | t, [] => (t, [])
  | t, a :: as =>
    let (t', o) := step t a
    let (t'', os) := runT step t' as
    (t'', o :: os)

theorem run_cons {step : σ → α → Option (σ × ω)} {s s' : σ} {a : α} {o : ω} (as : List α)
    (h : step s a = some (s', o)) :
    run step s (a :: as) = (run step s' as).map fun r => (r.1, o :: r.2) := by
  simp only [run, h, Option.bind_some]

theorem run_cons_some {step : σ → α → Option (σ × ω)} {s s'' : σ} {a : α} {as : List α} {os : List ω}
    (h : run step s (a :: as) = some (s'', os)) :
    ∃ s' o os', step s a = some (s', o) ∧ run step s' as = some (s'', os') ∧ os = o :: os' := by
  simp only [run, Option.bind_eq_some_iff, Option.map_eq_some_iff] at h
  obtain ⟨⟨s', o⟩, hs, ⟨t, os'⟩, hr, he⟩ := h
  cases he
  exact ⟨s', o, os', hs, hr, rfl⟩

/-- The steps of a run of four. -/
theorem run_four {step : σ → α → Option (σ × ω)} {s s' : σ} {a b c d : α} {o₁ o₂ o₃ o₄ : ω}
    (h : run step s [a, b, c, d] = some (s', [o₁, o₂, o₃, o₄])) :
    ∃ s₁ s₂ s₃, step s a = some (s₁, o₁) ∧ step s₁ b = some (s₂, o₂) ∧ step s₂ c = some (s₃, o₃) ∧
      step s₃ d = some (s', o₄) := by
  obtain ⟨s₁, r₁, _, h₁, h, e₁⟩ := run_cons_some h
  obtain ⟨s₂, r₂, _, h₂, h, e₂⟩ := run_cons_some h
  obtain ⟨s₃, r₃, _, h₃, h, e₃⟩ := run_cons_some h
  obtain ⟨s₄, r₄, _, h₄, h, e₄⟩ := run_cons_some h
  cases h; cases e₄; cases e₃; cases e₂; cases e₁
  exact ⟨s₁, s₂, s₃, h₁, h₂, h₃, h₄⟩

theorem run_append {step : σ → α → Option (σ × ω)} {s s' s'' : σ} {as bs : List α} {os os' : List ω}
    (h : run step s as = some (s', os)) (h' : run step s' bs = some (s'', os')) :
    run step s (as ++ bs) = some (s'', os ++ os') := by
  induction as generalizing s os with
  | nil => cases h; exact h'
  | cons a as ih =>
    obtain ⟨t, o, os₁, hs, hr, rfl⟩ := run_cons_some h
    rw [List.cons_append, run_cons _ hs, ih hr]; rfl

theorem run_append_some {step : σ → α → Option (σ × ω)} {s s'' : σ} {as bs : List α} {os : List ω}
    (h : run step s (as ++ bs) = some (s'', os)) :
    ∃ s' os₁ os₂, run step s as = some (s', os₁) ∧ run step s' bs = some (s'', os₂) ∧ os = os₁ ++ os₂ := by
  induction as generalizing s os with
  | nil => exact ⟨s, [], os, rfl, h, rfl⟩
  | cons a as ih =>
    obtain ⟨t, o, os', hs, hr, rfl⟩ := run_cons_some h
    obtain ⟨s', os₁, os₂, h1, h2, rfl⟩ := ih hr
    exact ⟨s', o :: os₁, os₂, by rw [run_cons _ hs, h1]; rfl, h2, rfl⟩

/-- An output of a run is the output of one step, between a run before and a run after it. -/
theorem run_split {step : σ → α → Option (σ × ω)} {s s'' : σ} {as : List α} {pre post : List ω} {o : ω}
    (h : run step s as = some (s'', pre ++ o :: post)) :
    ∃ as₁ a as₂ t t', as = as₁ ++ a :: as₂ ∧ run step s as₁ = some (t, pre) ∧ step t a = some (t', o) ∧
      run step t' as₂ = some (s'', post) := by
  induction as generalizing s pre with
  | nil => simp [run] at h
  | cons a as ih =>
    obtain ⟨t, o', os, hs, hr, he⟩ := run_cons_some h
    cases pre with
    | nil =>
      obtain ⟨rfl, rfl⟩ := List.cons.inj he
      exact ⟨[], a, as, s, t, rfl, rfl, hs, hr⟩
    | cons p pre =>
      obtain ⟨rfl, rfl⟩ := List.cons.inj he
      obtain ⟨as₁, a', as₂, u, u', rfl, h1, h2, h3⟩ := ih hr
      exact ⟨a :: as₁, a', as₂, u, u', rfl, by rw [run_cons _ hs, h1]; rfl, h2, h3⟩

/-- The invariant rule of a run whose outputs all meet `Q`. -/
theorem run_invariant {step : σ → α → Option (σ × ω)} {P : σ → Prop} {Q : ω → Prop}
    (hstep : ∀ s a s' o, P s → step s a = some (s', o) → Q o → P s') {s s' : σ} {as : List α} {os : List ω} (h : P s)
    (hr : run step s as = some (s', os)) (hq : ∀ o ∈ os, Q o) : P s' := by
  induction as generalizing s os with
  | nil =>
    cases hr
    exact h
  | cons a as ih =>
    obtain ⟨t, o, os', hs, hr', rfl⟩ := run_cons_some hr
    have ht : P t := hstep s a t o h hs (hq o (List.mem_cons_self ..))
    exact ih ht hr' fun x hx => hq x (List.mem_cons_of_mem _ hx)

/-- The invariant rule beside the outputs so far. -/
theorem run_history {step : σ → α → Option (σ × ω)} {P : σ → List ω → Prop} {as : List α}
    (hstep : ∀ s a s' o os, a ∈ as → P s os → step s a = some (s', o) → P s' (os ++ [o])) {s s' : σ} {os os' : List ω}
    (h : P s os) (hr : run step s as = some (s', os')) : P s' (os ++ os') := by
  induction as generalizing s os os' with
  | nil =>
    cases hr
    rw [List.append_nil]
    exact h
  | cons a as ih =>
    obtain ⟨t, o, os₁, hs, hr', rfl⟩ := run_cons_some hr
    have ht : P t (os ++ [o]) := hstep s a t o os (List.mem_cons_self ..) h hs
    have := ih (fun s b s' o os hb => hstep s b s' o os (List.mem_cons_of_mem _ hb)) ht hr'
    rwa [List.append_assoc] at this

/-- The same rule where not every step reports something. -/
theorem run_reports {ε : Type _} {step : σ → α → Option (σ × Option ε)} {P : σ → List ε → Prop} {as : List α}
    (hstep : ∀ s a s' r evs, a ∈ as → P s evs → step s a = some (s', r) → P s' (evs ++ r.toList)) {s s' : σ}
    {evs : List ε} {outs : List (Option ε)} (h : P s evs) (hr : run step s as = some (s', outs)) :
    P s' (evs ++ outs.filterMap id) := by
  have hone : ∀ (rs : List (Option ε)) r, evs ++ (rs ++ [r]).filterMap id = evs ++ rs.filterMap id ++ r.toList := by
    intro rs r
    rw [List.filterMap_append, List.append_assoc]
    cases r <;> rfl
  have hhistory : ∀ s a s' r rs, a ∈ as → P s (evs ++ rs.filterMap id) → step s a = some (s', r) →
      P s' (evs ++ (rs ++ [r]).filterMap id) := by
    intro s a s' r rs ha hP hs
    rw [hone]
    exact hstep s a s' r _ ha hP hs
  have hstart : P s (evs ++ ([] : List (Option ε)).filterMap id) := by rwa [List.filterMap_nil, List.append_nil]
  exact run_history (P := fun s rs => P s (evs ++ rs.filterMap id)) hhistory hstart hr

/-- The variant rule: where some step always lowers a bound on the work left, the work can be finished. -/
theorem run_of_variant {step : σ → α → Option (σ × ω)} {P : σ → Nat → Prop} (goal : σ → Prop)
    (hstep : ∀ s n, P s n → ¬ goal s → ∃ a s' o m, step s a = some (s', o) ∧ P s' m ∧ m < n) {s : σ} {n : Nat}
    (h : P s n) : ∃ as s' os, run step s as = some (s', os) ∧ goal s' ∧ as.length ≤ n := by
  induction n using Nat.strongRecOn generalizing s with
  | ind n ih =>
    by_cases hgoal : goal s
    · exact ⟨[], s, [], rfl, hgoal, Nat.zero_le n⟩
    · obtain ⟨a, t, o, m, hs, ht, hlt⟩ := hstep s n h hgoal
      obtain ⟨as, s', os, hr, hg, hlen⟩ := ih m hlt ht
      exact ⟨a :: as, s', o :: os, by rw [run_cons _ hs, hr]; rfl, hg, by rw [List.length_cons]; omega⟩

theorem runT_cons (step : τ → α → τ × ω) (t : τ) (a : α) (as : List α) :
    runT step t (a :: as) =
      ((runT step (step t a).1 as).1, (step t a).2 :: (runT step (step t a).1 as).2) := rfl

theorem runT_append (step : τ → α → τ × ω) (t : τ) (as bs : List α) :
    runT step t (as ++ bs) =
      ((runT step (runT step t as).1 bs).1, (runT step t as).2 ++ (runT step (runT step t as).1 bs).2) := by
  induction as generalizing t with
  | nil => rfl
  | cons a as ih => simp only [List.cons_append, runT, ih]

theorem runT_length (step : τ → α → τ × ω) (t : τ) (as : List α) : (runT step t as).2.length = as.length := by
  induction as generalizing t with
  | nil => rfl
  | cons a as ih => simp only [runT, List.length_cons, ih]

/-- An output of a run is the output of one step, between a run before and a run after it. -/
theorem runT_split {step : τ → α → τ × ω} {t : τ} {as : List α} {pre post : List ω} {o : ω}
    (h : (runT step t as).2 = pre ++ o :: post) :
    ∃ as₁ a as₂, as = as₁ ++ a :: as₂ ∧ pre = (runT step t as₁).2 ∧ o = (step (runT step t as₁).1 a).2 ∧
      post = (runT step (step (runT step t as₁).1 a).1 as₂).2 := by
  induction as generalizing t pre with
  | nil => simp [runT] at h
  | cons a as ih =>
    cases pre with
    | nil =>
      simp only [runT, List.nil_append, List.cons.injEq] at h
      exact ⟨[], a, as, rfl, rfl, h.1.symm, h.2.symm⟩
    | cons p pre =>
      simp only [runT, List.cons_append, List.cons.injEq] at h
      obtain ⟨as₁, a', as₂, rfl, rfl, h3, h4⟩ := ih h.2
      exact ⟨a :: as₁, a', as₂, rfl, by simp only [runT, h.1], h3, h4⟩

/-- The invariant rule of a total machine. -/
theorem runT_invariant {step : τ → α → τ × ω} {P : τ → Prop} (hstep : ∀ t a, P t → P (step t a).1) {t : τ}
    (h : P t) (as : List α) : P (runT step t as).1 := by
  induction as generalizing t with
  | nil => exact h
  | cons a as ih => exact ih (hstep t a h)

/-- The same rule with a count of what the steps put out. -/
theorem runT_count {step : τ → α → τ × ω} {P : τ → Nat → Prop} {w : ω → Nat}
    (hstep : ∀ t a n, P t n → P (step t a).1 (n + w (step t a).2)) {t : τ} {n : Nat} (h : P t n) (as : List α) :
    P (runT step t as).1 (n + ((runT step t as).2.map w).sum) := by
  induction as generalizing t n with
  | nil => exact h
  | cons a as ih =>
    have := ih (hstep t a n h)
    simpa only [runT, List.map_cons, List.sum_cons, Nat.add_assoc] using this

/-- The potential rule: what steps cost is paid by their credit and by what they take off the potential. -/
theorem runT_potential (step : τ → α → τ × ω) (cost credit : ω → Nat) (potential : τ → Nat)
    (hstep : ∀ t a, cost (step t a).2 + potential (step t a).1 ≤ potential t + credit (step t a).2) (t : τ)
    (as : List α) :
    ((runT step t as).2.map cost).sum + potential (runT step t as).1 ≤
      potential t + ((runT step t as).2.map credit).sum := by
  induction as generalizing t with
  | nil => exact Nat.le_of_eq (Nat.add_comm ..)
  | cons a as ih =>
    have hhead := hstep t a
    have htail := ih (step t a).1
    simp only [runT, List.map_cons, List.sum_cons]
    omega

/-- A translation of states, operations and outputs that one step respects is respected by runs. -/
theorem runT_map {υ β ρ : Type _} {step : τ → α → τ × ω} {step' : υ → β → υ × ρ} {f : τ → υ} {g : α → β} {k : ω → ρ}
    (hstep : ∀ t a, step' (f t) (g a) = (f (step t a).1, k (step t a).2)) (t : τ) (as : List α) :
    runT step' (f t) (as.map g) = (f (runT step t as).1, (runT step t as).2.map k) := by
  induction as generalizing t with
  | nil => rfl
  | cons a as ih => simp only [List.map_cons, runT, hstep, ih]

/-- A machine that passes operations on keeps in step with one that is given them. -/
theorem runT_forward {β υ : Type _} {step : τ → α → τ × List β} {step' : υ → β → υ × ω} {R : τ → υ → Prop}
    (hstep : ∀ t u a, R t u → R (step t a).1 (runT step' u (step t a).2).1) {t : τ} {u : υ} (h : R t u)
    (as : List α) : R (runT step t as).1 (runT step' u (runT step t as).2.flatten).1 := by
  induction as generalizing t u with
  | nil => exact h
  | cons a as ih =>
    have := ih (hstep t u a h)
    simpa only [runT, List.flatten_cons, runT_append] using this

/-! ## Refinement -/

/-- `step` refines `spec` along `R`: from related states it returns, with the same output, and
ends in related states. -/
def Refines (step : σ → α → Option (σ × ω)) (spec : τ → α → τ × ω) (R : σ → τ → Prop) : Prop :=
  ∀ s t a, R s t → ∃ s', step s a = some (s', (spec t a).2) ∧ R s' (spec t a).1

/-- Refinement of one step gives refinement of whole runs. -/
theorem Refines.run {step : σ → α → Option (σ × ω)} {spec : τ → α → τ × ω} {R : σ → τ → Prop}
    (h : Refines step spec R) {s : σ} {t : τ} (hR : R s t) (as : List α) :
    ∃ s', run step s as = some (s', (runT spec t as).2) ∧ R s' (runT spec t as).1 := by
  induction as generalizing s t with
  | nil => exact ⟨s, rfl, hR⟩
  | cons a as ih =>
    obtain ⟨s', hs, hR'⟩ := h s t a hR
    obtain ⟨s'', hr, hR''⟩ := ih hR'
    exact ⟨s'', by rw [run_cons _ hs, hr]; rfl, hR''⟩

/-! ## Operations with preconditions -/

/-- Every operation is allowed in the state that `spec` has come to. -/
def Allowed (ok : τ → α → Prop) (spec : τ → α → τ) : τ → List α → Prop
  | _, [] => True
  | t, a :: as => ok t a ∧ Allowed ok spec (spec t a) as

/-- Steps that follow `spec` where it allows them make a run that does. -/
theorem foldlM_follows {step : σ → α → Option σ} {spec : τ → α → τ} {ok : τ → α → Prop} {R : σ → τ → Prop}
    (hstep : ∀ s t a, R s t → ok t a → ∃ s', step s a = some s' ∧ R s' (spec t a)) {s : σ} {t : τ} {as : List α}
    (h : R s t) (hok : Allowed ok spec t as) : ∃ s', as.foldlM step s = some s' ∧ R s' (as.foldl spec t) := by
  induction as generalizing s t with
  | nil => exact ⟨s, rfl, h⟩
  | cons a as ih =>
    obtain ⟨s', hs, h'⟩ := hstep s t a h hok.1
    obtain ⟨s'', hr, h''⟩ := ih h' hok.2
    exact ⟨s'', by rw [List.foldlM_cons, hs]; exact hr, h''⟩

end Machine
