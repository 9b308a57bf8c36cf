/-
`reserve(n)` and the calls after it: while at most `n` keys are live, a new key never makes the
table rehash; an overwrite of a key does when `n` keys are live and `n + 1` would reach the load
limit, because `insert` tests the limit before it looks for the key.
-/
import OrderBookEngine.Index.FiniteMap

namespace Obe.FlatHashMap

variable {Value : Type} [Inhabited Value]

/-- A call of a run, with the tables before and after it. -/
structure Stage (Value : Type) where
  before : FlatHashMap UInt64 Value
  made : Call Value
  after : FlatHashMap UInt64 Value

def stages : FlatHashMap UInt64 Value → List (Call Value) → List (Stage Value)
  | _, [] => []
  | m, c :: calls => match m.call c with
    | some (m', _) => ⟨m, c, m'⟩ :: stages m' calls
    | none => []

/-- The branch of `insert` that rehashes. -/
def Stage.Rehashes (s : Stage Value) : Prop :=
  ∃ key v, s.made = .insert key v ∧ (s.before.size + 1) * 8 ≥ s.before.capacity * 7

/-- The call overwrites the value of a key that is there. -/
def Stage.Overwrites (s : Stage Value) : Prop :=
  ∃ key v, s.made = .insert key v ∧ s.before.contains key = some true

/-- At most `n` keys are live before and after each call. -/
def Within (n : Nat) (ss : List (Stage Value)) : Prop := ∀ s ∈ ss, s.before.size ≤ n ∧ s.after.size ≤ n

/-- No call rehashes: the arrays and their number of slots stay. -/
def Steady (cap : Nat) (ss : List (Stage Value)) : Prop := ∀ s ∈ ss, ¬ s.Rehashes ∧ s.after.capacity = cap

/-- Values are overwritten at `n` live keys only where one more key would fit. -/
def OverwritesFit (n cap : Nat) (ss : List (Stage Value)) : Prop :=
  ∀ s ∈ ss, s.Overwrites → s.before.size = n → (n + 1) * 8 < cap * 7

variable {m m' : FlatHashMap UInt64 Value} {c : Call Value} {calls : List (Call Value)} {r : Ret Value} {n cap : Nat}

theorem stages_cons (h : m.call c = some (m', r)) : stages m (c :: calls) = ⟨m, c, m'⟩ :: stages m' calls := by
  simp only [stages, h]

/-- A call other than `reserve` and `insert` keeps the slots. -/
theorem call_capacity (h : m.call c = some (m', r)) (hr : ∀ k, c ≠ .reserve k) (hi : ∀ key v, c ≠ .insert key v) :
    m'.capacity = m.capacity := by
  cases c with
  | reserve k => exact absurd rfl (hr k)
  | insert key v => exact absurd rfl (hi key v)
  | find key =>
    obtain ⟨i, -, he⟩ := Option.map_eq_some_iff.1 h
    cases he
    rfl
  | contains key =>
    obtain ⟨b, -, he⟩ := Option.map_eq_some_iff.1 h
    cases he
    rfl
  | erase key =>
    obtain ⟨⟨b, m₁⟩, h₁, he⟩ := Option.map_eq_some_iff.1 h
    cases he
    exact erase_capacity h₁
  | size =>
    cases h
    rfl

/-- What an `insert` does to the number of slots and of keys. -/
theorem WF.call_insert (h : m.WF) {key : UInt64} {v : Value} (hc : m.call (.insert key v) = some (m', r)) :
    m'.size = (if (m.lookup key).isSome then m.size else m.size + 1) ∧
      m'.capacity = (if (m.size + 1) * 8 < m.capacity * 7 then m.capacity else m.capacity * 2) := by
  obtain ⟨m₁, h₁, -, -, hsize, hcap⟩ := h.insert_spec key v
  rw [call, h₁] at hc
  cases hc
  exact ⟨hsize, hcap⟩

/-- One call at `n` live keys or fewer: it keeps the slots unless it overwrites a key at `n` of them. -/
theorem WF.stage_steady (h : m.WF) (hroom : n * 8 < m.capacity * 7) (hc : m.call c = some (m', r))
    (hr : ∀ k, c ≠ .reserve k) (hb : m.size ≤ n) (ha : m'.size ≤ n) :
    (¬ (Stage.mk m c m').Rehashes ∧ m'.capacity = m.capacity) ↔
      ((Stage.mk m c m').Overwrites → m.size = n → (n + 1) * 8 < m.capacity * 7) := by
  by_cases hi : ∃ key v, c = .insert key v
  · obtain ⟨key, v, rfl⟩ := hi
    obtain ⟨hsize, hcap⟩ := h.call_insert hc
    have hmem : m.contains key = some (m.lookup key).isSome := h.contains_eq key
    constructor
    · rintro ⟨hno, -⟩ - rfl
      by_contra hlt
      exact hno ⟨key, v, rfl, by show (m.size + 1) * 8 ≥ m.capacity * 7; omega⟩
    · intro hfit
      have hin : (m.size + 1) * 8 < m.capacity * 7 := by
        cases hl : (m.lookup key).isSome with
        | false =>
          -- the key is new: one more is live afterwards, and that is at most `n`
          rw [hl, if_neg (by simp)] at hsize
          omega
        | true =>
          by_cases hn : m.size = n
          · rw [hn]
            exact hfit ⟨key, v, rfl, by rw [← hl]; exact hmem⟩ hn
          · omega
      refine ⟨?_, by rw [hcap, if_pos hin]⟩
      rintro ⟨key', v', -, hge⟩
      exact absurd hge (Nat.not_le.2 hin)
  · have hi' : ∀ key v, c ≠ .insert key v := fun key v he => hi ⟨key, v, he⟩
    constructor
    · rintro - ⟨key, v, he, -⟩
      exact absurd he (hi' key v)
    · refine fun _ => ⟨?_, call_capacity hc hr hi'⟩
      rintro ⟨key, v, he, -⟩
      exact hi' key v he

theorem forall_stages_cons {P : Stage Value → Prop} (h : m.call c = some (m', r)) :
    (∀ s ∈ stages m (c :: calls), P s) ↔ P ⟨m, c, m'⟩ ∧ ∀ s ∈ stages m' calls, P s := by
  rw [stages_cons h, List.forall_mem_cons]

/-- Every call of the table's clients returns a well-formed table. -/
theorem WF.call_wf (h : m.WF) (c : Call Value) : ∃ m' r, m.call c = some (m', r) ∧ m'.WF := by
  cases c with
  | reserve k =>
    obtain ⟨m', hr, hwf, -⟩ := h.reserve_spec k
    exact ⟨m', .done, by rw [call, hr]; rfl, hwf⟩
  | insert key v =>
    obtain ⟨m', hr, hwf, -⟩ := h.insert_spec key v
    exact ⟨m', .done, by rw [call, hr]; rfl, hwf⟩
  | find key =>
    obtain ⟨i, hr, -⟩ := h.find_lookup key
    exact ⟨m, _, by rw [call, hr]; rfl, h⟩
  | contains key => exact ⟨m, _, by rw [call, h.contains_eq]; rfl, h⟩
  | erase key =>
    obtain ⟨m', hr, hwf, -⟩ := h.erase_spec key
    exact ⟨m', _, by rw [call, hr]; rfl, hwf⟩
  | size => exact ⟨m, _, rfl, h⟩

/-- The run: it is steady exactly when the overwrites at `n` keys fit. -/
theorem WF.stages_steady (h : m.WF) (hcap : m.capacity = cap) (hroom : n * 8 < cap * 7)
    (hr : ∀ k, Call.reserve k ∉ calls) (hn : Within n (stages m calls)) :
    Steady cap (stages m calls) ↔ OverwritesFit n cap (stages m calls) := by
  induction calls generalizing m with
  | nil => simp [stages, Steady, OverwritesFit]
  | cons c calls ih =>
    obtain ⟨m', r, hc, hwf⟩ := h.call_wf c
    have hstep := (forall_stages_cons hc).1 hn
    have hcr : ∀ k, c ≠ .reserve k := fun k he => hr k (he ▸ List.mem_cons_self ..)
    have hone := h.stage_steady (by rw [hcap]; exact hroom) hc hcr hstep.1.1 hstep.1.2
    rw [hcap] at hone
    have hrest : m'.capacity = cap → (Steady cap (stages m' calls) ↔ OverwritesFit n cap (stages m' calls)) :=
      fun hcap' => ih hwf hcap' (fun k hk => hr k (List.mem_cons_of_mem _ hk)) hstep.2
    rw [Steady, OverwritesFit, forall_stages_cons hc, forall_stages_cons hc]
    constructor
    · rintro ⟨h1, h2⟩
      exact ⟨hone.1 h1, (hrest h1.2).1 h2⟩
    · rintro ⟨h1, h2⟩
      have h1' := hone.2 h1
      exact ⟨h1', (hrest h1'.2).2 h2⟩

/-! ## Tables -/

/-- The constructor's table for a capacity that wraps when it is rounded up: it has no slots, and
`reserve` is the one call that does not read them. -/
theorem ofCapacity_wrap {k : UInt64} (hk : 2 ^ 63 < k.toNat) :
    (ofCapacity k : Option (FlatHashMap UInt64 Value)) = some (cleared 0) := by
  have h8 : ¬ k < 8 := by
    intro hlt
    have : k.toNat < 8 := UInt64.lt_iff_toNat_lt.1 hlt
    omega
  unfold ofCapacity
  rw [if_neg h8, roundUpPow2_wrap hk]
  rfl

theorem WF.reserve_capacity (h : m.WF) {n : UInt64} (hr : m.reserve n = some m') :
    m'.capacity = max m.capacity (roundUpPow2 (n * 8 / 7 + 1)).toNat := by
  obtain ⟨hle, -⟩ := reserve_need n
  obtain ⟨j, hj, -, hp, -⟩ := roundUpPow2_spec hle
  unfold reserve at hr
  dsimp only at hr
  split at hr
  · rename_i hgt
    have hload := h.load
    obtain ⟨m₁, hr₁, -, -, hcap, -⟩ := h.rehashWith_spec ⟨j, hj, hp⟩ (by omega) 63
    obtain rfl : m₁ = m' := Option.some.inj (hr₁.symm.trans hr)
    exact hcap.trans (Nat.max_eq_right (Nat.le_of_lt hgt)).symm
  · rename_i hgt
    cases hr
    exact (Nat.max_eq_left (Nat.not_lt.1 hgt)).symm

/-- `reserve` after the constructor and any calls; a table of no slots has had no call before. -/
theorem reserve_table {k : UInt64} {before : List (Call Value)} (hk : k.toNat ≤ 2 ^ 63 ∨ before = []) (n : UInt64) :
    ∃ m rets m₁, ((ofCapacity k).bind fun m₀ => Machine.run call m₀ before) = some (m, rets) ∧
      m.reserve n = some m₁ ∧ m₁.WF ∧ m₁.capacity = max m.capacity (roundUpPow2 (n * 8 / 7 + 1)).toNat ∧
      (n.toNat * 8 < 2 ^ 64 → n.toNat * 8 < m₁.capacity * 7) := by
  by_cases hle : k.toNat ≤ 2 ^ 63
  · obtain ⟨m, hm, hR⟩ := run_eq_finmap hle before
    obtain ⟨m₁, h1, hwf, -, -, hroom⟩ := hR.wf.reserve_spec n
    exact ⟨m, _, m₁, hm, h1, hwf, hR.wf.reserve_capacity h1, hroom⟩
  · obtain rfl := hk.resolve_left hle
    obtain ⟨hbound, hroom⟩ := reserve_need n
    obtain ⟨j, hj, -, hp, hge⟩ := roundUpPow2_spec hbound
    have hpos : (roundUpPow2 (n * 8 / 7 + 1)).toNat > 0 := by
      rw [hp]
      exact Nat.two_pow_pos j
    refine ⟨cleared 0, [], cleared (roundUpPow2 (n * 8 / 7 + 1)).toNat, ?_, ?_, cleared_wf ⟨j, hj, hp⟩,
      (Nat.zero_max _).symm, fun hn => ?_⟩
    · rw [ofCapacity_wrap (by omega)]
      rfl
    · unfold reserve
      exact if_pos hpos
    · have := hroom hn
      show n.toNat * 8 < (roundUpPow2 (n * 8 / 7 + 1)).toNat * 7
      omega

/-- **After `reserve(n)`**, a run of calls that keeps at most `n` keys live does not rehash exactly
when it overwrites no key at `n` live keys, or one more key would still fit in the larger of the slots there
were and those that `n` asks for. -/
theorem reserve_steady_iff {k n : UInt64} (before : List (Call Value)) (hk : k.toNat ≤ 2 ^ 63 ∨ before = [])
    (hn : n.toNat * 8 < 2 ^ 64) :
    ∃ m rets m₁, ((ofCapacity k).bind fun m₀ => Machine.run call m₀ before) = some (m, rets) ∧
      m.reserve n = some m₁ ∧ m₁.capacity = max m.capacity (roundUpPow2 (n * 8 / 7 + 1)).toNat ∧
      ∀ calls, (∀ j, Call.reserve j ∉ calls) → Within n.toNat (stages m₁ calls) →
        (Steady m₁.capacity (stages m₁ calls) ↔
          OverwritesFit n.toNat (max m.capacity (roundUpPow2 (n * 8 / 7 + 1)).toNat) (stages m₁ calls)) := by
  obtain ⟨m, rets, m₁, h1, h2, hwf, hcap, hroom⟩ := reserve_table hk n
  refine ⟨m, rets, m₁, h1, h2, hcap, fun calls hr hin => ?_⟩
  rw [← hcap]
  exact hwf.stages_steady rfl (hroom hn) hr hin

theorem reserve_steady_iff_six :
    ∃ m rets m₁, ((ofCapacity 8 : Option (FlatHashMap UInt64 Nat)).bind fun m₀ =>
        Machine.run call m₀ [.insert 40 1, .erase 40]) = some (m, rets) ∧
      m.reserve 6 = some m₁ ∧ m₁.capacity = max m.capacity (roundUpPow2 (6 * 8 / 7 + 1)).toNat ∧
      ∀ calls, (∀ j, Call.reserve j ∉ calls) → Within (6 : UInt64).toNat (stages m₁ calls) →
        (Steady m₁.capacity (stages m₁ calls) ↔ OverwritesFit (6 : UInt64).toNat
          (max m.capacity (roundUpPow2 (6 * 8 / 7 + 1)).toNat) (stages m₁ calls)) :=
  reserve_steady_iff [.insert 40 1, .erase 40] (.inl (by decide)) (by decide)

/-- Six keys in the eight slots that `reserve(6)` leaves, then the first key again. -/
def fillThenOverwrite : List (Call Nat) :=
  [.insert 1 10, .insert 2 20, .insert 3 30, .insert 4 40, .insert 5 50, .insert 6 60, .insert 1 11]

theorem fillThenOverwrite_stages :
    (stages (cleared 8) fillThenOverwrite).map (fun s => (s.before.size, s.after.size, s.after.capacity)) =
      [(0, 1, 8), (1, 2, 8), (2, 3, 8), (3, 4, 8), (4, 5, 8), (5, 6, 8), (6, 6, 16)] := by
  decide

/-- The overwrite at six live keys doubles the slots. -/
theorem overwrite_rehashes :
    ¬ ∀ (m m₁ : FlatHashMap UInt64 Nat) (calls : List (Call Nat)), ofCapacity 8 = some m → m.reserve 6 = some m₁ →
      (∀ j, Call.reserve j ∉ calls) → Within 6 (stages m₁ calls) → Steady m₁.capacity (stages m₁ calls) := by
  intro h
  have hsteady : Steady 8 (stages (cleared 8) fillThenOverwrite) := by
    refine h (cleared 8) (cleared 8) fillThenOverwrite rfl rfl (by simp [fillThenOverwrite]) fun s hs => ?_
    have hm := List.mem_map_of_mem (f := fun s => (s.before.size, s.after.size, s.after.capacity)) hs
    rw [fillThenOverwrite_stages] at hm
    simp only [List.mem_cons, List.not_mem_nil, or_false, Prod.mk.injEq] at hm
    omega
  have hlast : (6, 6, 16) ∈ (stages (cleared 8) fillThenOverwrite).map
      (fun s => (s.before.size, s.after.size, s.after.capacity)) := by
    rw [fillThenOverwrite_stages]
    decide
  obtain ⟨s, hs, he⟩ := List.mem_map.1 hlast
  have := (hsteady s hs).2
  simp only [Prod.mk.injEq] at he
  omega

end Obe.FlatHashMap
