/-
Greedy allocation: a quantity is handed out over capacities, front to back, each taking what is left
up to itself. Where costs rise from front to back, no other way of handing out as much is cheaper.
-/
import Mathlib.Data.List.Forall2
import Mathlib.Tactic.Linarith
import Mathlib.Tactic.Ring

namespace Allot

/-- What each capacity takes of `q`. -/
def shares : Nat → List Nat → List Nat
  | _, [] => []
  | q, c :: cs => min c q :: shares (q - c) cs

variable {q q' : Nat} {cs cs' xs : List Nat}

@[simp] theorem shares_nil (q : Nat) : shares q [] = [] := rfl

@[simp] theorem shares_cons (q c : Nat) (cs : List Nat) : shares q (c :: cs) = min c q :: shares (q - c) cs := rfl

@[simp] theorem length_shares (q : Nat) (cs : List Nat) : (shares q cs).length = cs.length := by
  induction cs generalizing q with
  | nil => rfl
  | cons c cs ih => rw [shares_cons, List.length_cons, ih, List.length_cons]

/-- As much as there is, or as there is room for. -/
theorem sum_shares (q : Nat) (cs : List Nat) : (shares q cs).sum = min q cs.sum := by
  induction cs generalizing q with
  | nil => simp
  | cons c cs ih =>
    rw [shares_cons, List.sum_cons, List.sum_cons, ih]
    omega

theorem shares_append (q : Nat) (cs cs' : List Nat) :
    shares q (cs ++ cs') = shares q cs ++ shares (q - cs.sum) cs' := by
  induction cs generalizing q with
  | nil => simp
  | cons c cs ih => rw [List.cons_append, shares_cons, shares_cons, ih, List.sum_cons, Nat.sub_sub, List.cons_append]

/-- Only what is handed out matters. -/
theorem shares_min (q : Nat) (cs : List Nat) : shares (min q cs.sum) cs = shares q cs := by
  induction cs generalizing q with
  | nil => rfl
  | cons c cs ih =>
    have htail : min q (c + cs.sum) - c = min (q - c) cs.sum := by omega
    have hhead : min c (min q (c + cs.sum)) = min c q := by omega
    rw [List.sum_cons, shares_cons, shares_cons, hhead, htail, ih]

/-! ## Cost -/

/-- What some quantities cost at some unit prices. -/
def cost (xs : List Nat) (ps : List Int) : Int := (List.zipWith (fun (x : Nat) (p : Int) => x * p) xs ps).sum

@[simp] theorem cost_cons (x : Nat) (xs : List Nat) (p : Int) (ps : List Int) :
    cost (x :: xs) (p :: ps) = x * p + cost xs ps := by simp [cost]

theorem cost_append (ys : List Nat) {ps : List Int} (qs : List Int) (h : xs.length = ps.length) :
    cost (xs ++ ys) (ps ++ qs) = cost xs ps + cost ys qs := by
  unfold cost
  rw [List.zipWith_append h, List.sum_append]

/-- The exchange argument: what another allocation puts further back costs at least `p` each. -/
theorem cost_shares_add {p : Int} {ps : List Int} {d : Nat} (hp : ∀ p' ∈ ps, p ≤ p') (hsorted : ps.Pairwise (· ≤ ·))
    (hlen : cs.length = ps.length) (hx : List.Forall₂ (· ≤ ·) xs cs) (hsum : xs.sum = (shares q cs).sum + d) :
    cost (shares q cs) ps + d * p ≤ cost xs ps := by
  induction hx generalizing q ps d p with
  | nil =>
    obtain rfl : d = 0 := by simpa using hsum.symm
    simp
  | @cons x c xs cs hxc _ ih =>
    obtain _ | ⟨p₁, ps⟩ := ps
    · simp at hlen
    obtain ⟨hhead, hsorted⟩ := List.pairwise_cons.1 hsorted
    have hpp : p ≤ p₁ := hp p₁ (List.mem_cons_self ..)
    rw [shares_cons, List.sum_cons, List.sum_cons] at hsum
    have hrest := sum_shares (q - c) cs
    -- the rest has what the head leaves to it
    have hle : (shares (q - c) cs).sum ≤ xs.sum := by omega
    obtain ⟨d', hd'⟩ := Nat.exists_eq_add_of_le hle
    have hstep := ih hhead hsorted (by simpa using hlen) hd'
    have hd : (d' : Int) = (min c q : Nat) + d - x := by omega
    have hmore : (d : Int) * p ≤ d * p₁ := mul_le_mul_of_nonneg_left hpp (by omega)
    rw [shares_cons, cost_cons, cost_cons]
    calc ((min c q : Nat) : Int) * p₁ + cost (shares (q - c) cs) ps + d * p
        ≤ (min c q : Nat) * p₁ + cost (shares (q - c) cs) ps + d * p₁ := by linarith
      _ = x * p₁ + (cost (shares (q - c) cs) ps + d' * p₁) := by rw [hd]; ring
      _ ≤ x * p₁ + cost xs ps := by linarith

/-- Front to back is cheapest where prices rise. -/
theorem cost_shares_le {ps : List Int} (hsorted : ps.Pairwise (· ≤ ·)) (hlen : cs.length = ps.length)
    (hx : List.Forall₂ (· ≤ ·) xs cs) (hsum : xs.sum = (shares q cs).sum) : cost (shares q cs) ps ≤ cost xs ps := by
  cases ps with
  | nil =>
    obtain rfl : cs = [] := List.eq_nil_of_length_eq_zero hlen
    cases hx
    simp
  | cons p ps =>
    have hp : ∀ p' ∈ p :: ps, p ≤ p' := by
      rintro p' (_ | ⟨_, hp'⟩)
      · exact le_refl p
      · exact (List.pairwise_cons.1 hsorted).1 p' hp'
    simpa using cost_shares_add (d := 0) hp hsorted hlen hx hsum

theorem cost_neg (xs : List Nat) (ps : List Int) : cost xs (ps.map (- ·)) = - cost xs ps := by
  induction xs generalizing ps with
  | nil => rfl
  | cons x xs ih =>
    cases ps with
    | nil => simp [cost]
    | cons p ps => rw [List.map_cons, cost_cons, cost_cons, ih]; ring

/-- Front to back earns most where prices fall. -/
theorem le_cost_shares {ps : List Int} (hsorted : ps.Pairwise (· ≥ ·)) (hlen : cs.length = ps.length)
    (hx : List.Forall₂ (· ≤ ·) xs cs) (hsum : xs.sum = (shares q cs).sum) : cost xs ps ≤ cost (shares q cs) ps := by
  have hneg : (ps.map (- ·)).Pairwise (· ≤ ·) := by
    rw [List.pairwise_map]
    exact hsorted.imp fun h => neg_le_neg h
  have := cost_shares_le hneg (by rwa [List.length_map]) hx hsum
  rw [cost_neg, cost_neg] at this
  linarith

end Allot
