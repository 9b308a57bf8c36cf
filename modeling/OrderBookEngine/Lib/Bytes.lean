/-
Words as bytes in a given byte order, and files of fixed-width records. A word survives its bytes
and the bytes survive the word; reading complete records off a file of them, cut anywhere, gives
the records that are there in full.
-/
import Mathlib.Data.Nat.Basic
import Mathlib.Tactic.Ring

namespace Bytes

/-! ## Words -/

inductive ByteOrder
  | little
  | big
  deriving DecidableEq, Repr

/-- The `n` low bytes of `v`, lowest first. -/
def low : Nat → Nat → List UInt8
  | 0, _ => []
  | n + 1, v => UInt8.ofNat v :: low n (v / 256)

/-- The number some bytes make, lowest first. -/
def value : List UInt8 → Nat
  | [] => 0
  | b :: bs => b.toNat + 256 * value bs

def ByteOrder.write (order : ByteOrder) (n v : Nat) : List UInt8 :=
  match order with
  | .little => low n v
  | .big => (low n v).reverse

def ByteOrder.read (order : ByteOrder) (bs : List UInt8) : Nat :=
  match order with
  | .little => value bs
  | .big => value bs.reverse

theorem low_length (n v : Nat) : (low n v).length = n := by
  induction n generalizing v with
  | zero => rfl
  | succ n ih => rw [low, List.length_cons, ih]

@[simp] theorem ByteOrder.write_length (order : ByteOrder) (n v : Nat) : (order.write n v).length = n := by
  cases order with
  | little => exact low_length n v
  | big => exact (List.length_reverse ..).trans (low_length n v)

theorem value_low {n v : Nat} (h : v < 256 ^ n) : value (low n v) = v := by
  induction n generalizing v with
  | zero => rw [low, value]; omega
  | succ n ih =>
    have hdiv : v / 256 < 256 ^ n := by
      rw [Nat.div_lt_iff_lt_mul (by decide)]
      rwa [Nat.pow_succ] at h
    have hbyte : (UInt8.ofNat v).toNat = v % 256 := UInt8.toNat_ofNat'
    rw [low, value, ih hdiv, hbyte]
    omega

theorem low_value (bs : List UInt8) : low bs.length (value bs) = bs := by
  induction bs with
  | nil => rfl
  | cons b bs ih =>
    have hlt : b.toNat < 256 := b.toNat_lt
    have hdiv : (b.toNat + 256 * value bs) / 256 = value bs := by omega
    have hbyte : UInt8.ofNat (b.toNat + 256 * value bs) = b := by
      apply UInt8.toNat_inj.1
      rw [UInt8.toNat_ofNat']
      omega
    rw [List.length_cons, value, low, hdiv, ih, hbyte]

theorem value_lt (bs : List UInt8) : value bs < 256 ^ bs.length := by
  induction bs with
  | nil => exact Nat.one_pos
  | cons b bs ih =>
    have hlt : b.toNat < 256 := b.toNat_lt
    rw [value, List.length_cons, Nat.pow_succ]
    omega

/-- A word of `n` bytes is read back from them. -/
theorem ByteOrder.read_write (order : ByteOrder) {n v : Nat} (h : v < 256 ^ n) :
    order.read (order.write n v) = v := by
  cases order with
  | little => exact value_low h
  | big =>
    show value (low n v).reverse.reverse = v
    rw [List.reverse_reverse, value_low h]

/-- Bytes are written again as they were read. -/
theorem ByteOrder.write_read (order : ByteOrder) (bs : List UInt8) : order.write bs.length (order.read bs) = bs := by
  cases order with
  | little => exact low_value bs
  | big =>
    show (low bs.length (value bs.reverse)).reverse = bs
    rw [← List.length_reverse, low_value, List.reverse_reverse]

theorem ByteOrder.read_lt (order : ByteOrder) (bs : List UInt8) : order.read bs < 256 ^ bs.length := by
  cases order with
  | little => exact value_lt bs
  | big =>
    have := value_lt bs.reverse
    rwa [List.length_reverse] at this

/-! ## Records -/

section Records

variable {α : Type _} {n fuel : Nat} {l rest : List α} {ps : List (List α)}

/-- The complete records of width `n` at the front, at most `fuel` of them. -/
def records (n : Nat) : Nat → List α → List (List α)
  | 0, _ => []
  | fuel + 1, l => if l.length < n then [] else l.take n :: records n fuel (l.drop n)

/-- The record of width `n` at place `i`. -/
def recordAt (n : Nat) (l : List α) (i : Nat) : List α := (l.drop (i * n)).take n

/-- The records read are those at the places the file has in full. -/
theorem records_eq (hn : 0 < n) (hf : l.length / n ≤ fuel) :
    records n fuel l = (List.range (l.length / n)).map (recordAt n l) := by
  induction fuel generalizing l with
  | zero =>
    rw [Nat.le_zero.1 hf]
    rfl
  | succ fuel ih =>
    rw [records]
    by_cases hlt : l.length < n
    · rw [if_pos hlt, Nat.div_eq_of_lt hlt]
      rfl
    · have hdiv : l.length / n = (l.drop n).length / n + 1 := by
        rw [List.length_drop]
        exact Nat.div_eq_sub_div hn (by omega)
      have hnext : recordAt n l ∘ Nat.succ = recordAt n (l.drop n) := by
        funext i
        show (l.drop ((i + 1) * n)).take n = ((l.drop n).drop (i * n)).take n
        rw [List.drop_drop, Nat.succ_mul, Nat.add_comm]
      have hfirst : recordAt n l 0 = l.take n := by
        unfold recordAt
        rw [Nat.zero_mul, List.drop_zero]
      rw [if_neg hlt, ih (by omega), hdiv, List.range_succ_eq_map, List.map_cons, List.map_map, hnext, hfirst]

theorem recordAt_length {i : Nat} (hi : (i + 1) * n ≤ l.length) : (recordAt n l i).length = n := by
  unfold recordAt
  rw [List.length_take, List.length_drop]
  rw [Nat.succ_mul] at hi
  omega

/-- The record at a place of a file of records. -/
theorem recordAt_flatten (hp : ∀ p ∈ ps, p.length = n) {i : Nat} {p : List α} (hi : ps[i]? = some p) :
    recordAt n ps.flatten i = p := by
  induction ps generalizing i with
  | nil => simp at hi
  | cons q ps ih =>
    have hlen : q.length = n := hp q (List.mem_cons_self ..)
    unfold recordAt
    cases i with
    | zero =>
      obtain rfl : q = p := by simpa using hi
      rw [Nat.zero_mul, List.drop_zero, List.flatten_cons, List.take_left' hlen]
    | succ i =>
      rw [List.getElem?_cons_succ] at hi
      rw [Nat.succ_mul, Nat.add_comm, List.flatten_cons, ← List.drop_drop, List.drop_left' hlen]
      exact ih (fun r hr => hp r (List.mem_cons_of_mem _ hr)) hi

/-- A file of records and a torn one behind them. -/
theorem records_flatten (hp : ∀ p ∈ ps, p.length = n) (hr : rest.length < n) (hf : ps.length ≤ fuel) :
    records n fuel (ps.flatten ++ rest) = ps := by
  induction ps generalizing fuel with
  | nil =>
    cases fuel with
    | zero => rfl
    | succ fuel => exact if_pos hr
  | cons p ps ih =>
    obtain ⟨fuel, rfl⟩ : ∃ k, fuel = k + 1 := ⟨fuel - 1, by rw [List.length_cons] at hf; omega⟩
    have hlen : p.length = n := hp p (List.mem_cons_self ..)
    rw [List.length_cons] at hf
    rw [List.flatten_cons, List.append_assoc, records, if_neg (by rw [List.length_append]; omega),
      List.take_left' hlen, List.drop_left' hlen,
      ih (fun q hq => hp q (List.mem_cons_of_mem _ hq)) (by omega)]

theorem flatten_length (hp : ∀ p ∈ ps, p.length = n) : ps.flatten.length = ps.length * n := by
  induction ps with
  | nil => simp
  | cons p ps ih =>
    rw [List.flatten_cons, List.length_append, hp p (List.mem_cons_self ..),
      ih fun q hq => hp q (List.mem_cons_of_mem _ hq), List.length_cons]
    ring

/-- Cutting a file of records keeps those before the cut and leaves less than one. -/
theorem take_flatten (hn : 0 < n) (hp : ∀ p ∈ ps, p.length = n) {m : Nat} (hm : m ≤ ps.length * n) :
    ∃ rest, ps.flatten.take m = (ps.take (m / n)).flatten ++ rest ∧ rest.length < n := by
  induction ps generalizing m with
  | nil => exact ⟨[], by simp, hn⟩
  | cons p ps ih =>
    have hlen : p.length = n := hp p (List.mem_cons_self ..)
    by_cases hlt : m < n
    · refine ⟨p.take m, ?_, by rw [List.length_take]; omega⟩
      rw [Nat.div_eq_of_lt hlt, List.flatten_cons, List.take_append_of_le_length (by omega)]
      rfl
    · have hm' : m - n ≤ ps.length * n := by
        rw [List.length_cons, Nat.succ_mul] at hm
        omega
      obtain ⟨rest, hrest, hr⟩ := ih (fun q hq => hp q (List.mem_cons_of_mem _ hq)) hm'
      have hdiv : m / n = (m - n) / n + 1 := Nat.div_eq_sub_div hn (by omega)
      refine ⟨rest, ?_, hr⟩
      rw [hdiv, List.take_succ_cons, List.flatten_cons, List.flatten_cons, List.append_assoc, ← hrest,
        List.take_append, hlen, List.take_of_length_le (by omega)]

end Records

end Bytes
