/-
The work of matching, over whole runs. A single order may trade with the whole other side, but every
trade except the last of a submission takes its maker out of the book, so over a run there are no more
trades than orders that came in, each counted when it is accepted and when it rests.
-/
import OrderBookEngine.Book.Invariant
import OrderBookEngine.Book.Refinement

namespace Obe

/-- The trades a call reports. -/
def BookRet.tradeCount : BookRet → Nat
  | .submitted res => res.tradeCount
  | .cancelled _ => 0

/-- Whether a submission was accepted. -/
def BookRet.accepted : BookRet → Nat
  | .submitted res => if res.status = .rejected then 0 else 1
  | .cancelled _ => 0

/-- Whether a cancel found its order. -/
def BookRet.deleted : BookRet → Nat
  | .submitted _ => 0
  | .cancelled found => if found then 1 else 0

/-- A sum over the calls of a run. -/
def total (f : BookRet → Nat) (outs : List (BookRet × Observation)) : Nat := (outs.map fun o => f o.1).sum

/-- Every trade but the last takes an order out. -/
theorem sweep_work (stp : SelfTradePolicy) (taker : Taker) (remaining : Quantity) (queue : List OrderData) :
    (sweep stp taker remaining queue).trades.length + (sweep stp taker remaining queue).queue.length ≤
      queue.length + 1 := by
  induction queue generalizing remaining with
  | nil => simp
  | cons o queue ih =>
    rcases sweep_cases stp taker remaining o queue with
      ⟨-, h⟩ | ⟨-, -, -, h⟩ | ⟨-, -, -, h⟩ | ⟨-, -, -, h⟩ | ⟨-, -, -, h⟩
    · rw [h]; simp
    · have := ih remaining
      rw [h, List.length_cons]
      omega
    · rw [h]; simp
    · have hrest := ih (remaining - o.remaining)
      have hone : ((sweep stp taker (remaining - o.remaining) queue).after [taker.trade o o.remaining]).trades.length =
          (sweep stp taker (remaining - o.remaining) queue).trades.length + 1 := by
        simp [Sweep.after]
      have hsame : ((sweep stp taker (remaining - o.remaining) queue).after [taker.trade o o.remaining]).queue =
          (sweep stp taker (remaining - o.remaining) queue).queue := rfl
      rw [h, List.length_cons, hone, hsame]
      omega
    · rw [h]
      simp only [List.length_cons, List.length_nil]
      omega

namespace ListBook

variable {b : ListBook}

theorem swept_work (b : ListBook) (taker : Taker) (quantity : Quantity) :
    (b.walk taker quantity).trades.length + (b.swept taker (b.walk taker quantity)).resting.length ≤
      b.resting.length + 1 := by
  have hwalk := sweep_work b.stp taker quantity (b.opposite taker.side)
  have hbefore := (b.resting_perm taker.side).length_eq
  have hafter := ((b.swept taker (b.walk taker quantity)).resting_perm taker.side).length_eq
  rw [List.length_append] at hbefore hafter
  rw [swept_own, swept_opposite] at hafter
  unfold walk at hafter ⊢
  omega

/-- The step lemma: the resting orders pay for the trades. -/
theorem call_work (b : ListBook) (c : BookCall) :
    (b.call c).2.tradeCount + (b.call c).2.deleted + (b.call c).1.resting.length ≤
      b.resting.length + ((b.call c).2.accepted + (b.call c).2.rested) := by
  cases c with
  | submit id trader side price quantity =>
    have hsw := swept_work b ⟨id, trader, side, price⟩ quantity
    show (b.submit ⟨id, trader, side, price⟩ quantity).2.tradeCount + 0 +
        (b.submit ⟨id, trader, side, price⟩ quantity).1.resting.length ≤ b.resting.length +
      (BookRet.accepted (.submitted (b.submit ⟨id, trader, side, price⟩ quantity).2) +
        BookRet.rested (.submitted (b.submit ⟨id, trader, side, price⟩ quantity).2))
    unfold BookRet.accepted BookRet.rested
    rcases submit_cases b ⟨id, trader, side, price⟩ quantity with ⟨-, he⟩ | ⟨-, ⟨-, he⟩ | ⟨-, hr, he⟩ | ⟨-, -, he⟩⟩
    · rw [he]
      dsimp only
      rw [if_pos rfl]
      simp [SubmitResult.new, resting]
    · rw [he]
      dsimp only
      rw [if_neg (by decide), if_neg (by decide)]
      omega
    · -- the remainder rests
      have hrest := (rest_resting_perm (b.swept ⟨id, trader, side, price⟩ (b.walk ⟨id, trader, side, price⟩ quantity))
        ⟨id, trader, side, price⟩ (b.walk ⟨id, trader, side, price⟩ quantity).remaining).length_eq
      rw [List.length_cons] at hrest
      rw [he]
      dsimp only
      rw [if_neg (by split <;> decide), if_pos hr]
      omega
    · rw [he]
      dsimp only
      rw [if_neg (by decide), if_neg (by decide)]
      omega
  | cancel id =>
    show 0 + BookRet.deleted (.cancelled (b.cancel id).2) + (b.cancel id).1.resting.length ≤ b.resting.length + (0 + 0)
    unfold BookRet.deleted cancel
    by_cases h : id ∈ b.ids
    · rw [if_pos h]
      obtain ⟨o, ho, rfl⟩ := List.mem_map.1 h
      have hlt : (b.resting.filter (·.id ≠ o.id)).length < b.resting.length := by
        apply List.length_filter_lt_length_iff_exists.2
        exact ⟨o, ho, by simp⟩
      unfold resting at hlt ⊢
      rw [List.filter_append] at hlt
      dsimp only
      rw [if_pos rfl]
      omega
    · rw [if_neg h]
      simp

end ListBook

/-- Only what is accepted rests. -/
theorem ListBook.call_rested (b : ListBook) (c : BookCall) : (b.call c).2.rested ≤ (b.call c).2.accepted := by
  cases c with
  | submit id trader side price quantity =>
    show BookRet.rested (.submitted (b.submit ⟨id, trader, side, price⟩ quantity).2) ≤
      BookRet.accepted (.submitted (b.submit ⟨id, trader, side, price⟩ quantity).2)
    unfold BookRet.accepted BookRet.rested
    rcases submit_cases b ⟨id, trader, side, price⟩ quantity with ⟨-, he⟩ | ⟨-, ⟨-, he⟩ | ⟨-, -, he⟩ | ⟨-, -, he⟩⟩
    · rw [he]
      exact Nat.le_refl 0
    · rw [he]
      dsimp only
      rw [if_neg (by decide)]
      exact Nat.zero_le _
    · rw [he]
      dsimp only
      rw [if_neg (c := _ = SubmitStatus.rejected) (by split <;> decide)]
      split <;> decide
    · rw [he]
      dsimp only
      rw [if_neg (by decide)]
      exact Nat.zero_le _
  | cancel id => exact Nat.le_refl 0

/-- **Matching is paid for by the orders that come in.** Over every run the trades, the orders cancelled
and the orders still resting are together no more than the submissions accepted and the orders rested;
in particular there are at most two trades for each submission. -/
theorem OrderBook.trades_amortized (stp : SelfTradePolicy) (poolCapacity : UInt64) (calls : List BookCall) :
    ∃ b₀ b outs, create stp poolCapacity = some b₀ ∧ Machine.run step b₀ calls = some (b, outs) ∧
      total BookRet.tradeCount outs + total BookRet.deleted outs + b.orderCount ≤
        total BookRet.accepted outs + total BookRet.rested outs ∧
      total BookRet.tradeCount outs ≤ 2 * total BookRet.accepted outs := by
  obtain ⟨b₀, hr, h₀⟩ := create_spec stp poolCapacity
  obtain ⟨b, hrun, h⟩ := step_refines.run h₀ calls
  refine ⟨b₀, b, _, hr, hrun, ?_⟩
  have hcount : b.orderCount = (Machine.runT ListBook.step (.create stp) calls).1.resting.length :=
    congrArg Observation.orderCount (observe_spec h)
  have hwork := Machine.runT_potential ListBook.step (fun o => o.1.tradeCount + o.1.deleted)
    (fun o => o.1.accepted + o.1.rested) (fun b => b.resting.length)
    ListBook.call_work (.create stp) calls
  have hempty : (ListBook.create stp).resting.length = 0 := rfl
  rw [List.sum_map_add, List.sum_map_add, hempty, Nat.zero_add, ← hcount] at hwork
  refine ⟨hwork, ?_⟩
  -- what rests was accepted
  have hrested := Machine.runT_potential ListBook.step (fun o => o.1.rested) (fun o => o.1.accepted) (fun _ => 0)
    (fun b c => by rw [Nat.zero_add, Nat.add_zero]; exact b.call_rested c) (.create stp) calls
  rw [Nat.zero_add] at hrested
  unfold total
  omega

end Obe
