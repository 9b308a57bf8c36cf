/-
`MatchingEngine.hpp` and `MatchingEngine.cpp`, without the queue: a command is journaled, checked by
the gate when there is one, and applied to the book. The engine over the reference book does the
same and never gets stuck.
-/
import OrderBookEngine.Book.Sound
import OrderBookEngine.Engine.RiskControls
import OrderBookEngine.Journal.EventLog

namespace Obe

open Bytes (ByteOrder)

structure Stats where
  commands : UInt64
  submits : UInt64
  cancels : UInt64
  trades : UInt64
  deriving DecidableEq, Repr

/-- The engine beside its book: the gate, the journal and the counters. -/
structure Controls where
  risk : Option RiskManager
  log : Option EventLogWriter
  stats : Stats
  deriving DecidableEq

namespace Controls

def new : Controls := { risk := none, log := none, stats := { commands := 0, submits := 0, cancels := 0, trades := 0 } }

def enableRisk (e : Controls) : Option RiskConfig → Controls
  | none => e
  | some cfg => { e with risk := some (.create cfg) }

def enableLogging (e : Controls) : Option ByteOrder → Controls
  | none => e
  | some host => { e with log := some (.create host) }

/-- The toggle of another thread, between two commands; without a gate there is none. -/
def engageKillSwitch (e : Controls) (on : Bool) : Controls := { e with risk := e.risk.map (·.engageKillSwitch on) }

/-- A command is journaled as received. -/
def journal (e : Controls) (cmd : Command) : Controls :=
  match e.log with
  | some log => if cmd.type ≠ .shutdown then { e with log := some (log.append cmd) } else e
  | none => e

/-- The gate's verdict; without a gate everything is accepted. -/
def check (e : Controls) (cmd : Command) (reference : Option Price) : Controls × RejectReason :=
  match e.risk with
  | none => (e, .accepted)
  | some risk =>
    let r := risk.check cmd.id cmd.side cmd.price cmd.quantity reference
    ({ e with risk := some r.1 }, r.2)

/-- Received, but rejected before the book. -/
def received (e : Controls) : Controls := { e with stats := { e.stats with commands := e.stats.commands + 1 } }

def submitted (e : Controls) (tradeCount : Nat) : Controls :=
  { e with stats := { e.stats with submits := e.stats.submits + 1, trades := e.stats.trades + UInt64.ofNat tradeCount,
                                   commands := e.stats.commands + 1 } }

def cancelled (e : Controls) : Controls :=
  { e with stats := { e.stats with cancels := e.stats.cancels + 1, commands := e.stats.commands + 1 } }

end Controls

/-! ## The engine -/

structure MatchingEngine extends Controls where
  book : OrderBook

namespace MatchingEngine

/-- An engine with the gate and the journal it is configured with. -/
def fresh (stp : SelfTradePolicy) (poolCapacity : UInt64) (risk : Option RiskConfig) (host : Option ByteOrder) :
    Option MatchingEngine :=
  (OrderBook.create stp poolCapacity).map fun book =>
    { toControls := (Controls.new.enableRisk risk).enableLogging host, book }

/-- The opposite touch, on which the collar is anchored. -/
def reference (e : MatchingEngine) (cmd : Command) : Option Price :=
  if cmd.side = .buy then e.book.bestAsk else e.book.bestBid

/-- The engine after a command, and the number of trades. A type that is not one of the three is
journaled and otherwise ignored. -/
def apply (e : MatchingEngine) (cmd : Command) : Option (MatchingEngine × Nat) :=
  let ctl := e.toControls.journal cmd
  if cmd.type = .submit then
    let (ctl, reason) := ctl.check cmd (e.reference cmd)
    if reason ≠ .accepted then some ({ toControls := ctl.received, book := e.book }, 0)
    else (e.book.submit cmd.id cmd.trader cmd.side cmd.price cmd.quantity).map fun r =>
      ({ toControls := ctl.submitted r.2.tradeCount, book := r.1 }, r.2.tradeCount)
  else if cmd.type = .cancel then
    (e.book.cancel cmd.id).map fun r => ({ toControls := ctl.cancelled, book := r.1 }, 0)
  else some ({ toControls := ctl, book := e.book }, 0)

end MatchingEngine

/-! ## Over the reference book -/

structure ListEngine extends Controls where
  book : ListBook
  deriving DecidableEq

namespace ListEngine

def fresh (stp : SelfTradePolicy) (risk : Option RiskConfig) (host : Option ByteOrder) : ListEngine :=
  { toControls := (Controls.new.enableRisk risk).enableLogging host, book := .create stp }

def reference (e : ListEngine) (cmd : Command) : Option Price :=
  if cmd.side = .buy then e.book.bestAsk else e.book.bestBid

/-- A checked submission. -/
def enter (book : ListBook) (cmd : Command) (r : Controls × RejectReason) : ListEngine × Nat :=
  if r.2 ≠ .accepted then ({ toControls := r.1.received, book }, 0)
  else
    let s := book.submit ⟨cmd.id, cmd.trader, cmd.side, cmd.price⟩ cmd.quantity
    ({ toControls := r.1.submitted s.2.tradeCount, book := s.1 }, s.2.tradeCount)

def apply (e : ListEngine) (cmd : Command) : ListEngine × Nat :=
  let ctl := e.toControls.journal cmd
  if cmd.type = .submit then enter e.book cmd (ctl.check cmd (e.reference cmd))
  else if cmd.type = .cancel then ({ toControls := ctl.cancelled, book := (e.book.cancel cmd.id).1 }, 0)
  else ({ toControls := ctl, book := e.book }, 0)

end ListEngine

/-! ## Live runs -/

/-- What a live engine sees: commands, and the kill switch turned between them. -/
inductive EngineCall
  | apply (cmd : Command)
  | engageKillSwitch (on : Bool)
  deriving DecidableEq, Repr

def MatchingEngine.call (e : MatchingEngine) : EngineCall → Option (MatchingEngine × Nat)
  | .apply cmd => e.apply cmd
  | .engageKillSwitch on => some ({ e with toControls := e.toControls.engageKillSwitch on }, 0)

def ListEngine.call (e : ListEngine) : EngineCall → ListEngine × Nat
  | .apply cmd => e.apply cmd
  | .engageKillSwitch on => ({ e with toControls := e.toControls.engageKillSwitch on }, 0)

/-- What can be read off an engine. -/
structure EngineObservation where
  book : Observation
  stats : Stats
  metrics : Option RiskMetricsSnapshot
  seenIds : Option (Finset OrderId)

def MatchingEngine.observe (e : MatchingEngine) : EngineObservation :=
  { book := e.book.observe, stats := e.stats, metrics := e.risk.map (·.metrics), seenIds := e.risk.map (·.seenIds) }

def ListEngine.observe (e : ListEngine) : EngineObservation :=
  { book := e.book.observe, stats := e.stats, metrics := e.risk.map (·.metrics), seenIds := e.risk.map (·.seenIds) }

/-! ## The refinement -/

namespace MatchingEngine

variable {e : MatchingEngine} {r : ListEngine}

structure Represents (e : MatchingEngine) (r : ListEngine) : Prop where
  controls : e.toControls = r.toControls
  book : e.book.Represents r.book

theorem Represents.bookObserve (h : e.Represents r) : e.book.observe = r.book.observe := OrderBook.observe_spec h.book

theorem Represents.observe (h : e.Represents r) : e.observe = r.observe := by
  unfold MatchingEngine.observe ListEngine.observe
  rw [h.bookObserve, h.controls]

theorem Represents.reference (h : e.Represents r) (cmd : Command) : e.reference cmd = r.reference cmd := by
  have hbid : e.book.bestBid = r.book.bestBid := congrArg Observation.bestBid h.bookObserve
  have hask : e.book.bestAsk = r.book.bestAsk := congrArg Observation.bestAsk h.bookObserve
  unfold MatchingEngine.reference ListEngine.reference
  rw [hbid, hask]

/-- A fresh engine, for every configuration. -/
theorem fresh_spec (stp : SelfTradePolicy) (poolCapacity : UInt64) (risk : Option RiskConfig)
    (host : Option ByteOrder) :
    ∃ e, fresh stp poolCapacity risk host = some e ∧ e.Represents (.fresh stp risk host) := by
  obtain ⟨b, hr, h⟩ := OrderBook.create_spec stp poolCapacity
  refine ⟨{ toControls := (Controls.new.enableRisk risk).enableLogging host, book := b }, ?_, ⟨rfl, h⟩⟩
  rw [fresh, hr]; rfl

theorem apply_refines : Machine.Refines apply ListEngine.apply Represents := by
  intro e r cmd h
  unfold apply ListEngine.apply ListEngine.enter
  dsimp only
  rw [h.controls, h.reference]
  by_cases hs : cmd.type = .submit
  · rw [if_pos hs, if_pos hs]
    by_cases ha : ((r.journal cmd).check cmd (r.reference cmd)).2 = .accepted
    · obtain ⟨b', hr, h'⟩ := OrderBook.submit_spec h.book cmd.id cmd.trader cmd.side cmd.price cmd.quantity
      rw [if_neg (not_not.2 ha), if_neg (not_not.2 ha), hr]
      exact ⟨_, rfl, ⟨rfl, h'⟩⟩
    · rw [if_pos ha, if_pos ha]
      exact ⟨_, rfl, ⟨rfl, h.book⟩⟩
  · rw [if_neg hs, if_neg hs]
    by_cases hc : cmd.type = .cancel
    · obtain ⟨b', hr, h'⟩ := OrderBook.cancel_spec h.book cmd.id
      rw [if_pos hc, if_pos hc, hr]
      exact ⟨_, rfl, ⟨rfl, h'⟩⟩
    · rw [if_neg hc, if_neg hc]
      exact ⟨_, rfl, ⟨rfl, h.book⟩⟩

theorem call_refines : Machine.Refines call ListEngine.call Represents := by
  intro e r c h
  cases c with
  | apply cmd => exact apply_refines e r cmd h
  | engageKillSwitch on => exact ⟨_, rfl, ⟨congrArg (·.engageKillSwitch on) h.controls, h.book⟩⟩

end MatchingEngine

/-! ## The book of an engine -/

namespace ListEngine

/-- The book under a command is the book under at most one call. -/
theorem apply_book (e : ListEngine) (cmd : Command) :
    (e.apply cmd).1.book = e.book ∨ ∃ c, (e.apply cmd).1.book = (e.book.call c).1 := by
  unfold apply enter
  dsimp only
  split
  · split
    · exact .inl rfl
    · exact .inr ⟨.submit cmd.id cmd.trader cmd.side cmd.price cmd.quantity, rfl⟩
  · split
    · exact .inr ⟨.cancel cmd.id, rfl⟩
    · exact .inl rfl

theorem call_valid (e : ListEngine) (c : EngineCall) (h : e.book.Valid) : (e.call c).1.book.Valid := by
  cases c with
  | apply cmd =>
    show (e.apply cmd).1.book.Valid
    rcases apply_book e cmd with he | ⟨c, he⟩
    · rw [he]; exact h
    · rw [he]; exact h.step c
  | engageKillSwitch on => exact h

end ListEngine

theorem MatchingEngine.Represents.uncrossed {e : MatchingEngine} {r : ListEngine} (h : e.Represents r)
    (hv : r.book.Valid) : ∀ bid ask, e.book.bestBid = some bid → e.book.bestAsk = some ask → bid < ask := by
  intro bid ask hbid hask
  have hb : e.book.bestBid = r.book.bestBid := congrArg Observation.bestBid h.bookObserve
  have ha : e.book.bestAsk = r.book.bestAsk := congrArg Observation.bestAsk h.bookObserve
  rw [hb] at hbid
  rw [ha] at hask
  obtain ⟨x, hx, rfl⟩ := Option.map_eq_some_iff.1 hbid
  obtain ⟨y, hy, rfl⟩ := Option.map_eq_some_iff.1 hask
  exact hv.uncrossed x (List.mem_of_head? hx) y (List.mem_of_head? hy)

/-- **The book of an engine is never crossed nor locked**, whatever commands it applies and however
its kill switch is turned. -/
theorem MatchingEngine.run_uncrossed (stp : SelfTradePolicy) (poolCapacity : UInt64) (risk : Option RiskConfig)
    (host : Option ByteOrder) (calls : List EngineCall) :
    ∃ e₀ e outs, fresh stp poolCapacity risk host = some e₀ ∧ Machine.run call e₀ calls = some (e, outs) ∧
      ∀ bid ask, e.book.bestBid = some bid → e.book.bestAsk = some ask → bid < ask := by
  obtain ⟨e₀, hr, h₀⟩ := fresh_spec stp poolCapacity risk host
  obtain ⟨e, hrun, h⟩ := call_refines.run h₀ calls
  have hv : (Machine.runT ListEngine.call (.fresh stp risk host) calls).1.book.Valid :=
    Machine.runT_invariant (P := fun r : ListEngine => r.book.Valid) ListEngine.call_valid
      (ListBook.create_valid stp) calls
  exact ⟨e₀, e, _, hr, hrun, h.uncrossed hv⟩

end Obe
