/-
`RiskControls.hpp` and `RiskControls.cpp`: the pre-trade gate. Notional and collar are computed in
64-bit words, as the source computes them; a signed difference that does not fit wraps.
-/
import OrderBookEngine.Types
import Mathlib.Data.Finset.Insert

namespace Obe

inductive RejectReason
  | accepted
  | maxOrderSize
  | maxNotional
  | priceCollar
  | killSwitch
  | duplicateOrder
  deriving DecidableEq, Repr

/-- A zero disables its check. -/
structure RiskConfig where
  maxOrderSize : Quantity
  maxNotional : UInt64
  collarBps : UInt32
  enforceUniqueIds : Bool
  deriving DecidableEq, Repr

/-- The members' initializers. -/
def RiskConfig.new : RiskConfig := { maxOrderSize := 0, maxNotional := 0, collarBps := 0, enforceUniqueIds := true }

structure RiskMetricsSnapshot where
  accepted : UInt64
  maxOrderSize : UInt64
  maxNotional : UInt64
  priceCollar : UInt64
  killSwitch : UInt64
  duplicate : UInt64
  deriving DecidableEq, Repr

namespace RiskMetricsSnapshot

def new : RiskMetricsSnapshot :=
  { accepted := 0, maxOrderSize := 0, maxNotional := 0, priceCollar := 0, killSwitch := 0, duplicate := 0 }

def totalRejected (s : RiskMetricsSnapshot) : UInt64 :=
  s.maxOrderSize + s.maxNotional + s.priceCollar + s.killSwitch + s.duplicate

/-- The counter of a reason goes up. -/
def count (s : RiskMetricsSnapshot) : RejectReason → RiskMetricsSnapshot
  | .accepted => { s with accepted := s.accepted + 1 }
  | .maxOrderSize => { s with maxOrderSize := s.maxOrderSize + 1 }
  | .maxNotional => { s with maxNotional := s.maxNotional + 1 }
  | .priceCollar => { s with priceCollar := s.priceCollar + 1 }
  | .killSwitch => { s with killSwitch := s.killSwitch + 1 }
  | .duplicateOrder => { s with duplicate := s.duplicate + 1 }

end RiskMetricsSnapshot

/-! ## The limits -/

namespace RiskConfig

variable (cfg : RiskConfig)

def overSize (qty : Quantity) : Bool := cfg.maxOrderSize ≠ 0 && qty > cfg.maxOrderSize

def notional (price : Price) (qty : Quantity) : UInt64 := price.toUInt64 * qty

def overNotional (price : Price) (qty : Quantity) : Bool :=
  cfg.maxNotional ≠ 0 && notional price qty > cfg.maxNotional

def diff (price ref : Price) : Price := if price > ref then price - ref else ref - price

/-- Priced more than `collar_bps` away from a positive reference. -/
def outsideCollar (price : Price) : Option Price → Bool
  | none => false
  | some ref =>
    cfg.collarBps ≠ 0 && ref > 0 && (diff price ref).toUInt64 * 10000 > cfg.collarBps.toUInt64 * ref.toUInt64

end RiskConfig

/-! ## The gate -/

structure RiskManager where
  cfg : RiskConfig
  killSwitch : Bool
  seenIds : Finset OrderId
  metrics : RiskMetricsSnapshot
  deriving DecidableEq

namespace RiskManager

def create (cfg : RiskConfig) : RiskManager := { cfg, killSwitch := false, seenIds := ∅, metrics := .new }

def engageKillSwitch (m : RiskManager) (on : Bool) : RiskManager := { m with killSwitch := on }

def count (m : RiskManager) (reason : RejectReason) : RiskManager := { m with metrics := m.metrics.count reason }

def check (m : RiskManager) (id : OrderId) (_ : Side) (price : Price) (qty : Quantity) (reference : Option Price) :
    RiskManager × RejectReason :=
  if m.killSwitch then (m.count .killSwitch, .killSwitch)
  else if m.cfg.overSize qty then (m.count .maxOrderSize, .maxOrderSize)
  else if m.cfg.overNotional price qty then (m.count .maxNotional, .maxNotional)
  else if m.cfg.outsideCollar price reference then (m.count .priceCollar, .priceCollar)
  else if m.cfg.enforceUniqueIds then
    if id ∈ m.seenIds then (m.count .duplicateOrder, .duplicateOrder)
    else ({ m with seenIds := insert id m.seenIds }.count .accepted, .accepted)
  else (m.count .accepted, .accepted)

/-- Refused with the kill switch off: over a limit, or an id seen before. -/
def refuses (m : RiskManager) (id : OrderId) (price : Price) (qty : Quantity) (reference : Option Price) : Bool :=
  m.cfg.overSize qty || m.cfg.overNotional price qty || m.cfg.outsideCollar price reference ||
    (m.cfg.enforceUniqueIds && decide (id ∈ m.seenIds))

/-- What `check` does: it counts the verdict, and records the id of what it accepts. -/
theorem check_cases (m : RiskManager) (id : OrderId) (side : Side) (price : Price) (qty : Quantity)
    (reference : Option Price) :
    (m.killSwitch = true ∧ m.check id side price qty reference = (m.count .killSwitch, .killSwitch)) ∨
    (m.killSwitch = false ∧ m.refuses id price qty reference = true ∧ ∃ reason, reason ≠ .accepted ∧
      m.check id side price qty reference = (m.count reason, reason)) ∨
    (m.killSwitch = false ∧ m.refuses id price qty reference = false ∧ m.check id side price qty reference =
      ({ m with seenIds := if m.cfg.enforceUniqueIds then insert id m.seenIds else m.seenIds }.count .accepted,
        .accepted)) := by
  unfold check refuses
  by_cases hk : m.killSwitch = true
  · exact .inl ⟨hk, if_pos hk⟩
  have hk' : m.killSwitch = false := by simpa using hk
  rw [if_neg hk]
  refine .inr ?_
  -- the first limit that is broken decides
  by_cases hs : m.cfg.overSize qty = true
  · exact .inl ⟨hk', by simp [hs], .maxOrderSize, by decide, if_pos hs⟩
  rw [if_neg hs]
  by_cases hn : m.cfg.overNotional price qty = true
  · exact .inl ⟨hk', by simp [hn], .maxNotional, by decide, if_pos hn⟩
  rw [if_neg hn]
  by_cases hc : m.cfg.outsideCollar price reference = true
  · exact .inl ⟨hk', by simp [hc], .priceCollar, by decide, if_pos hc⟩
  rw [if_neg hc]
  by_cases hu : m.cfg.enforceUniqueIds = true
  · by_cases hid : id ∈ m.seenIds
    · exact .inl ⟨hk', by simp [hu, hid], .duplicateOrder, by decide, by rw [if_pos hu, if_pos hid]⟩
    · exact .inr ⟨hk', by simp [hs, hn, hc, hid], by rw [if_pos hu, if_neg hid, if_pos hu]⟩
  · exact .inr ⟨hk', by simp [hs, hn, hc, hu], by rw [if_neg hu, if_neg hu]⟩

end RiskManager

end Obe
