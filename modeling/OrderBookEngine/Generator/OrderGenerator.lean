/-
`OrderGenerator.hpp` and `OrderGenerator.cpp`: the synthetic order flow. The random engine is not
modelled: a step is given what the distributions returned, and does not happen when one of them
cannot have returned it. Whatever they return, the ids count up, a cancel names an order that was
submitted and not yet cancelled, and the book takes in every submit.
-/
import OrderBookEngine.Engine.Duplicates

namespace Obe

/-- The members that bound a command; the others are parameters of distributions. -/
structure GeneratorConfig where
  initialMid : Price
  tick : Price
  depthLevels : Int32
  maxQty : Quantity
  numTraders : TraderId
  deriving DecidableEq, Repr

/-- The members' initializers. -/
def GeneratorConfig.new : GeneratorConfig :=
  { initialMid := 10000, tick := 1, depthLevels := 50, maxQty := 1000, numTraders := 16 }

/-- What the distributions of one `next` return. `size` is the rounded exponential plus one, as it is
converted; what a call does not draw is not looked at. -/
structure Draws where
  doCancel : Bool
  pick : Nat
  moves : Bool
  up : Bool
  buy : Bool
  trader : TraderId
  size : Quantity
  offset : Int32
  marketable : Bool
  deriving DecidableEq, Repr

/-- `std::uniform_int_distribution(lo, hi)` returns its bounds and what is between them. -/
def uniform {α : Type} [LE α] [DecidableLE α] (lo hi x : α) : Option α := if lo ≤ x ∧ x ≤ hi then some x else none

structure OrderGenerator where
  cfg : GeneratorConfig
  mid : Price
  nextId : OrderId
  liveIds : List OrderId
  deriving DecidableEq, Repr

namespace OrderGenerator

def create (cfg : GeneratorConfig) : OrderGenerator := { cfg, mid := cfg.initialMid, nextId := 1, liveIds := [] }

/-- Prices wrap where the source's signed arithmetic has no result. -/
def randomWalkMid (g : OrderGenerator) (d : Draws) : OrderGenerator :=
  if d.moves then
    let mid := g.mid + if d.up then g.cfg.tick else -g.cfg.tick
    { g with mid := if mid < g.cfg.tick then g.cfg.tick else mid }
  else g

/-- An exponential is not negative, so its size is at least one. -/
def drawQuantity (g : OrderGenerator) (d : Draws) : Option Quantity :=
  if 1 ≤ d.size then some (min d.size g.cfg.maxQty) else none

/-- A geometric distribution returns no negative number. -/
def drawOffset (g : OrderGenerator) (d : Draws) : Option Int32 :=
  if 0 ≤ d.offset then some (min d.offset g.cfg.depthLevels) else none

/-- Marketable orders reach past the mid, the others stay away from it. -/
def drawPrice (g : OrderGenerator) (d : Draws) (side : Side) (offset : Int32) : Price :=
  let reach := offset.toInt64 * g.cfg.tick
  let price :=
    if d.marketable then (if side = .buy then g.mid + reach else g.mid - reach)
    else (if side = .buy then g.mid - reach else g.mid + reach)
  if price < g.cfg.tick then g.cfg.tick else price

def makeSubmit (g : OrderGenerator) (d : Draws) : Option (OrderGenerator × Command) := do
  let g := g.randomWalkMid d
  let side := if d.buy then Side.buy else Side.sell
  let trader ← uniform 0 (g.cfg.numTraders - 1) d.trader
  let qty ← g.drawQuantity d
  let offset ← g.drawOffset d
  let price := g.drawPrice d side offset
  let id := g.nextId
  some ({ g with nextId := id + 1, liveIds := g.liveIds ++ [id] }, .makeSubmit id trader side price qty)

/-- The picked id leaves its place to the last one. -/
def makeCancel (g : OrderGenerator) (d : Draws) : Option (OrderGenerator × Command) := do
  let idx ← uniform 0 (g.liveIds.length - 1) d.pick
  let id ← g.liveIds[idx]?
  let back ← g.liveIds.getLast?
  some ({ g with liveIds := (g.liveIds.set idx back).dropLast }, .makeCancel id)

def next (g : OrderGenerator) (d : Draws) : Option (OrderGenerator × Command) :=
  if !g.liveIds.isEmpty && d.doCancel then g.makeCancel d else g.makeSubmit d

end OrderGenerator

/-! ## Streams -/

/-- The ids that a stream submits, in order. -/
def submittedIds (stream : List Command) : List OrderId := (stream.filter (·.type = .submit)).map (·.id)

/-- The ids that a stream cancels, in order. -/
def cancelledIds (stream : List Command) : List OrderId := (stream.filter (·.type = .cancel)).map (·.id)

namespace OrderGenerator

end OrderGenerator

/-! ## Swap and pop -/

/-- What leaves a list whose last entry takes its place. -/
theorem swap_pop_perm {α : Type} {l : List α} {i : Nat} {x back : α} (hx : l[i]? = some x)
    (hb : l.getLast? = some back) : (x :: (l.set i back).dropLast).Perm l := by
  obtain ⟨m, rfl⟩ : ∃ m, l = m ++ [back] := ⟨l.dropLast, (List.dropLast_append_getLast? back hb).symm⟩
  obtain ⟨hlt, rfl⟩ := List.getElem?_eq_some_iff.1 hx
  rw [List.length_append, List.length_singleton] at hlt
  rcases Nat.lt_succ_iff_lt_or_eq.1 hlt with hi | rfl
  · rw [List.set_append_left _ _ hi, List.dropLast_concat, List.getElem_append_left hi,
      List.set_eq_take_append_cons_drop, if_pos hi]
    have hm : m.take i ++ m[i] :: m.drop (i + 1) = m := by rw [← List.drop_eq_getElem_cons hi, List.take_append_drop]
    generalize m[i] = y, m.take i = l₁, m.drop (i + 1) = l₂ at hm
    rw [← hm]
    calc (y :: (l₁ ++ back :: l₂)).Perm (y :: back :: (l₁ ++ l₂)) := .cons _ List.perm_middle
      List.Perm _ (back :: y :: (l₁ ++ l₂)) := .swap ..
      List.Perm _ (back :: (l₁ ++ y :: l₂)) := .cons _ List.perm_middle.symm
      List.Perm _ (l₁ ++ y :: l₂ ++ [back]) := (List.perm_append_singleton ..).symm
  · have hset : (m ++ [back]).set m.length back = m ++ [back] := by simp
    rw [hset, List.dropLast_concat, List.getElem_concat_length rfl]
    exact (List.perm_append_singleton ..).symm

/-! ## One command -/

namespace OrderGenerator

variable {cfg : GeneratorConfig} {g g' : OrderGenerator} {d : Draws} {cmd : Command}

@[simp] theorem randomWalkMid_cfg (g : OrderGenerator) (d : Draws) : (g.randomWalkMid d).cfg = g.cfg := by
  unfold randomWalkMid; split <;> rfl

@[simp] theorem randomWalkMid_nextId (g : OrderGenerator) (d : Draws) : (g.randomWalkMid d).nextId = g.nextId := by
  unfold randomWalkMid; split <;> rfl

@[simp] theorem randomWalkMid_liveIds (g : OrderGenerator) (d : Draws) : (g.randomWalkMid d).liveIds = g.liveIds := by
  unfold randomWalkMid; split <;> rfl

theorem tick_le_drawPrice (g : OrderGenerator) (d : Draws) (side : Side) (offset : Int32) :
    g.cfg.tick ≤ g.drawPrice d side offset := by
  unfold drawPrice
  dsimp only
  generalize (if d.marketable = true then _ else _ : Price) = price
  split
  · exact Int64.le_refl _
  · exact Int64.not_lt.1 ‹_›

theorem drawQuantity_bounds {qty : Quantity} (h : g.drawQuantity d = some qty) (hmax : 1 ≤ g.cfg.maxQty) :
    1 ≤ qty ∧ qty ≤ g.cfg.maxQty := by
  unfold drawQuantity at h
  split at h
  · rename_i hsize
    cases h
    show 1 ≤ (if d.size ≤ g.cfg.maxQty then d.size else g.cfg.maxQty) ∧
      (if d.size ≤ g.cfg.maxQty then d.size else g.cfg.maxQty) ≤ g.cfg.maxQty
    split
    · exact ⟨hsize, ‹_›⟩
    · exact ⟨hmax, UInt64.le_refl _⟩
  · cases h

theorem makeSubmit_spec (h : g.makeSubmit d = some (g', cmd)) (hmax : 1 ≤ g.cfg.maxQty) :
    ∃ trader side price qty, cmd = .makeSubmit g.nextId trader side price qty ∧ g.cfg.tick ≤ price ∧
      (1 ≤ qty ∧ qty ≤ g.cfg.maxQty) ∧ g'.cfg = g.cfg ∧ g'.nextId = g.nextId + 1 ∧
      g'.liveIds = g.liveIds ++ [g.nextId] := by
  unfold makeSubmit at h
  obtain ⟨trader, -, h⟩ := Option.bind_eq_some_iff.1 h
  obtain ⟨qty, hqty, h⟩ := Option.bind_eq_some_iff.1 h
  obtain ⟨offset, -, h⟩ := Option.bind_eq_some_iff.1 h
  cases h
  have hprice := (g.randomWalkMid d).tick_le_drawPrice d (if d.buy then .buy else .sell) offset
  have hbounds := drawQuantity_bounds hqty (by rwa [randomWalkMid_cfg])
  rw [randomWalkMid_cfg] at hprice hbounds
  refine ⟨trader, _, _, qty, by rw [randomWalkMid_nextId], hprice, hbounds, randomWalkMid_cfg g d, ?_, ?_⟩
  · dsimp only
    rw [randomWalkMid_nextId]
  · dsimp only
    rw [randomWalkMid_liveIds, randomWalkMid_nextId]

theorem makeCancel_spec (h : g.makeCancel d = some (g', cmd)) :
    ∃ id, cmd = .makeCancel id ∧ (id :: g'.liveIds).Perm g.liveIds ∧ g'.cfg = g.cfg ∧ g'.nextId = g.nextId := by
  unfold makeCancel at h
  obtain ⟨idx, -, h⟩ := Option.bind_eq_some_iff.1 h
  obtain ⟨id, hid, h⟩ := Option.bind_eq_some_iff.1 h
  obtain ⟨back, hback, h⟩ := Option.bind_eq_some_iff.1 h
  cases h
  exact ⟨id, rfl, swap_pop_perm hid hback, rfl, rfl⟩

theorem next_spec (h : g.next d = some (g', cmd)) :
    g.makeCancel d = some (g', cmd) ∨ g.makeSubmit d = some (g', cmd) := by
  unfold next at h
  split at h
  · exact .inl h
  · exact .inr h

/-- With values that the distributions may return there is a next command. -/
theorem next_returns (hpick : g.liveIds ≠ [] → d.pick < g.liveIds.length) (htrader : d.trader ≤ g.cfg.numTraders - 1)
    (hsize : 1 ≤ d.size) (hoffset : 0 ≤ d.offset) : ∃ g' cmd, g.next d = some (g', cmd) := by
  unfold next
  split
  · rename_i h
    have hne : g.liveIds ≠ [] := by
      intro he
      rw [he] at h
      cases h
    have hlt := hpick hne
    have hidx : uniform 0 (g.liveIds.length - 1) d.pick = some d.pick := if_pos ⟨Nat.zero_le _, by omega⟩
    unfold makeCancel
    rw [hidx]
    dsimp only [Option.bind_eq_bind, Option.bind_some]
    rw [List.getElem?_eq_getElem hlt, List.getLast?_eq_some_getLast hne]
    exact ⟨_, _, rfl⟩
  · have hdraw : uniform 0 (g.cfg.numTraders - 1) d.trader = some d.trader := if_pos ⟨UInt32.zero_le, htrader⟩
    have hqty : (g.randomWalkMid d).drawQuantity d = some (min d.size (g.randomWalkMid d).cfg.maxQty) := if_pos hsize
    have hoff : (g.randomWalkMid d).drawOffset d = some (min d.offset (g.randomWalkMid d).cfg.depthLevels) :=
      if_pos hoffset
    unfold makeSubmit
    dsimp only
    rw [hqty, hoff, randomWalkMid_cfg, hdraw]
    exact ⟨_, _, rfl⟩

/-! ## Whole streams -/

/-- The ids `1, 2, 3, …`, as the counter gives them out. -/
def countedIds (n : Nat) : List OrderId := (List.range n).map fun i => UInt64.ofNat (i + 1)

/-- What is live and what was cancelled is what was submitted. -/
structure Inv (cfg : GeneratorConfig) (g : OrderGenerator) (stream : List Command) : Prop where
  cfg_eq : g.cfg = cfg
  nextId : g.nextId = UInt64.ofNat ((submittedIds stream).length + 1)
  submitted : submittedIds stream = countedIds (submittedIds stream).length
  split : (g.liveIds ++ cancelledIds stream).Perm (submittedIds stream)
  kinds : ∀ cmd ∈ stream, cmd.type = .submit ∨ cmd.type = .cancel
  bounds : ∀ cmd ∈ stream, cmd.type = .submit →
    (1 ≤ cmd.quantity ∧ cmd.quantity ≤ cfg.maxQty) ∧ cfg.tick ≤ cmd.price

theorem submittedIds_append (s t : List Command) : submittedIds (s ++ t) = submittedIds s ++ submittedIds t := by
  unfold submittedIds
  rw [List.filter_append, List.map_append]

theorem cancelledIds_append (s t : List Command) : cancelledIds (s ++ t) = cancelledIds s ++ cancelledIds t := by
  unfold cancelledIds
  rw [List.filter_append, List.map_append]

theorem Inv.create (cfg : GeneratorConfig) : Inv cfg (create cfg) [] :=
  ⟨rfl, rfl, rfl, .refl _, nofun, nofun⟩

theorem Inv.step {stream : List Command} (h : Inv cfg g stream) (hmax : 1 ≤ cfg.maxQty)
    (hs : g.next d = some (g', cmd)) : Inv cfg g' (stream ++ [cmd]) := by
  rcases next_spec hs with hs | hs
  · obtain ⟨id, rfl, hperm, hcfg, hnext⟩ := makeCancel_spec hs
    have hsub : submittedIds (stream ++ [.makeCancel id]) = submittedIds stream :=
      (submittedIds_append ..).trans (List.append_nil _)
    have hcan : cancelledIds (stream ++ [.makeCancel id]) = cancelledIds stream ++ [id] := cancelledIds_append ..
    refine ⟨hcfg.trans h.cfg_eq, by rw [hnext, h.nextId, hsub], by rw [hsub]; exact h.submitted, ?_, ?_, ?_⟩
    · rw [hsub, hcan]
      have hmove : (g'.liveIds ++ (cancelledIds stream ++ [id])).Perm (id :: g'.liveIds ++ cancelledIds stream) := by
        rw [← List.append_assoc]
        exact List.perm_append_singleton ..
      exact hmove.trans ((hperm.append_right _).trans h.split)
    · intro c hc
      rcases List.mem_append.1 hc with hc | hc
      · exact h.kinds c hc
      · rw [List.mem_singleton.1 hc]
        exact .inr rfl
    · intro c hc hsubmit
      rcases List.mem_append.1 hc with hc | hc
      · exact h.bounds c hc hsubmit
      · rw [List.mem_singleton.1 hc] at hsubmit
        cases hsubmit
  · obtain ⟨trader, side, price, qty, rfl, hprice, hqty, hcfg, hnext, hlive⟩ :=
      makeSubmit_spec hs (by rw [h.cfg_eq]; exact hmax)
    have hsub : submittedIds (stream ++ [.makeSubmit g.nextId trader side price qty]) =
        submittedIds stream ++ [g.nextId] := submittedIds_append ..
    have hcan : cancelledIds (stream ++ [.makeSubmit g.nextId trader side price qty]) = cancelledIds stream :=
      (cancelledIds_append ..).trans (List.append_nil _)
    have hlen : (submittedIds (stream ++ [.makeSubmit g.nextId trader side price qty])).length =
        (submittedIds stream).length + 1 := by rw [hsub, List.length_append, List.length_singleton]
    refine ⟨hcfg.trans h.cfg_eq, ?_, ?_, ?_, ?_, ?_⟩
    · rw [hlen, hnext, h.nextId, Pow2.ofNat_succ]
    · rw [hlen, hsub, countedIds, List.range_succ, List.map_append, h.nextId]
      exact congrArg (· ++ _) h.submitted
    · rw [hsub, hcan, hlive, List.append_assoc]
      refine (List.Perm.append_left g.liveIds List.perm_append_comm).trans ?_
      rw [← List.append_assoc]
      exact h.split.append_right _
    · intro c hc
      rcases List.mem_append.1 hc with hc | hc
      · exact h.kinds c hc
      · rw [List.mem_singleton.1 hc]
        exact .inl rfl
    · intro c hc hsubmit
      rcases List.mem_append.1 hc with hc | hc
      · exact h.bounds c hc hsubmit
      · rw [List.mem_singleton.1 hc, ← h.cfg_eq]
        exact ⟨hqty, hprice⟩

theorem Inv.run {stream before : List Command} {draws : List Draws} (h : Inv cfg g before) (hmax : 1 ≤ cfg.maxQty)
    (hr : Machine.run next g draws = some (g', stream)) : Inv cfg g' (before ++ stream) :=
  Machine.run_history (P := Inv cfg) (fun _ _ _ _ _ _ ht hs => ht.step hmax hs) h hr

theorem countedIds_toNat {n : Nat} (hn : n < 2 ^ 64) : (countedIds n).map (·.toNat) = List.range' 1 n := by
  unfold countedIds
  rw [List.map_map, List.range'_eq_map_range]
  refine List.map_congr_left fun i hi => ?_
  have hlt := List.mem_range.1 hi
  show (UInt64.ofNat (i + 1)).toNat = 1 + i
  rw [UInt64.toNat_ofNat_of_lt' (by show i + 1 < 2 ^ 64; omega), Nat.add_comm]

theorem countedIds_nodup {n : Nat} (hn : n < 2 ^ 64) : (countedIds n).Nodup := by
  apply List.Nodup.of_map (fun id : OrderId => id.toNat)
  rw [countedIds_toNat hn]
  exact List.nodup_range'

/-- As long as the counter has not come round, no id is live or cancelled twice. -/
theorem Inv.nodup {stream : List Command} (h : Inv cfg g stream) (hn : (submittedIds stream).length < 2 ^ 64) :
    (g.liveIds ++ cancelledIds stream).Nodup := by
  rw [h.split.nodup_iff, h.submitted]
  exact countedIds_nodup hn

end OrderGenerator

/-! ## The stream in a book -/

namespace ListEngine

variable {e : ListEngine}

end ListEngine

namespace OrderGenerator

variable {g : OrderGenerator}

/-- Draws of a passive buy. -/
def passiveBuy : Draws :=
  { doCancel := false, pick := 0, moves := false, up := false, buy := true, trader := 3, size := 20, offset := 2,
    marketable := false }

theorem passiveBuy_submits (hcfg : g.cfg = .new) (hlive : g.liveIds = []) :
    ∃ g' cmd, g.next passiveBuy = some (g', cmd) ∧ g'.cfg = .new ∧ g'.liveIds = [g.nextId] ∧
      submittedIds [cmd] = [g.nextId] := by
  have hnext : g.next passiveBuy = g.makeSubmit passiveBuy := if_neg (by simp [passiveBuy])
  obtain ⟨g', cmd, hs⟩ := @next_returns g passiveBuy List.length_pos_of_ne_nil (by rw [hcfg]; decide) (by decide)
    (by decide)
  rw [hnext] at hs
  obtain ⟨trader, side, price, qty, rfl, -, -, hcfg', -, hlive'⟩ := makeSubmit_spec hs (by rw [hcfg]; decide)
  exact ⟨g', _, hnext.trans hs, hcfg'.trans hcfg, by rw [hlive', hlive]; rfl, rfl⟩

/-- The only live order is cancelled. -/
theorem cancels_only {id : OrderId} (hlive : g.liveIds = [id]) :
    g.next { passiveBuy with doCancel := true } = some ({ g with liveIds := [] }, .makeCancel id) := by
  obtain ⟨cfg, mid, nextId, liveIds⟩ := g
  subst hlive
  rfl

/-- Each order is cancelled before the next, so at most one is live at a time. -/
theorem comeAndGo (hcfg : g.cfg = .new) (hlive : g.liveIds = []) (n : Nat) : ∃ g' stream,
    Machine.run next g (List.replicate n [passiveBuy, { passiveBuy with doCancel := true }]).flatten =
      some (g', stream) ∧ g'.cfg = .new ∧ g'.liveIds = [] ∧ (submittedIds stream).length = n := by
  induction n generalizing g with
  | zero => exact ⟨g, [], rfl, hcfg, hlive, rfl⟩
  | succ n ih =>
    obtain ⟨t, cmd, hs, ht, hlive₁, hid⟩ := passiveBuy_submits hcfg hlive
    have hcancel := cancels_only hlive₁
    obtain ⟨g', stream, hr, hcfg', hlive', hlen⟩ := @ih { t with liveIds := [] } ht rfl
    refine ⟨g', cmd :: .makeCancel g.nextId :: stream, ?_, hcfg', hlive', ?_⟩
    · rw [List.replicate_succ, List.flatten_cons, List.cons_append, List.cons_append, List.nil_append,
        Machine.run_cons _ hs, Machine.run_cons _ hcancel, hr]
      rfl
    · have hcount : submittedIds (cmd :: .makeCancel g.nextId :: stream) = submittedIds [cmd] ++ submittedIds stream :=
        submittedIds_append [cmd] (.makeCancel g.nextId :: stream)
      rw [hcount, hid, List.length_append, hlen, List.length_singleton, Nat.add_comm]

end OrderGenerator

end Obe
