/-
The gate's record of ids against what the book took in. The gate records the id of every submit it
accepts; the book then refuses those of quantity 0, and no others, since an id that rests was
recorded before. So a later submit is a duplicate when an earlier one with its id was taken in or
had no quantity.
-/
import OrderBookEngine.Engine.Gate

namespace Obe

/-- A submit command with the gate's verdict, and the book's answer when it was passed on. -/
structure Submission where
  cmd : Command
  verdict : RejectReason
  status : Option SubmitStatus
  deriving DecidableEq, Repr

namespace Submission

def TakenIn (s : Submission) : Prop := ∃ status, s.status = some status ∧ status ≠ .rejected

/-- Passed the gate with nothing to trade. -/
def Void (s : Submission) : Prop := s.verdict = .accepted ∧ s.cmd.quantity = 0

end Submission

/-- The kill switch is off and the order is within the three limits. -/
def RiskManager.clears (m : RiskManager) (price : Price) (qty : Quantity) (reference : Option Price) : Bool :=
  !m.killSwitch && !m.cfg.overSize qty && !m.cfg.overNotional price qty && !m.cfg.outsideCollar price reference

namespace MatchingEngine

def answer (e : MatchingEngine) (cmd : Command) : Option SubmitStatus :=
  if e.verdict cmd = .accepted then
    (e.book.submit cmd.id cmd.trader cmd.side cmd.price cmd.quantity).map (·.2.status)
  else none

def submission (e : MatchingEngine) : EngineCall → Option Submission
  | .apply cmd => if cmd.type = .submit then some ⟨cmd, e.verdict cmd, e.answer cmd⟩ else none
  | .engageKillSwitch _ => none

/-- A call, and the submission it was. -/
def loggedCall (e : MatchingEngine) (c : EngineCall) : Option (MatchingEngine × Option Submission) :=
  (e.call c).map fun r => (r.1, e.submission c)

/-- The command passes the checks in front of the duplicate check. -/
def Clears (e : MatchingEngine) (cmd : Command) : Prop :=
  ∃ risk, e.risk = some risk ∧ risk.clears cmd.price cmd.quantity (e.reference cmd) = true

def seenIds (e : MatchingEngine) : Option (Finset OrderId) := e.risk.map (·.seenIds)

end MatchingEngine

namespace ListEngine

def submission (e : ListEngine) : EngineCall → Option Submission
  | .apply cmd =>
    if cmd.type = .submit then
      some ⟨cmd, e.verdict cmd, if e.verdict cmd = .accepted then
        some (e.book.submit ⟨cmd.id, cmd.trader, cmd.side, cmd.price⟩ cmd.quantity).2.status else none⟩
    else none
  | .engageKillSwitch _ => none

def loggedCall (e : ListEngine) (c : EngineCall) : ListEngine × Option Submission := ((e.call c).1, e.submission c)

end ListEngine

namespace MatchingEngine

theorem Represents.submission {e : MatchingEngine} {r : ListEngine} (h : e.Represents r) (c : EngineCall) :
    e.submission c = r.submission c := by
  cases c with
  | engageKillSwitch on => rfl
  | apply cmd =>
    obtain ⟨b, hb, -⟩ := OrderBook.submit_spec h.book cmd.id cmd.trader cmd.side cmd.price cmd.quantity
    unfold MatchingEngine.submission ListEngine.submission answer
    dsimp only
    rw [h.verdict, hb]
    rfl

theorem loggedCall_refines : Machine.Refines loggedCall ListEngine.loggedCall Represents := by
  intro e r c h
  obtain ⟨e', hcall, h'⟩ := call_refines e r c h
  refine ⟨e', ?_, h'⟩
  rw [loggedCall, hcall, h.submission]
  rfl

end MatchingEngine

/-! ## The check -/

namespace RiskManager

variable {m : RiskManager} {id : OrderId} {side : Side} {price : Price} {qty : Quantity} {reference : Option Price}

@[simp] theorem count_seenIds (m : RiskManager) (reason : RejectReason) : (m.count reason).seenIds = m.seenIds := rfl

@[simp] theorem count_cfg (m : RiskManager) (reason : RejectReason) : (m.count reason).cfg = m.cfg := rfl

/-- Behind the other checks, a recorded id decides. -/
theorem check_clear (hc : m.clears price qty reference = true) (hu : m.cfg.enforceUniqueIds = true) :
    (m.check id side price qty reference).2 = .duplicateOrder ↔ id ∈ m.seenIds := by
  unfold clears at hc
  simp only [Bool.and_eq_true, Bool.not_eq_true'] at hc
  obtain ⟨⟨⟨hk, hs⟩, hn⟩, hcol⟩ := hc
  unfold check
  simp only [hk, hs, hn, hcol, hu, Bool.false_eq_true, if_false, if_true]
  by_cases hid : id ∈ m.seenIds
  · simp [hid]
  · simp [hid]

/-- What is accepted has an id that was not recorded. -/
theorem accepted_fresh (hu : m.cfg.enforceUniqueIds = true)
    (ha : (m.check id side price qty reference).2 = .accepted) : id ∉ m.seenIds := by
  rcases m.check_cases id side price qty reference with ⟨-, h⟩ | ⟨-, -, reason, hr, h⟩ | ⟨-, hno, -⟩
  · rw [h] at ha
    cases ha
  · rw [h] at ha
    exact absurd ha hr
  · unfold refuses at hno
    simp only [hu, Bool.true_and, Bool.or_eq_false_iff, decide_eq_false_iff_not] at hno
    exact hno.2

/-- A check records the id of what it accepts, and changes no limit. -/
theorem check_records (hu : m.cfg.enforceUniqueIds = true) :
    (m.check id side price qty reference).1.cfg = m.cfg ∧
      (m.check id side price qty reference).1.seenIds =
        if (m.check id side price qty reference).2 = .accepted then insert id m.seenIds else m.seenIds := by
  rcases m.check_cases id side price qty reference with ⟨-, h⟩ | ⟨-, -, reason, hr, h⟩ | ⟨-, -, h⟩
  · rw [h]
    exact ⟨rfl, rfl⟩
  · rw [h]
    exact ⟨rfl, by rw [if_neg hr]; rfl⟩
  · rw [h, hu]
    exact ⟨rfl, rfl⟩

end RiskManager

/-! ## Gate and book along a run -/

namespace ListEngine

variable {e : ListEngine} {risk : RiskManager} {log : List (Option Submission)} {cmd : Command}

/-- The gate's record is the ids it accepted, and holds those of the resting orders; of what it accepted the
book refused the orders without a quantity. -/
structure Recorded (e : ListEngine) (risk : RiskManager) (log : List (Option Submission)) : Prop where
  gate : e.risk = some risk
  unique : risk.cfg.enforceUniqueIds = true
  seen : ∀ id, id ∈ risk.seenIds ↔ ∃ s, some s ∈ log ∧ s.cmd.id = id ∧ s.verdict = .accepted
  resting : ∀ id ∈ e.book.ids, id ∈ risk.seenIds
  answered : ∀ s, some s ∈ log → s.verdict = .accepted →
    ∃ status, s.status = some status ∧ (status = .rejected ↔ s.cmd.quantity = 0)
  asked : ∀ s, some s ∈ log → s.verdict ≠ .accepted → s.status = none

/-- What passed the gate was taken in or is void. -/
theorem Recorded.seen_iff (h : e.Recorded risk log) (id : OrderId) :
    id ∈ risk.seenIds ↔ ∃ s, some s ∈ log ∧ s.cmd.id = id ∧ (s.TakenIn ∨ s.Void) := by
  rw [h.seen]
  constructor
  · rintro ⟨s, hs, hid, hv⟩
    obtain ⟨status, hst, hiff⟩ := h.answered s hs hv
    refine ⟨s, hs, hid, ?_⟩
    by_cases hq : s.cmd.quantity = 0
    · exact .inr ⟨hv, hq⟩
    · exact .inl ⟨status, hst, fun he => hq (hiff.1 he)⟩
  · rintro ⟨s, hs, hid, ⟨status, hst, -⟩ | ⟨hv, -⟩⟩
    · refine ⟨s, hs, hid, ?_⟩
      by_contra hv
      rw [h.asked s hs hv] at hst
      cases hst
    · exact ⟨s, hs, hid, hv⟩

/-- A call that is no submission and brings no id into the book. -/
theorem Recorded.quiet (h : e.Recorded risk log) {e' : ListEngine} {risk' : RiskManager} (hrisk : e'.risk = some risk')
    (hcfg : risk'.cfg = risk.cfg) (hseen : risk'.seenIds = risk.seenIds) (hids : ∀ id ∈ e'.book.ids, id ∈ e.book.ids) :
    e'.Recorded risk' (log ++ [none]) := by
  have hmem : ∀ s, some s ∈ log ++ [none] ↔ some s ∈ log := by simp
  refine ⟨hrisk, by rw [hcfg]; exact h.unique, fun id => ?_, fun id hid => ?_, fun s hs => ?_, fun s hs => ?_⟩
  · rw [hseen, h.seen]
    simp only [hmem]
  · rw [hseen]
    exact h.resting id (hids id hid)
  · exact h.answered s ((hmem s).1 hs)
  · exact h.asked s ((hmem s).1 hs)

/-- A submission: its id is recorded when it is accepted. -/
theorem Recorded.submission (h : e.Recorded risk log) {e' : ListEngine} {risk' : RiskManager} {s : Submission}
    (hrisk : e'.risk = some risk') (hcfg : risk'.cfg = risk.cfg)
    (hseen : risk'.seenIds = if s.verdict = .accepted then insert s.cmd.id risk.seenIds else risk.seenIds)
    (hids : ∀ id ∈ e'.book.ids, id ∈ e.book.ids ∨ s.verdict = .accepted ∧ id = s.cmd.id)
    (hanswered : s.verdict = .accepted → ∃ status, s.status = some status ∧ (status = .rejected ↔ s.cmd.quantity = 0))
    (hasked : s.verdict ≠ .accepted → s.status = none) : e'.Recorded risk' (log ++ [some s]) := by
  have hmem : ∀ x, some x ∈ log ++ [some s] ↔ some x ∈ log ∨ x = s := by simp
  refine ⟨hrisk, by rw [hcfg]; exact h.unique, fun id => ?_, fun id hid => ?_, fun x hx => ?_, fun x hx => ?_⟩
  · rw [hseen]
    simp only [hmem]
    constructor
    · intro hid
      by_cases hv : s.verdict = .accepted
      · rw [if_pos hv, Finset.mem_insert] at hid
        rcases hid with rfl | hid
        · exact ⟨s, .inr rfl, rfl, hv⟩
        · obtain ⟨x, hx, hrest⟩ := (h.seen id).1 hid
          exact ⟨x, .inl hx, hrest⟩
      · rw [if_neg hv] at hid
        obtain ⟨x, hx, hrest⟩ := (h.seen id).1 hid
        exact ⟨x, .inl hx, hrest⟩
    · rintro ⟨x, hx | rfl, rfl, hv⟩
      · have := (h.seen x.cmd.id).2 ⟨x, hx, rfl, hv⟩
        split
        · exact Finset.mem_insert_of_mem this
        · exact this
      · rw [if_pos hv]
        exact Finset.mem_insert_self ..
  · rw [hseen]
    rcases hids id hid with hid | ⟨hv, rfl⟩
    · split
      · exact Finset.mem_insert_of_mem (h.resting id hid)
      · exact h.resting id hid
    · rw [if_pos hv]
      exact Finset.mem_insert_self ..
  · rcases (hmem x).1 hx with hx | rfl
    · exact h.answered x hx
    · exact hanswered
  · rcases (hmem x).1 hx with hx | rfl
    · exact h.asked x hx
    · exact hasked

theorem verdict_eq (hrisk : e.risk = some risk) (cmd : Command) :
    e.verdict cmd = (risk.check cmd.id cmd.side cmd.price cmd.quantity (e.reference cmd)).2 := by
  unfold verdict Controls.check
  rw [hrisk]

/-- The book refuses, of the ids that do not rest, the orders without a quantity. -/
theorem status_rejected_iff {b : ListBook} {taker : Taker} {quantity : Quantity} (hid : taker.id ∉ b.ids) :
    (b.submit taker quantity).2.status = .rejected ↔ quantity = 0 := by
  rcases ListBook.submit_cases b taker quantity with ⟨hq, he⟩ | ⟨⟨hq, -⟩, ⟨-, he⟩ | ⟨-, -, he⟩ | ⟨-, -, he⟩⟩
  · rw [he]
    exact ⟨fun _ => hq.resolve_right hid, fun _ => rfl⟩
  · rw [he]
    simp [hq]
  · rw [he]
    simp only [hq, iff_false]
    split <;> simp
  · rw [he]
    simp [hq]

theorem submit_ids {b : ListBook} {taker : Taker} {quantity : Quantity} {id : OrderId}
    (h : id ∈ (b.submit taker quantity).1.ids) : id ∈ b.ids ∨ id = taker.id := by
  by_cases hq : quantity = 0 ∨ taker.id ∈ b.ids
  · rw [ListBook.submit_refused hq] at h
    exact .inl h
  · obtain ⟨x, hx, rfl⟩ := List.mem_map.1 h
    rcases (ListBook.submit_accepted hq).2.2 x hx with hid | hx
    · exact .inr hid
    · exact .inl (ListBook.swept_ids (List.mem_map_of_mem hx))

/-- One command. -/
theorem Recorded.apply (h : e.Recorded risk log) (cmd : Command) :
    ∃ risk', (e.apply cmd).1.Recorded risk' (log ++ [e.submission (.apply cmd)]) := by
  by_cases hs : cmd.type = .submit
  · have hsub : e.submission (.apply cmd) = some ⟨cmd, e.verdict cmd, if e.verdict cmd = .accepted then
        some (e.book.submit ⟨cmd.id, cmd.trader, cmd.side, cmd.price⟩ cmd.quantity).2.status else none⟩ := if_pos hs
    obtain ⟨hafter, -⟩ := checked h.gate cmd
    obtain ⟨hcfg, hseen⟩ := @RiskManager.check_records risk cmd.id cmd.side cmd.price cmd.quantity
      (e.reference cmd) h.unique
    rw [← verdict_eq h.gate cmd] at hseen
    rw [hsub]
    by_cases hv : e.verdict cmd = .accepted
    · have hfresh : cmd.id ∉ e.book.ids := fun hid =>
        RiskManager.accepted_fresh h.unique ((verdict_eq h.gate cmd).symm.trans hv) (h.resting _ hid)
      rw [e.apply_accepted hs hv]
      refine ⟨_, h.submission hafter hcfg hseen (fun id hid => ?_) (fun _ => ?_) (fun hne => absurd hv hne)⟩
      · exact (submit_ids hid).imp_right fun he => ⟨hv, he⟩
      · exact ⟨_, if_pos hv, status_rejected_iff hfresh⟩
    · rw [e.apply_rejected hs hv]
      exact ⟨_, h.submission hafter hcfg hseen (fun id hid => .inl hid) (fun he => absurd he hv) fun _ => if_neg hv⟩
  · have hsub : e.submission (.apply cmd) = none := if_neg hs
    rw [hsub]
    by_cases hc : cmd.type = .cancel
    · rw [e.apply_cancel hc]
      refine ⟨risk, h.quiet ((Controls.journal_risk ..).trans h.gate) rfl rfl fun id hid => ?_⟩
      obtain ⟨x, hx, rfl⟩ := List.mem_map.1 hid
      exact List.mem_map_of_mem (ListBook.mem_cancel.1 hx).1
    · rw [e.apply_other hs hc]
      exact ⟨risk, h.quiet ((Controls.journal_risk ..).trans h.gate) rfl rfl fun id hid => hid⟩

theorem Recorded.step (h : e.Recorded risk log) (c : EngineCall) :
    ∃ risk', (e.loggedCall c).1.Recorded risk' (log ++ [(e.loggedCall c).2]) := by
  cases c with
  | apply cmd => exact h.apply cmd
  | engageKillSwitch on =>
    exact ⟨risk.engageKillSwitch on, h.quiet (congrArg (Option.map _) h.gate) rfl rfl fun id hid => hid⟩

theorem Recorded.run (h : e.Recorded risk log) (calls : List EngineCall) :
    ∃ risk', (Machine.runT loggedCall e calls).1.Recorded risk' (log ++ (Machine.runT loggedCall e calls).2) := by
  induction calls generalizing e risk log with
  | nil => exact ⟨risk, by rw [show (Machine.runT loggedCall e []).2 = [] from rfl, List.append_nil]; exact h⟩
  | cons c calls ih =>
    obtain ⟨risk₁, h₁⟩ := h.step c
    obtain ⟨risk', h'⟩ := ih h₁
    exact ⟨risk', by rw [List.append_assoc] at h'; exact h'⟩

theorem Recorded.fresh (stp : SelfTradePolicy) (cfg : RiskConfig) (hu : cfg.enforceUniqueIds = true)
    (host : Option Bytes.ByteOrder) : (ListEngine.fresh stp (some cfg) host).Recorded (.create cfg) [] := by
  have hrisk : (ListEngine.fresh stp (some cfg) host).risk = some (.create cfg) := by cases host <;> rfl
  refine ⟨hrisk, hu, fun id => ?_, fun id hid => ?_, nofun, nofun⟩
  · simp [RiskManager.create]
  · exact absurd hid (by simp [ListEngine.fresh, ListBook.create, ListBook.ids, ListBook.resting])

end ListEngine

namespace MatchingEngine

theorem Represents.clears {e : MatchingEngine} {r : ListEngine} (h : e.Represents r) {cmd : Command} :
    e.Clears cmd ↔ ∃ risk, r.risk = some risk ∧ risk.clears cmd.price cmd.quantity (r.reference cmd) = true := by
  unfold Clears
  rw [h.controls, h.reference]

/-- **The duplicate check** of a gate installed from the start, with any limits: past the other checks,
a submit is a duplicate when an earlier one with its id was taken in by the book or passed the gate
without a quantity; the book refuses just the latter; and a submit records its id exactly when
the gate accepts it. -/
theorem duplicate_iff (stp : SelfTradePolicy) (poolCapacity : UInt64) (limits : RiskConfig)
    (host : Option Bytes.ByteOrder) (calls : List EngineCall) :
    ∃ e₀ e log, fresh stp poolCapacity (some { limits with enforceUniqueIds := true }) host = some e₀ ∧
      Machine.run loggedCall e₀ calls = some (e, log) ∧
      (∀ cmd, cmd.type = .submit → e.Clears cmd →
        (e.verdict cmd = .duplicateOrder ↔ ∃ s, some s ∈ log ∧ s.cmd.id = cmd.id ∧ (s.TakenIn ∨ s.Void))) ∧
      (∀ s, some s ∈ log → (s.status = some .rejected ↔ s.Void)) ∧
      ∀ cmd, cmd.type = .submit → ∃ e' trades, e.apply cmd = some (e', trades) ∧
        e'.seenIds = if e.verdict cmd = .accepted then e.seenIds.map (insert cmd.id) else e.seenIds := by
  obtain ⟨e₀, hr, h₀⟩ := fresh_spec stp poolCapacity (some { limits with enforceUniqueIds := true }) host
  obtain ⟨e, hrun, h⟩ := loggedCall_refines.run h₀ calls
  obtain ⟨risk, hrec⟩ := (ListEngine.Recorded.fresh stp { limits with enforceUniqueIds := true } rfl host).run calls
  rw [List.nil_append] at hrec
  generalize Machine.runT ListEngine.loggedCall (.fresh stp (some { limits with enforceUniqueIds := true }) host) calls =
    last at hrun h hrec
  refine ⟨e₀, e, last.2, hr, hrun, fun cmd _ hclear => ?_, fun s hs => ?_, fun cmd hsub => ?_⟩
  · obtain ⟨risk', hrisk', hc⟩ := h.clears.1 hclear
    rw [hrec.gate] at hrisk'
    cases hrisk'
    rw [h.verdict, ListEngine.verdict_eq hrec.gate, RiskManager.check_clear hc hrec.unique]
    exact hrec.seen_iff cmd.id
  · by_cases hv : s.verdict = .accepted
    · obtain ⟨status, hst, hiff⟩ := hrec.answered s hs hv
      rw [hst, Option.some.injEq, hiff]
      exact ⟨fun hq => ⟨hv, hq⟩, fun hvoid => hvoid.2⟩
    · rw [hrec.asked s hs hv]
      exact ⟨nofun, fun hvoid => absurd hvoid.1 hv⟩
  · obtain ⟨e', happly, h'⟩ := apply_refines e last.1 cmd h
    refine ⟨e', _, happly, ?_⟩
    have hafter : (last.1.apply cmd).1.risk =
        some (risk.check cmd.id cmd.side cmd.price cmd.quantity (last.1.reference cmd)).1 := by
      have hchecked := (ListEngine.checked hrec.gate cmd).1
      by_cases hv : last.1.verdict cmd = .accepted
      · rw [last.1.apply_accepted hsub hv]
        exact hchecked
      · rw [last.1.apply_rejected hsub hv]
        exact hchecked
    have hseen := (@RiskManager.check_records risk cmd.id cmd.side cmd.price cmd.quantity
      (last.1.reference cmd) hrec.unique).2
    unfold seenIds
    rw [h'.controls, hafter, h.controls, hrec.gate, h.verdict, Option.map_some, hseen,
      ← ListEngine.verdict_eq hrec.gate]
    split <;> rfl

/-- An order without a quantity, then the corrected one: a duplicate, though the book took in nothing. -/
theorem void_id_recorded :
    ¬ ∀ (stp : SelfTradePolicy) (e₀ e : MatchingEngine) (calls : List EngineCall) (log : List (Option Submission)),
      fresh stp 1 (some .new) none = some e₀ → Machine.run loggedCall e₀ calls = some (e, log) →
      ∀ cmd, cmd.type = .submit → e.Clears cmd →
        (e.verdict cmd = .duplicateOrder ↔ ∃ s, some s ∈ log ∧ s.cmd.id = cmd.id ∧ s.TakenIn) := by
  intro h
  obtain ⟨e₀, hr, h₀⟩ := fresh_spec .none 1 (some .new) none
  obtain ⟨e, hrun, hrep⟩ := loggedCall_refines.run h₀ [.apply (.makeSubmit 1 1 .buy 100 0)]
  have hlog : (Machine.runT ListEngine.loggedCall (.fresh .none (some .new) none)
      [.apply (.makeSubmit 1 1 .buy 100 0)]).2 =
        [some ⟨.makeSubmit 1 1 .buy 100 0, .accepted, some .rejected⟩] := by decide
  rw [hlog] at hrun
  have hclear : e.Clears (.makeSubmit 1 1 .buy 100 10) := hrep.clears.2 ⟨_, rfl, by decide⟩
  have hdup : e.verdict (.makeSubmit 1 1 .buy 100 10) = .duplicateOrder := by
    rw [hrep.verdict]
    decide
  obtain ⟨s, hs, -, status, hst, hne⟩ := (h .none e₀ e _ _ hr hrun _ rfl hclear).1 hdup
  simp only [List.mem_singleton, Option.some.injEq] at hs
  subst hs
  cases hst
  exact hne rfl

end MatchingEngine

end Obe
