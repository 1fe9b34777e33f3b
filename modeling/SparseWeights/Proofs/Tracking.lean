import Mathlib.Data.List.Basic
import Mathlib.Data.List.Induction
import SparseWeights.Tracking

/-!
What a tracking service receives. A tracker holds the service from the first start
that finds it to the next finish, and hands on what it is given exactly as long as it
holds the service. A start that finds the service and then fails when the session is to
begin counts among them, so that what follows is written although no session has begun.
Without such a start the service is written to in sessions alone that have begun.
-/

namespace SparseWeights

namespace ServiceCall

/-- Whether a call brings measurements or a part of a summary. -/
def isWrite : ServiceCall → Bool
  | .log .. | .summary .. => true
  | .init .. | .finish => false

def isLog : ServiceCall → Bool
  | .log .. => true
  | .init .. | .summary .. | .finish => false

end ServiceCall

namespace Tracker

/-- What a tracker is asked for. The service answers anew at every start. -/
inductive Turn where
  | start (service : Service) (config : Value)
  | record (r : Record Value Float)
  | summary (summary : Value)
  | finish

namespace Turn

/-- How the service answers, if the turn is a start. -/
def service? : Turn → Option Service
  | start service _ => some service
  | record _ | summary _ | finish => none

def record? : Turn → Option (Record Value Float)
  | record r => some r
  | start .. | summary _ | finish => none

def isFinish : Turn → Bool
  | finish => true
  | start .. | record _ | summary _ => false

end Turn

def take (t : Tracker) : Turn → Outcome
  | .start service config => t.start service config
  | .record r => t.record r
  | .summary summary => t.summary summary
  | .finish => t.finish

/-- The tracker after some turns, whether they have come to their end or not. -/
def after (t : Tracker) : List Turn → Tracker
  | [] => t
  | turn :: rest => (t.take turn).tracker.after rest

/-- All calls that the service receives during some turns. -/
def calls (t : Tracker) : List Turn → List ServiceCall
  | [] => []
  | turn :: rest => (t.take turn).calls ++ (t.take turn).tracker.calls rest

/-- The turns since the last finish, from the latest on. -/
def sinceFinish (turns : List Turn) : List Turn :=
  turns.reverse.takeWhile fun turn => !turn.isFinish

/-- Whether there was a start with an answer of some kind, and no finish since. -/
def started (answers : Service → Bool) (turns : List Turn) : Bool :=
  (sinceFinish turns).any fun turn => turn.service?.any answers

/-- Whether a start has found the service, with no finish since. -/
def hasFound : List Turn → Bool := started (· ≠ .absent)

/-- Whether a start has come to its end, with no finish since. -/
def hasBegun : List Turn → Bool := started (· = .ready)

/-- Whether a start has failed when the session was to begin, with no finish since. -/
def hasFailed : List Turn → Bool := started (· = .failing)

/-- The records that come after a start that has found the service, with no finish
in between. -/
def delivered (turns : List Turn) : List (Record Value Float) :=
  turns.zipIdx.filterMap fun entry => entry.1.record?.filter fun _ => hasFound (turns.take entry.2)

/-- The call that a record is sent with, if its iteration can be made a whole number. -/
def logOf? (r : Record Value Float) : Option ServiceCall :=
  r.iteration.toInt.toOption.map fun step => .log step (measurementsOf r)

section

variable {turns : List Turn} {turn : Turn}

theorem hasFound_eq (turns : List Turn) :
    hasFound turns = (hasBegun turns || hasFailed turns) := by
  rw [Bool.eq_iff_iff, Bool.or_eq_true]
  simp only [hasFound, hasBegun, hasFailed, started, List.any_eq_true, ← exists_or, ← and_or_left]
  refine exists_congr fun turn => and_congr_right fun _ => ?_
  cases turn with
  | start service config => cases service <;> simp [Turn.service?]
  | record r | summary summary | finish => simp [Turn.service?]

theorem started_append_singleton (answers : Service → Bool) :
    started answers (turns ++ [turn]) =
      (!turn.isFinish && (turn.service?.any answers || started answers turns)) := by
  rw [started, sinceFinish, List.reverse_append, List.reverse_singleton, List.singleton_append,
    List.takeWhile_cons]
  cases turn.isFinish <;> rfl

theorem delivered_append_singleton :
    delivered (turns ++ [turn]) =
      delivered turns ++ (turn.record?.filter fun _ => hasFound turns).toList := by
  have hearlier : ∀ entry ∈ turns.zipIdx,
      (entry.1.record?.filter fun _ => hasFound ((turns ++ [turn]).take entry.2)) =
        entry.1.record?.filter fun _ => hasFound (turns.take entry.2) := by
    intro entry hentry
    have hplace := List.snd_lt_of_mem_zipIdx hentry
    rw [List.take_append_of_le_length (by omega)]
  rw [delivered, List.zipIdx_append, List.filterMap_append, List.filterMap_congr hearlier, delivered]
  congr 1
  cases h : turn.record?.filter fun _ => hasFound turns <;> simp [h]

end

section

variable (t : Tracker) (turn : Turn)

/-- A start that finds the service takes hold of it, whether the session begins or not,
and a finish lets go of it. -/
theorem holding_take :
    (t.take turn).tracker.holding =
      (!turn.isFinish && (turn.service?.any (· ≠ .absent) || t.holding)) := by
  cases turn with
  | start service config => cases service <;> rfl
  | record r =>
      have hkept : (t.record r).tracker = t := by
        rw [record]
        split
        · split <;> rfl
        · rfl
      exact congrArg holding hkept
  | summary summary =>
      have hkept : (t.summary summary).tracker = t := by
        unfold Tracker.summary
        split
        · split <;> rfl
        · rfl
      exact congrArg holding hkept
  | finish =>
      rw [take, finish]
      split <;> simp_all [Turn.isFinish]

variable {t turn}

theorem holding_of_isWrite {call : ServiceCall} (hcall : call ∈ (t.take turn).calls)
    (hwrite : call.isWrite = true) : t.holding = true := by
  cases turn with
  | start service config => cases service <;> simp_all [take, start, ServiceCall.isWrite]
  | record r =>
      by_contra h
      simp_all [take, record]
  | summary summary =>
      by_contra h
      simp_all [take, Tracker.summary]
  | finish =>
      by_contra h
      simp_all [take, finish]

/-- Of all turns only a record that comes while the service is held is logged, and it is
logged once. -/
theorem filter_isLog_take :
    (t.take turn).calls.filter ServiceCall.isLog =
      ((turn.record?.filter fun _ => t.holding).bind logOf?).toList := by
  cases turn with
  | start service config => cases service <;> rfl
  | record r =>
      rw [take, record]
      cases t.holding with
      | false => rfl
      | true =>
          simp only [Turn.record?, Option.filter_some, if_true, Option.bind_some, logOf?]
          cases r.iteration.toInt <;> rfl
  | summary summary =>
      have hnone : (t.summary summary).calls.filter ServiceCall.isLog = [] := by
        unfold Tracker.summary
        split
        · split
          · rw [List.filter_eq_nil_iff]
            rintro call hcall
            obtain ⟨field, _, rfl⟩ := List.mem_map.mp hcall
            exact Bool.false_ne_true
          · rfl
        · rfl
      exact hnone
  | finish =>
      rw [take, finish]
      split <;> rfl

theorem record_of_holding (hheld : t.holding = true) {r : Record Value Float} {step : Int}
    (hstep : r.iteration = .int step) :
    t.record r = ⟨t, [.log step [("admm/obj_p", .float r.primal), ("admm/obj_d", .float r.dual),
      ("admm/pdgap", .float r.gap), ("admm/infeas_p", .float r.primalResidual),
      ("admm/infeas_d", .float r.dualResidual), ("admm/rho", .float r.rho)]], none⟩ := by
  rw [record, if_pos hheld, hstep]
  rfl

end

section

variable (t : Tracker) (before : List Turn) (turn : Turn)

theorem after_append_singleton :
    t.after (before ++ [turn]) = ((t.after before).take turn).tracker := by
  induction before generalizing t with
  | nil => rfl
  | cons first rest ih => exact ih _

theorem calls_append_singleton :
    t.calls (before ++ [turn]) = t.calls before ++ ((t.after before).take turn).calls := by
  induction before generalizing t with
  | nil => simp [calls, after]
  | cons first rest ih => rw [List.cons_append, calls, ih, calls, after, List.append_assoc]

end

variable (project name : Value) (turns : List Turn)

/-- The service is held exactly as long as a start has found it, with no finish since. -/
theorem holding_after : ((new project name).after turns).holding = hasFound turns := by
  induction turns using List.reverseRecOn with
  | nil => rfl
  | append_singleton turns turn ih =>
      rw [after_append_singleton, holding_take, ih, hasFound, started_append_singleton]

theorem filter_isLog_calls :
    ((new project name).calls turns).filter ServiceCall.isLog =
      (delivered turns).filterMap logOf? := by
  induction turns using List.reverseRecOn with
  | nil => rfl
  | append_singleton turns turn ih =>
      rw [calls_append_singleton, List.filter_append, ih, filter_isLog_take, holding_after,
        delivered_append_singleton, List.filterMap_append]
      congr 1
      cases turn.record?.filter fun _ => hasFound turns with
      | none => rfl
      | some r => cases h : logOf? r <;> simp [h]

/-- Whatever is asked of a tracker, and however the service answers at each start, the
service is held exactly if a start has come to its end, or has failed when the session
was to begin, with no finish since; and only then is anything written. A start that
fails takes hold of the service if it has found it. The records that come while the
service is held are logged once each, in their order, and one with a whole number of
iterations under that number, with all its measurements and nothing else. -/
theorem writes_while_held (project name : Value) (turns : List Turn) :
    ((new project name).after turns).holding = (hasBegun turns || hasFailed turns) ∧
      (∀ turn, ∀ call ∈ (((new project name).after turns).take turn).calls,
        call.isWrite = true → (hasBegun turns || hasFailed turns) = true) ∧
      (∀ service config, (((new project name).after turns).start service config).error ≠ none →
        hasBegun turns = false → hasFailed turns = false →
        (((new project name).after turns).start service config).tracker.holding =
          decide (service = .failing)) ∧
      ((new project name).calls turns).filter ServiceCall.isLog =
        (delivered turns).filterMap logOf? ∧
      ∀ r step, r.iteration = .int step → (hasBegun turns || hasFailed turns) = true →
        ((new project name).after turns).record r =
          ⟨(new project name).after turns, [.log step [("admm/obj_p", .float r.primal),
            ("admm/obj_d", .float r.dual), ("admm/pdgap", .float r.gap),
            ("admm/infeas_p", .float r.primalResidual),
            ("admm/infeas_d", .float r.dualResidual), ("admm/rho", .float r.rho)]], none⟩ := by
  have hheld : ((new project name).after turns).holding = (hasBegun turns || hasFailed turns) := by
    rw [holding_after, hasFound_eq]
  refine ⟨hheld, ?_, ?_, filter_isLog_calls project name turns, ?_⟩
  · intro turn call hcall hwrite
    rw [← hheld]
    exact holding_of_isWrite hcall hwrite
  · intro service config herror hbegun hfailed
    rw [hbegun, hfailed] at hheld
    cases service with
    | absent => exact hheld
    | failing => rfl
    | ready => exact absurd rfl herror
  · intro r step hstep hfound
    exact record_of_holding (hheld.trans hfound) hstep

def thirdRecord : Record Value Float := ⟨.int 3, 1, 0.5, 0.5, 0.125, 0, 2⟩

/-- The first start comes to its end; the second comes after a finish, and fails. -/
def failedRestart : List Turn :=
  [.start .absent .null, .record thirdRecord, .start .ready .null, .record thirdRecord, .finish,
    .record thirdRecord, .start .failing .null]

theorem writes_while_held_restarted :
    ((new (.text "p") .null).calls failedRestart).filter ServiceCall.isLog =
        [thirdRecord].filterMap logOf? ∧
      ((new (.text "p") .null).after failedRestart).holding = true := by
  obtain ⟨hheld, _, _, hlogs, _⟩ := writes_while_held (.text "p") .null failedRestart
  exact ⟨hlogs, hheld⟩

/-- After a start that failed a record is logged, although no session has begun; and a record of
an iteration that is no whole number is logged under its whole part. -/
theorem writes_astray :
    (((new (.text "p") .null).start .failing .null).error = some (.fault .serviceFailed) ∧
      ((new (.text "p") .null).start .failing .null).tracker.holding = true ∧
      hasBegun [.start .failing .null] = false ∧
      ∃ call ∈ (((new (.text "p") .null).after [.start .failing .null]).take
        (.record thirdRecord)).calls, call.isWrite = true) ∧
    (((new (.text "p") .null).after [.start .ready .null]).take
      (.record { thirdRecord with iteration := .float 7.5 })).calls =
        [.log 7 (measurementsOf thirdRecord)] :=
  ⟨⟨rfl, rfl, rfl, _, List.mem_singleton_self _, rfl⟩, rfl⟩

end Tracker

end SparseWeights
