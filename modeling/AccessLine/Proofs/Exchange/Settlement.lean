import AccessLine.Log.Basic
import AccessLine.Proofs.Exchange.History

/-!
# Settling a line

A body that owes a line settles it at the first poll that ends it, or when it is dropped, and never
again. So a run of an exchange gives exactly the notices that its history calls for, and the log
that follows the run emits at most one line.
-/
namespace AccessLine

open Http

namespace LoggedBody

theorem settlesNext_eq (b : LoggedBody) : b.settlesNext = b.inner.settles b.past := by
  unfold settlesNext next Body.settles
  cases b.inner.answer b.past <;> rfl

theorem poll_of_not_settles {b : LoggedBody} (h : b.inner.settles b.past = false)
    (now : Timestamp) : b.poll now = (b.next, { b with past := .polled :: b.past }, []) := by
  rw [← settlesNext_eq] at h
  simp [poll, h]

theorem owed_poll_of_settles {b : LoggedBody} (h : b.inner.settles b.past = true)
    (now : Timestamp) : (b.poll now).2.1.owed = none := by
  rw [← settlesNext_eq] at h
  simp [poll, h]

theorem notices_poll_of_settles {b : LoggedBody} {o : Owed} (ho : b.owed = some o)
    (h : b.inner.settles b.past = true) (now : Timestamp) :
    (b.poll now).2.2 =
      [if (b.inner.answer b.past).isFailure then .bodyFailed o.request else o.complete now] := by
  rw [← settlesNext_eq] at h
  simp only [poll, h, if_true, ho, Option.toList_some, List.map_cons, List.map_nil]
  unfold next
  cases b.inner.answer b.past <;> rfl

theorem poll_of_owed_none {b : LoggedBody} (ho : b.owed = none) (now : Timestamp) :
    (b.poll now).2.1.owed = none ∧ (b.poll now).2.2 = [] := by
  unfold poll
  split
  · simp [ho]
  · exact ⟨ho, rfl⟩

end LoggedBody

/-- The notice that settles a line with a given fate. -/
def Fate.notices (o : Owed) : Fate → List Notice
  | .due now => [o.complete now]
  | .failed => [.bodyFailed o.request]
  | .cutShort => [.droppedEarly o.request]
  | .unanswered | .owed => []

namespace Exchange

variable (immediate : Bool)

/-- A body that owes nothing gives no notice, whatever is done with it. -/
theorem run_answered_of_owed_none (s : Script) {b : LoggedBody} (ho : b.owed = none) :
    (run immediate (.answered b) s).2.1.owes = false ∧
      (run immediate (.answered b) s).2.2 = [] := by
  induction s generalizing b with
  | nil => exact ⟨by simp [owes, LoggedBody.isPending, ho], rfl⟩
  | cons x s ih =>
      obtain ⟨now, h⟩ := x
      cases h with
      | poll | info | wait => exact ih ho
      | frame =>
          obtain ⟨hn, hs⟩ := LoggedBody.poll_of_owed_none ho now
          have hr := ih hn
          rw [run_cons]
          exact ⟨hr.1, by simp [step, hs, hr.2]⟩
      | drop =>
          have hr := run_gone immediate s
          rw [run_cons]
          constructor
          · simp [step, hr.1, owes]
          · simp [step, hr.2, LoggedBody.drop, ho]

/-- A body that owes a line settles it as its history says. -/
theorem run_answered (s : Script) {b : LoggedBody} {o : Owed} (ho : b.owed = some o) :
    (run immediate (.answered b) s).2.1.owes =
        decide (b.inner.fate o.bodyless b.past s = .owed) ∧
      (run immediate (.answered b) s).2.2 = (b.inner.fate o.bodyless b.past s).notices o := by
  induction s generalizing b with
  | nil => exact ⟨by simp [owes, LoggedBody.isPending, ho], rfl⟩
  | cons x s ih =>
      obtain ⟨now, h⟩ := x
      cases h with
      | poll | info => exact ih ho
      | wait => exact ih (b := b.feed) ho
      | frame =>
          cases hs : b.inner.settles b.past with
          | false =>
              rw [Body.fate_cons_frame _ _ _ _ _ hs, run_cons]
              simp only [step, LoggedBody.poll_of_not_settles hs, List.nil_append]
              exact ih (b := { b with past := .polled :: b.past }) ho
          | true =>
              rw [Body.fate_cons_frame_of_settles _ _ _ _ _ hs, run_cons]
              have hr := run_answered_of_owed_none immediate s
                (LoggedBody.owed_poll_of_settles hs now)
              have hn := LoggedBody.notices_poll_of_settles ho hs now
              simp only [step, hr.1, hr.2, hn, List.append_nil]
              cases (b.inner.answer b.past).isFailure <;> exact ⟨rfl, rfl⟩
      | drop =>
          have hr := run_gone immediate s
          rw [Body.fate_cons_drop, run_cons]
          simp only [step, hr.1, hr.2, List.append_nil, LoggedBody.drop, ho, Option.toList_some,
            List.map_cons, List.map_nil]
          cases o.bodyless <;> exact ⟨rfl, rfl⟩

def owedBy (request : RequestView) (reply : Reply) : Owed where
  request
  response := { head := some reply.head }
  bodyless := reply.Bodyless request.method

theorem owed_owing (request : RequestView) (reply : Reply) :
    (LoggedBody.owing request reply).owed = some (owedBy request reply) := by
  have h : decide (reply.Bodyless request.method) =
      (reply.body.atEnd [] || !carriesBody request.method reply.head.status) := by
    simp only [Reply.bodyless_iff, Bool.decide_eq_true]
  simp only [LoggedBody.owing, owedBy, h]

/-- The fate of the line while the handler is at work, with so many polls left that stay pending. -/
theorem run_handling (s : Script) (request : RequestView) (reply : Reply) (delay : Nat) :
    let o := owedBy request reply
    match s.afterHead delay with
    | none =>
        (run false (.handling request reply delay) s).2.1.owes = false ∧
          (run false (.handling request reply delay) s).2.2 = []
    | some rest =>
        (run false (.handling request reply delay) s).2.1.owes =
            decide (reply.body.fate o.bodyless [] rest = .owed) ∧
          (run false (.handling request reply delay) s).2.2 =
            .headReady request reply.head.status ::
              (reply.body.fate o.bodyless [] rest).notices o := by
  induction s generalizing delay with
  | nil => simp [owes]
  | cons x s ih =>
      obtain ⟨now, h⟩ := x
      cases h with
      | frame | info | wait =>
          rw [Script.afterHead_cons_of_ne _ _ _ _ (by decide) (by decide)]
          exact ih delay
      | drop =>
          have hr := run_gone false s
          rw [Script.afterHead_cons_drop, run_cons]
          simp [step, hr.1, hr.2, owes]
      | poll =>
          cases delay with
          | succ delay => exact ih delay
          | zero =>
              have hr := run_answered false s (owed_owing request reply)
              have hn : (run false (.answered (.owing request reply)) s).2.2 =
                  (reply.body.fate (owedBy request reply).bodyless [] s).notices
                    (owedBy request reply) := hr.2
              rw [run_cons]
              exact ⟨hr.1, by simp only [step, handle, hn, Bool.false_eq_true, if_false,
                List.singleton_append]⟩

/-- Before the first poll the handler is not called. From then on the exchange is one with the
handler at work. -/
theorem run_waiting (s : Script) (request : Request) (handler : Handler) :
    match s.arrival? with
    | none =>
        (run false (.waiting request handler) s).2.1.owes = false ∧
          (run false (.waiting request handler) s).2.2 = []
    | some start =>
        let e := .handling (request.viewAt start) (handler.reply request) (handler.delay request)
        (run false (.waiting request handler) s).2.1 = (run false e s).2.1 ∧
          (run false (.waiting request handler) s).2.2 = .called request :: (run false e s).2.2 := by
  induction s with
  | nil => simp [Script.arrival?, owes]
  | cons x s ih =>
      obtain ⟨now, h⟩ := x
      cases h with
      | frame | info | wait =>
          simp only [Script.arrival?] at ih ⊢
          rw [Script.times_cons_of_ne _ _ _ _ (by decide) (by decide)]
          exact ih
      | drop =>
          have hr := run_gone false s
          simp [Script.arrival?, run_cons, step, hr.1, hr.2, owes]
      | poll =>
          simp only [Script.arrival?, Script.times_cons_self, ne_eq, reduceCtorEq,
            not_false_eq_true, List.head?_cons]
          exact ⟨rfl, rfl⟩

/-- The notices that the history of an exchange calls for. -/
def account (request : Request) (handler : Handler) (s : Script) : List Notice :=
  match s.arrival? with
  | none => []
  | some start =>
      let view := request.viewAt start
      let reply := handler.reply request
      .called request ::
        match s.afterHead (handler.delay request) with
        | none => []
        | some _ =>
            .headReady view reply.head.status ::
              (Fate.of request handler s).notices (owedBy view reply)

/-- A run follows its history: it gives the notices that are called for and owes a line as long as
the history says so. -/
theorem run_of_waiting (request : Request) (handler : Handler) (s : Script) :
    (run false (.waiting request handler) s).2.1.owes =
        decide (Fate.of request handler s = .owed) ∧
      (run false (.waiting request handler) s).2.2 = account request handler s := by
  have hw := run_waiting s request handler
  unfold account
  cases ha : s.arrival? with
  | none =>
      simp only [ha] at hw
      cases hr : s.afterHead (handler.delay request) with
      | none => simpa [Fate.of, hr] using hw
      | some rest => simpa [ha] using Script.isSome_arrival? hr
  | some start =>
      simp only [ha] at hw
      have hh := run_handling s (request.viewAt start) (handler.reply request)
        (handler.delay request)
      rw [hw.1, hw.2]
      cases hr : s.afterHead (handler.delay request) with
      | none =>
          simp only [hr] at hh
          simpa [Fate.of, hr] using hh
      | some rest =>
          simp only [hr] at hh
          constructor
          · simp only [Fate.of, hr]
            exact hh.1
          · simp only [Fate.of, hr]
            exact congrArg (List.cons (.called request)) hh.2

end Exchange

def Effect.emission? : Effect → Option Emission
  | .emission e => some e
  | .event _ => none

namespace AccessLog

/-- What a log emits: it asks whether the line is left out, and writes one line if it is not. -/
def emission (log : AccessLog) (r : Registry) (request : RequestView) (response : ResponseView) :
    Emission where
  log := log.serial
  sink := log.sink
  request
  response
  line := if log.skips request response then none else some (r.render log.builder request response).1

theorem emit_fst (log : AccessLog) (r : Registry) (request : RequestView)
    (response : ResponseView) :
    (log.emit r request response).1 = log.emission r request response := by
  unfold emit emission
  split <;> rfl

theorem emissions_fate (log : AccessLog) (r : Registry) (o : Owed) (f : Fate) :
    (log.notifyAll r (f.notices o)).1.filterMap Effect.emission? =
      match f with
      | .due now => [log.emission r o.request (o.response.finishedAt now)]
      | _ => [] := by
  cases f with
  | due now =>
      simp [Fate.notices, notifyAll, Owed.complete, notify, emit_fst, Effect.emission?]
  | _ => simp [Fate.notices, notifyAll, notify, Effect.emission?]

end AccessLog

namespace Exchange

/-- A settled line comes after the call and the head, and a line that is still owed gives no notice
yet. -/
theorem account_eq {request : Request} {handler : Handler} {s : Script}
    (hu : Fate.of request handler s ≠ .unanswered) :
    account request handler s =
      let view : RequestView := { request with received := s.arrival? }
      .called request :: .headReady view (handler.reply request).head.status ::
        (Fate.of request handler s).notices (owedBy view (handler.reply request)) := by
  obtain ⟨start, ha⟩ := Fate.exists_arrival hu
  obtain ⟨rest, hr⟩ := Option.ne_none_iff_exists'.mp (mt Fate.of_eq_unanswered_iff.mpr hu)
  simp only [account, ha, hr, Request.viewAt]

theorem account_append {request : Request} {handler : Handler} {s : Script}
    (hu : Fate.of request handler s ≠ .unanswered) (ho : Fate.of request handler s ≠ .owed)
    (later : Script) : account request handler (s ++ later) = account request handler s := by
  obtain ⟨start, ha⟩ := Fate.exists_arrival hu
  simp only [account_eq hu, account_eq (Fate.of_append_ne_unanswered hu later),
    Fate.of_append hu ho later, Script.arrival?_append ha, ha]

/-- While a line is owed, a step gives notice of what it does to the line and of nothing else. -/
theorem notices_step_of_owed {request : Request} {handler : Handler} {s : Script}
    (ho : Fate.of request handler s = .owed) (now : Timestamp) (h : HostStep) :
    ((run false (.waiting request handler) s).2.1.step false now h).notices =
      (Fate.of request handler (s ++ [(now, h)])).notices
        (owedBy { request with received := s.arrival? } (handler.reply request)) := by
  have hu : Fate.of request handler s ≠ .unanswered := by simp [ho]
  obtain ⟨start, ha⟩ := Fate.exists_arrival hu
  have hn := (run_of_waiting request handler (s ++ [(now, h)])).2
  rw [run_append, run_cons, run_nil, List.append_nil, (run_of_waiting request handler s).2,
    account_eq hu, account_eq (Fate.of_append_ne_unanswered hu _), Script.arrival?_append ha] at hn
  simpa [ha, ho, Fate.notices] using hn

/-- The emissions of a run: one if the line is due, and none else. -/
theorem emissions_run (log : AccessLog) (r : Registry) (request : Request) (handler : Handler)
    (s : Script) :
    (log.notifyAll r (run false (.waiting request handler) s).2.2).1.filterMap Effect.emission? =
      match Fate.of request handler s with
      | .due now =>
          [log.emission r { request with received := s.arrival? }
            { head := some (handler.reply request).head, finished := some now }]
      | _ => [] := by
  rw [(run_of_waiting request handler s).2]
  by_cases hu : Fate.of request handler s = .unanswered
  · have hr := Fate.of_eq_unanswered_iff.mp hu
    cases ha : s.arrival? <;> simp [account, ha, hr, hu, AccessLog.notifyAll, AccessLog.notify]
  · have hf := log.emissions_fate r
      (owedBy { request with received := s.arrival? } (handler.reply request))
      (Fate.of request handler s)
    rw [account_eq hu]
    simpa [AccessLog.notifyAll, AccessLog.notify, Effect.emission?, List.filterMap_cons, owedBy,
      ResponseView.finishedAt] using hf

/-- The trace of an exchange whose line is written at the end. Its log emits at most one line. It
does so if the first poll of the body that settles the line does not fail, with the clock reading of
that poll, or if none has settled it and a body that never had anything to send is dropped. The line
is owed from the head to that step. After it there is neither a notice nor a line owed, and it is
that step which gives the notice. -/
theorem line_settled_once (log : AccessLog) (r : Registry) (request : Request)
    (handler : Handler) (s : Script) :
    let out := run false (.waiting request handler) s
    let fate := Fate.of request handler s
    let view : RequestView := { request with received := s.arrival? }
    let reply := handler.reply request
    (log.notifyAll r out.2.2).1.filterMap Effect.emission? =
        (match fate with
        | .due now => [log.emission r view { head := some reply.head, finished := some now }]
        | _ => []) ∧
      out.2.1.owes = decide (fate = .owed) ∧
      (fate ≠ .unanswered → fate ≠ .owed → ∀ later,
        (run false (.waiting request handler) (s ++ later)).2.2 = out.2.2 ∧
          (run false (.waiting request handler) (s ++ later)).2.1.owes = false) ∧
      (fate = .owed → ∀ now h,
        (out.2.1.step false now h).notices =
          (Fate.of request handler (s ++ [(now, h)])).notices (owedBy view reply)) := by
  intro out fate view reply
  have hrun := run_of_waiting request handler s
  refine ⟨emissions_run log r request handler s, hrun.1, ?_, ?_⟩
  · intro hu ho later
    have hlater := run_of_waiting request handler (s ++ later)
    have hf := Fate.of_append hu ho later
    constructor
    · rw [hlater.2, hrun.2]
      exact account_append hu ho later
    · rw [hlater.1, hf]
      exact decide_eq_false ho
  · intro ho now h
    exact notices_step_of_owed ho now h

end Exchange

end AccessLine
