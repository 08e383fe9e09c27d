import AccessLine.Exchange.Bare
import AccessLine.Proofs.Exchange.History

/-!
# Exchanges without their log

Forgetting the log turns every exchange into one that its host drives directly. Each step and so
each run commutes with this, in both modes and for every body: the log changes no answer, and the
handler is called with the same request and stands where it would stand by itself.
-/
namespace AccessLine

open Http

/-- The request that the handler is called with, if it is. -/
def Notice.called? : Notice → Option Request
  | .called request => some request
  | _ => none

namespace LoggedBody

theorem poll_calls (b : LoggedBody) (now : Timestamp) :
    (b.poll now).2.2.filterMap Notice.called? = [] := by
  unfold poll
  split
  · cases b.owed with
    | none => rfl
    | some o => cases b.next <;> rfl
  · rfl

theorem drop_calls (b : LoggedBody) (now : Timestamp) :
    (b.drop now).filterMap Notice.called? = [] := by
  unfold drop
  cases b.owed with
  | none => rfl
  | some o => cases hb : o.bodyless <;> simp [hb, Owed.complete, Notice.called?]

end LoggedBody

namespace Exchange

/-- The exchange as it is without its log. -/
def bare : Exchange → BareExchange
  | .waiting request handler => .waiting request handler
  | .handling _ reply delay => .handling reply delay
  | .answered b => .answered b.inner b.past
  | .gone => .gone

theorem handle_bare (immediate : Bool) (request : RequestView) (reply : Reply) (delay : Nat) :
    (handle immediate request reply delay).answer = (BareExchange.handle reply delay).1 ∧
      (handle immediate request reply delay).exchange.bare = (BareExchange.handle reply delay).2 ∧
      (handle immediate request reply delay).notices.filterMap Notice.called? = [] := by
  cases delay with
  | succ delay => exact ⟨rfl, rfl, rfl⟩
  | zero => cases immediate <;> exact ⟨rfl, rfl, rfl⟩

theorem arrival_calls (immediate : Bool) (request : Request) (now : Timestamp) :
    (arrival immediate request now).filterMap Notice.called? = [request] := by
  cases immediate <;> rfl

theorem step_bare (immediate : Bool) (now : Timestamp) (e : Exchange) (h : HostStep) :
    (e.step immediate now h).answer = (e.bare.step h).1 ∧
      (e.step immediate now h).exchange.bare = (e.bare.step h).2.1 ∧
      (e.step immediate now h).notices.filterMap Notice.called? = (e.bare.step h).2.2.toList := by
  cases e with
  | waiting request handler =>
      cases h with
      | poll =>
          obtain ⟨ha, he, hc⟩ := handle_bare immediate (request.viewAt now) (handler.reply request)
            (handler.delay request)
          refine ⟨ha, he, ?_⟩
          simp only [step, List.filterMap_append, arrival_calls, hc, List.append_nil]
          rfl
      | frame | info | wait | drop => exact ⟨rfl, rfl, rfl⟩
  | handling request reply delay =>
      cases h with
      | poll => exact handle_bare immediate request reply delay
      | frame | info | wait | drop => exact ⟨rfl, rfl, rfl⟩
  | answered b =>
      cases h with
      | poll | info | wait => exact ⟨rfl, rfl, rfl⟩
      | frame =>
          refine ⟨?_, ?_, b.poll_calls now⟩
          · simp only [step, LoggedBody.answer_poll]
            rfl
          · simp only [step, bare, LoggedBody.inner_poll, LoggedBody.past_poll]
            rfl
      | drop => exact ⟨rfl, rfl, b.drop_calls now⟩
  | gone => cases h <;> exact ⟨rfl, rfl, rfl⟩

/-- A host cannot tell whether there is a log. -/
theorem run_bare (immediate : Bool) (e : Exchange) (s : Script) :
    (run immediate e s).1 = (e.bare.run (s.map (·.2))).1 ∧
      (run immediate e s).2.1.bare = (e.bare.run (s.map (·.2))).2.1 ∧
      (run immediate e s).2.2.filterMap Notice.called? = (e.bare.run (s.map (·.2))).2.2 := by
  induction s generalizing e with
  | nil => exact ⟨rfl, rfl, rfl⟩
  | cons x s ih =>
      obtain ⟨now, h⟩ := x
      obtain ⟨ha, he, hc⟩ := step_bare immediate now e h
      obtain ⟨iha, ihe, ihc⟩ := ih (e.step immediate now h).exchange
      rw [he] at iha ihe ihc
      refine ⟨?_, ihe, ?_⟩
      · simp only [run, ha, iha]
        rfl
      · simp only [run, List.filterMap_append, hc, ihc]
        rfl

end Exchange

namespace BareExchange

theorem run_gone_ne_handling (s : List HostStep) (reply : Reply) (left : Nat) :
    (run .gone s).2.1 ≠ .handling reply left := by
  induction s with
  | nil => simp [run]
  | cons h s ih => cases h <;> exact ih

theorem run_answered_ne_handling (s : List HostStep) (b : Body) (past : BodyPast) (reply : Reply)
    (left : Nat) : (run (.answered b past) s).2.1 ≠ .handling reply left := by
  induction s generalizing past with
  | nil => simp [run]
  | cons h s ih =>
      cases h with
      | poll | info => exact ih past
      | frame => exact ih (.polled :: past)
      | wait => exact ih (.fed :: past)
      | drop => exact run_gone_ne_handling s reply left

theorem calls_run_gone (s : List HostStep) : (run .gone s).2.2 = [] := by
  induction s with
  | nil => rfl
  | cons h s ih => cases h <;> exact ih

theorem calls_run_answered (s : List HostStep) (b : Body) (past : BodyPast) :
    (run (.answered b past) s).2.2 = [] := by
  induction s generalizing past with
  | nil => rfl
  | cons h s ih =>
      cases h with
      | poll | info => exact ih past
      | frame => exact ih (.polled :: past)
      | wait => exact ih (.fed :: past)
      | drop => exact calls_run_gone s

/-- A handler at work is polled once for each poll of the host. -/
theorem left_add_polls_of_handling {s : List HostStep} {reply reply' : Reply} {delay left : Nat}
    (h : (run (.handling reply delay) s).2.1 = .handling reply' left) :
    left + s.count .poll = delay := by
  induction s generalizing delay with
  | nil =>
      obtain ⟨-, rfl⟩ : reply = reply' ∧ delay = left := by simpa [run] using h
      simp
  | cons x s ih =>
      cases x with
      | frame | info | wait => simpa using ih h
      | drop => exact (run_gone_ne_handling s _ _ h).elim
      | poll =>
          cases delay with
          | zero => exact (run_answered_ne_handling s _ _ _ _ h).elim
          | succ delay =>
              have hs : (run (.handling reply delay) s).2.1 = .handling reply' left := h
              have hd := ih hs
              simp only [List.count_cons_self]
              omega

theorem left_add_polls {s : List HostStep} {request : Request} {handler : Handler} {reply : Reply}
    {left : Nat} (h : (run (.waiting request handler) s).2.1 = .handling reply left) :
    left + s.count .poll = handler.delay request := by
  induction s with
  | nil => simp [run] at h
  | cons x s ih =>
      cases x with
      | frame | info | wait => simpa using ih h
      | drop => exact (run_gone_ne_handling s _ _ h).elim
      | poll =>
          have hh : (run (.handling (handler.reply request) (handler.delay request))
              (.poll :: s)).2.1 = .handling reply left := h
          exact left_add_polls_of_handling hh

theorem calls_run_handling (s : List HostStep) (reply : Reply) (delay : Nat) :
    (run (.handling reply delay) s).2.2 = [] := by
  induction s generalizing delay with
  | nil => rfl
  | cons h s ih =>
      cases h with
      | frame | info | wait => exact ih delay
      | drop => exact calls_run_gone s
      | poll =>
          cases delay with
          | zero => exact calls_run_answered s reply.body []
          | succ delay => exact ih delay

/-- The handler is called at most once, and with the request as it came. -/
theorem calls_run_waiting (s : List HostStep) (request : Request) (handler : Handler) :
    (run (.waiting request handler) s).2.2 = [] ∨
      (run (.waiting request handler) s).2.2 = [request] := by
  induction s with
  | nil => exact .inl rfl
  | cons h s ih =>
      cases h with
      | frame | info | wait => exact ih
      | drop => exact .inl (calls_run_gone s)
      | poll =>
          right
          have hs := calls_run_handling (.poll :: s) (handler.reply request) (handler.delay request)
          exact congrArg (List.cons request) hs

end BareExchange

end AccessLine
