import AccessLine.Exchange.Logged

/-!
# Exchanges

A host drives an exchange: it polls for the head of the response, then polls the body part by part,
and drops either when it is done with it. While it waits the source of the body can work on. Beside
the answers to the host the exchange gives notices of what happens to its line.

In immediate mode the line is written when the request arrives, and the body owes nothing.
-/
namespace AccessLine

open Http

/-- What a host can do with an exchange. -/
inductive HostStep
  | poll
  | frame
  | info
  | wait
  | drop
deriving DecidableEq, Repr

inductive HostAnswer
  | pending
  | head (status : Status) (headers : Headers)
  | body (answer : BodyAnswer)
  | info (atEnd : Bool) (hint : SizeHint)
  | dropped
  | misplaced
deriving DecidableEq

/-- Whether a response is sent with a body. Nothing follows the head of an answer to `HEAD`, of a
successful answer to `CONNECT`, and of responses with an informational status, 204 or 304: a host
drops their bodies unpolled. -/
def sendsBody (method : Method) (status : Status) : Bool :=
  !(method = .head || (method = .connect && status.isSuccess) || status.isInformational ||
    status.code = 204 || status.code = 304)

/-- An exchange: not polled yet, with the handler at work, with its body under way, or gone. -/
inductive Exchange
  | waiting (request : Request) (handler : Handler)
  | handling (request : RequestView) (reply : Reply) (delay : Nat)
  | answered (body : LoggedBody)
  | gone

namespace Exchange

structure Outcome where
  answer : HostAnswer
  exchange : Exchange
  notices : List Notice := []

/-- The handler has been polled with so many pending polls left. -/
def handle (immediate : Bool) (request : RequestView) (reply : Reply) : Nat → Outcome
  | delay + 1 => { answer := .pending, exchange := .handling request reply delay }
  | 0 =>
      let answer := HostAnswer.head reply.head.status reply.head.headers
      if immediate then { answer, exchange := .answered (.passing reply) }
      else
        { answer, exchange := .answered (.owing request reply),
          notices := [.headReady request reply.head.status] }

/-- The notices of the first poll, in order. The handler is called only then. -/
def arrival (immediate : Bool) (request : Request) (now : Timestamp) : List Notice :=
  if immediate then [.emission (request.viewAt now) .pending, .called request]
  else [.called request]

/-- One step of the host. `now` is what the clock shows during it. A step that does not fit the
state of the exchange changes nothing. -/
def step (immediate : Bool) (now : Timestamp) : Exchange → HostStep → Outcome
  | .waiting request handler, .poll =>
      let o := handle immediate (request.viewAt now) (handler.reply request) (handler.delay request)
      { o with notices := arrival immediate request now ++ o.notices }
  | .handling request reply delay, .poll => handle immediate request reply delay
  | .answered b, .frame =>
      let (answer, b, notices) := b.poll now
      { answer := .body answer, exchange := .answered b, notices }
  | .answered b, .info =>
      { answer := .info b.atEnd b.sizeHint, exchange := .answered b }
  | .answered b, .wait => { answer := .pending, exchange := .answered b.feed }
  | .answered b, .drop => { answer := .dropped, exchange := .gone, notices := b.drop now }
  | .waiting _ _, .drop | .handling _ _ _, .drop => { answer := .dropped, exchange := .gone }
  | e, _ => { answer := .misplaced, exchange := e }

def owes : Exchange → Bool
  | .answered b => b.isPending
  | _ => false

end Exchange

/-- Several steps of a host, each with the clock reading it takes place at. -/
def Exchange.run (immediate : Bool) (e : Exchange) :
    List (Timestamp × HostStep) → List HostAnswer × Exchange × List Notice
  | [] => ([], e, [])
  | (now, s) :: rest =>
      let o := e.step immediate now s
      let (answers, e, notices) := Exchange.run immediate o.exchange rest
      (o.answer :: answers, e, o.notices ++ notices)

namespace Exchange

variable (immediate : Bool)

@[simp] theorem run_nil (e : Exchange) : run immediate e [] = ([], e, []) := rfl

theorem run_cons (e : Exchange) (now : Timestamp) (h : HostStep) (s : List (Timestamp × HostStep)) :
    run immediate e ((now, h) :: s) =
      ((e.step immediate now h).answer ::
          (run immediate (e.step immediate now h).exchange s).1,
        (run immediate (e.step immediate now h).exchange s).2.1,
        (e.step immediate now h).notices ++
          (run immediate (e.step immediate now h).exchange s).2.2) := rfl

theorem run_append (e : Exchange) (s t : List (Timestamp × HostStep)) :
    run immediate e (s ++ t) =
      ((run immediate e s).1 ++ (run immediate (run immediate e s).2.1 t).1,
        (run immediate (run immediate e s).2.1 t).2.1,
        (run immediate e s).2.2 ++ (run immediate (run immediate e s).2.1 t).2.2) := by
  induction s generalizing e with
  | nil => simp
  | cons x s ih =>
      obtain ⟨now, h⟩ := x
      simp only [List.cons_append, run_cons, ih, List.append_assoc]

theorem run_gone (s : List (Timestamp × HostStep)) :
    (run immediate .gone s).2.1 = .gone ∧ (run immediate .gone s).2.2 = [] := by
  induction s with
  | nil => exact ⟨rfl, rfl⟩
  | cons x s ih =>
      obtain ⟨now, h⟩ := x
      cases h <;> exact ih

end Exchange

end AccessLine
