import AccessLine.Exchange.Handler

/-!
# Bodies that owe a line

The line of an exchange is due when the last part of its response body has been handed over. Until
then the body owes the line. It is written when the body ends, and not at all when the body fails.
A body that is dropped before has been cut short, unless nothing was to be sent after the head in
the first place.
-/
namespace AccessLine

open Http

/-- What an exchange does beside answering: it calls the handler, or it has its line written or
given up. -/
inductive Notice
  | called (request : Request)
  | headReady (request : RequestView) (status : Status)
  | emission (request : RequestView) (response : ResponseView)
  | bodyFailed (request : RequestView)
  | droppedEarly (request : RequestView)
deriving DecidableEq

/-- A line that is still to be written. -/
structure Owed where
  request : RequestView
  response : ResponseView
  /-- Nothing is sent after the head. -/
  bodyless : Bool
deriving DecidableEq

/-- The exchange is over: the line is due. -/
def Owed.complete (o : Owed) (now : Timestamp) : Notice :=
  .emission o.request (o.response.finishedAt now)

/-- Whether a response may have a body. -/
def carriesBody (method : Method) (status : Status) : Bool :=
  method ≠ .head && !(status.isInformational || status.code = 204 || status.code = 304)

/-- A body under way, with the line it owes. -/
structure LoggedBody where
  inner : Body
  past : BodyPast := []
  owed : Option Owed := none

namespace LoggedBody

/-- Wraps the body of a reply so that it owes a line. -/
def owing (request : RequestView) (reply : Reply) : LoggedBody where
  inner := reply.body
  owed := some
    { request
      response := { head := some reply.head }
      bodyless := reply.body.atEnd [] || !carriesBody request.method reply.head.status }

def passing (reply : Reply) : LoggedBody where
  inner := reply.body

def isPending (b : LoggedBody) : Bool :=
  b.owed.isSome

def atEnd (b : LoggedBody) : Bool :=
  b.inner.atEnd b.past

def sizeHint (b : LoggedBody) : SizeHint :=
  b.inner.sizeHint b.past

def next (b : LoggedBody) : BodyAnswer :=
  b.inner.answer b.past

/-- Whether the next poll settles the line: the body ends or fails, or hands over a part and is at
its end then. -/
def settlesNext (b : LoggedBody) : Bool :=
  match b.next with
  | .pending => false
  | .data _ | .trailers _ => b.inner.atEnd (.polled :: b.past)
  | .failed _ | .ended => true

/-- What settling a line by a poll with this answer does. -/
def settle (now : Timestamp) (o : Owed) : BodyAnswer → Notice
  | .failed _ => .bodyFailed o.request
  | _ => o.complete now

/-- One poll. The line is settled at most once. -/
def poll (b : LoggedBody) (now : Timestamp) : BodyAnswer × LoggedBody × List Notice :=
  if b.settlesNext then
    (b.next, { b with past := .polled :: b.past, owed := none },
      b.owed.toList.map fun o => settle now o b.next)
  else (b.next, { b with past := .polled :: b.past }, [])

section Poll
variable (b : LoggedBody) (now : Timestamp)

@[simp] theorem answer_poll : (b.poll now).1 = b.next := by
  unfold poll
  split <;> rfl

@[simp] theorem inner_poll : (b.poll now).2.1.inner = b.inner := by
  unfold poll
  split <;> rfl

@[simp] theorem past_poll : (b.poll now).2.1.past = .polled :: b.past := by
  unfold poll
  split <;> rfl

/-- A line is owed until a poll settles it. -/
theorem isPending_poll : (b.poll now).2.1.isPending = (b.isPending && !b.settlesNext) := by
  unfold poll
  split
  · rename_i h
    simp [isPending, h]
  · rename_i h
    simp [isPending, h]

end Poll

/-- The source of the body works on, and nobody asks. -/
def feed (b : LoggedBody) : LoggedBody :=
  { b with past := .fed :: b.past }

def drop (b : LoggedBody) (now : Timestamp) : List Notice :=
  b.owed.toList.map fun o => if o.bodyless then o.complete now else .droppedEarly o.request

end LoggedBody

end AccessLine
