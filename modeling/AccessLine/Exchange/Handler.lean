import AccessLine.Exchange.View

/-!
# Handlers and bodies

The application's side of an exchange: it takes a request and, after some polls that leave it
pending, answers with a reply.

The body of a reply is polled for its parts one after another. At any time it also says whether it
is at its end and how much it expects to hold. Its source works on while nobody polls, so these
answers can change between two polls. A body is given by what it answers after all that has happened
to it, and nothing is assumed about how its answers fit together.
-/
namespace AccessLine

open Http

inductive BodyAnswer
  | pending
  | data (bytes : List UInt8)
  | trailers (fields : Headers)
  | failed (cause : String)
  | ended
deriving DecidableEq

/-- Whether the answer hands over a part of the body. -/
def BodyAnswer.isFrame : BodyAnswer → Bool
  | .data _ | .trailers _ => true
  | _ => false

/-- The least number of bytes to come, and the greatest if it is known. -/
structure SizeHint where
  lower : Nat := 0
  upper : Option Nat := none
deriving DecidableEq, Repr

/-- What brings a body on: a poll, or its source without one. -/
inductive BodyMove
  | polled
  | fed
deriving DecidableEq, Repr

/-- What has happened to a body, the latest first. -/
abbrev BodyPast :=
  List BodyMove

/-- A body, by what it answers after each past. -/
structure Body where
  answer : BodyPast → BodyAnswer
  atEnd : BodyPast → Bool
  sizeHint : BodyPast → SizeHint

/-- How a scripted body says whether it is at its end: when its answers are used up, never or
always. -/
inductive EndReport
  | exact
  | never
  | always
deriving DecidableEq, Repr

/-- A body that gives the listed answers and has ended after them. Only polls bring it on. -/
def Body.scripted (answers : List BodyAnswer) (report : EndReport) (hint : SizeHint) : Body where
  answer past := answers[past.count .polled]?.getD .ended
  atEnd past :=
    match report with
    | .exact => answers.length ≤ past.count .polled
    | .never => false
    | .always => true
  sizeHint _ := hint

structure Reply where
  head : ResponseHead
  body : Body

structure Handler where
  /-- The number of polls that leave it pending. -/
  delay : Request → Nat
  reply : Request → Reply

/-- The header in which a reporting handler repeats what it was asked for. -/
def seenHeader : HeaderName := ⟨"x-seen", by decide⟩

def Request.line (r : Request) : String :=
  r.method.text ++ " " ++ r.uri.text

/-- A handler with one reply for all requests, which also says which request it was given. -/
def Handler.reporting (delay : Nat) (reply : Reply) : Handler where
  delay _ := delay
  reply request :=
    match HeaderValue.ofBytes? (Text.Utf8.encode request.line) with
    | some value =>
        let headers := reply.head.headers.set seenHeader value
        { reply with head := { reply.head with headers } }
    | none => reply

end AccessLine
