import AccessLine.Token.Standard

/-!
# Tokens to register

Evaluators for tokens of a host's own.
-/
namespace AccessLine.Evaluator

def constant (text : String) : Evaluator := fun _ _ _ =>
  some text

def absent : Evaluator := fun _ _ _ =>
  none

def argument : Evaluator := fun _ _ arg =>
  arg

/-- The path of the request as its host passed it on. -/
def path : Evaluator := fun request _ _ =>
  some request.uri.path

/-- The value that a query gives a key. Parts without an equals sign are skipped, and the first part
with the key counts. -/
def queryValue? (query key : String) : Option String :=
  ((Text.parts '&' query.toList).filterMap (Text.cutFirst? '=')).findSome? fun p =>
    if p.1 = key.toList then some (String.ofList p.2) else none

/-- The value that the query of the request gives the argument. -/
def queryParameter : Evaluator := fun request _ arg =>
  arg.bind fun key => request.uri.query?.bind fun query => queryValue? query key

/-- Which of the two times are known, in their order: `r` for the arrival of the request and `f` for
the end of the response. -/
def timing : Evaluator := fun request response _ =>
  some (match request.received, response.finished with
    | none, none => "--"
    | some _, none => "r-"
    | none, some _ => "-f"
    | some received, some finished => if received ≤ finished then "rf" else "fr")

end AccessLine.Evaluator
