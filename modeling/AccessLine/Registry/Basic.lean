import AccessLine.Event
import AccessLine.Line.Builder
import AccessLine.Token.Standard

/-!
# The registry

Tokens and formats by name. A format that is defined by a template is compiled when it is first
asked for, and the compiled line builder takes the template's place. Every line builder that was
ever made is kept; its place among them is its identity.
-/
namespace AccessLine

/-- The identity of a line builder: its place among all that were made. -/
abbrev BuilderId := Nat

/-- What a format can be defined by. -/
inductive Definition
  | template (src : String)
  | dev
  | custom (line : LineFunction)

/-- What is kept under a format's name. -/
inductive Format
  | template (src : String)
  | builder (id : BuilderId)
deriving DecidableEq, Repr

structure Registry where
  tokens : TokenTable := ∅
  formats : Table Format := ∅
  builders : List LineBuilder := []

/-- What an operation on a registry gives back: its answer, the registry afterwards and the events
it reports. -/
structure Registered (α : Type) where
  value : α
  registry : Registry
  events : List Event := []

namespace Registry

/-- Makes a line builder. -/
def make (r : Registry) (b : LineBuilder) : BuilderId × Registry :=
  (r.builders.length, { r with builders := r.builders ++ [b] })

/-- Puts a format under a name. A ready-made line builder is made here. -/
def place (r : Registry) (name : String) (d : Definition) : Registry :=
  match d with
  | .template src => { r with formats := r.formats.insert name (.template src) }
  | .dev =>
      let (id, r) := r.make (.dev {})
      { r with formats := r.formats.insert name (.builder id) }
  | .custom line =>
      let (id, r) := r.make (.custom line)
      { r with formats := r.formats.insert name (.builder id) }

/-- Registers a token in place of any other of the same name. -/
def token (r : Registry) (name : String) (token : Evaluator) :
    Except FormatError (Registered Unit) :=
  if name = "" then .error .missingName
  else
    .ok { value := (), registry := { r with tokens := r.tokens.insert name token },
          events := [.tokenRegistered name] }

/-- Defines a format in place of any other of the same name. -/
def format (r : Registry) (name : String) (d : Definition) :
    Except FormatError (Registered Unit) :=
  if name = "" then .error .missingName
  else .ok { value := (), registry := r.place name d, events := [.formatDefined name] }

/-- The line builder of a format. What is no format's name is compiled as a template, each time
anew. -/
def resolve (r : Registry) (name : String) : Except FormatError (Registered BuilderId) :=
  match r.formats.get? name with
  | some (.builder id) => .ok { value := id, registry := r }
  | some (.template src) =>
      (Template.compile src r.tokens).map fun t =>
        let (id, r) := r.make (.compiled t)
        { value := id, registry := { r with formats := r.formats.insert name (.builder id) },
          events := [.formatCompiled name] }
  | none =>
      (Template.compile name r.tokens).map fun t =>
        let (id, r) := r.make (.compiled t)
        { value := id, registry := r }

/-- The line of one exchange from a line builder that was made here, with the tokens as they are
now. -/
def render (r : Registry) (id : BuilderId) (request : RequestView) (response : ResponseView) :
    String × Registry :=
  match r.builders[id]? with
  | some b =>
      let (line, b) := b.render r.tokens request response
      (line, { r with builders := r.builders.set id b })
  | none => ("", r)

def hasFormat (r : Registry) (name : String) : Bool :=
  r.formats.contains name

def hasToken (r : Registry) (name : String) : Bool :=
  r.tokens.contains name

/-! ### The standard formats -/

/-- The remote side, the user, the request line, the status and the length of the response. -/
def commonTemplate : String :=
  ":remote-addr - :remote-user \":method :url HTTP/:http-version\" :status :res[content-length]"

/-- The common line, with the referring page and the client's name for itself. -/
def combinedTemplate : String :=
  commonTemplate ++ " \":referrer\" \":user-agent\""

def shortTemplate : String :=
  ":remote-addr :remote-user :method :url HTTP/:http-version :status :res[content-length]" ++
    " - :response-time ms"

def tinyTemplate : String :=
  ":method :url :status :res[content-length] - :response-time ms"

/-- The format of a log that asks for none. -/
def defaultFormat : String := "common"

def standardFormats : List (String × Definition) :=
  [("combined", .template combinedTemplate), ("common", .template commonTemplate),
   ("short", .template shortTemplate), ("tiny", .template tinyTemplate), ("dev", .dev)]

/-- The registry with the standard tokens and formats. -/
def standard : Registry :=
  standardFormats.foldl (fun r e => r.place e.1 e.2) { tokens := .standard }

end Registry

end AccessLine
