import AccessLine.Registry.Basic

/-!
# A registry without memory

Definitions only. A template is compiled each time it is asked for, and a line builder is just the
function that writes the line.
-/
namespace AccessLine

structure PlainRegistry where
  tokens : TokenTable := ∅
  formats : Table Definition := ∅

namespace PlainRegistry

/-- The colored line with each variant read anew. -/
def devLine : LineFunction := fun tokens request response =>
  (Template.parse (Color.forStatus response.status?).template).render tokens request response

def lineOf (r : PlainRegistry) : Definition → Except FormatError LineFunction
  | .template src => (Template.compile src r.tokens).map Template.render
  | .dev => .ok devLine
  | .custom line => .ok line

def token (r : PlainRegistry) (name : String) (token : Evaluator) :
    Except FormatError PlainRegistry :=
  if name = "" then .error .missingName
  else .ok { r with tokens := r.tokens.insert name token }

def format (r : PlainRegistry) (name : String) (d : Definition) :
    Except FormatError PlainRegistry :=
  if name = "" then .error .missingName
  else .ok { r with formats := r.formats.insert name d }

/-- The function that writes the lines of a format, or of a template that is no format's name. -/
def resolve (r : PlainRegistry) (name : String) : Except FormatError LineFunction :=
  r.lineOf ((r.formats.get? name).getD (.template name))

def standard : PlainRegistry :=
  { tokens := .standard,
    formats := Registry.standardFormats.foldl (fun t e => t.insert e.1 e.2) ∅ }

end PlainRegistry

end AccessLine
