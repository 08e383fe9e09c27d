import AccessLine.Line.Dev

/-!
# Line builders

What writes the lines of a log: a compiled template, the colored line with the variants it has
compiled, or any other function of the tokens and both sides of the exchange.
-/
namespace AccessLine

/-- A line written by a function of the tokens and both sides of the exchange. -/
abbrev LineFunction :=
  TokenTable → RequestView → ResponseView → String

namespace LineFunction

/-- A template whose tokens nobody checks. -/
def unchecked (src : String) : LineFunction :=
  (Template.parse src).render

def constant (line : String) : LineFunction :=
  fun _ _ _ => line

/-- The value of one token without argument, or a question mark if it has none. -/
def single (name : String) : LineFunction :=
  fun tokens request response => (tokens.eval name request response none).getD "?"

end LineFunction

inductive LineBuilder
  | compiled (t : Template)
  | dev (d : Dev)
  | custom (line : LineFunction)

namespace LineBuilder

instance : Inhabited LineBuilder := ⟨.compiled ⟨[]⟩⟩

/-- The line of one exchange, and the builder as it is afterwards. -/
def render (tokens : TokenTable) (request : RequestView) (response : ResponseView) :
    LineBuilder → String × LineBuilder
  | .compiled t => (t.render tokens request response, .compiled t)
  | .dev d =>
      let (line, d) := d.render tokens request response
      (line, .dev d)
  | .custom line => (line tokens request response, .custom line)

end LineBuilder

end AccessLine
