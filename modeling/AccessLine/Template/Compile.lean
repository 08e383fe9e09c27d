import AccessLine.Template.Parser
import AccessLine.Token.Standard

/-!
# Compiling and rendering templates

A template compiles if every token in it is registered at that time. Rendering looks the tokens up
again, so that later registrations take effect, and puts a dash in the place of an absent or empty
value.
-/
namespace AccessLine

inductive FormatError
  | unknownToken (token template : String)
  | missingName
deriving DecidableEq, Repr

def FormatError.message : FormatError → String
  | .unknownToken token template =>
      "unknown token \x60:" ++ token ++ "\x60 in format \x60" ++ template ++ "\x60"
  | .missingName => "token and format names must not be empty"

/-- What stands for a token without value. -/
def noValue : String := "-"

/-- The value of a token in a line. -/
def fieldText : Option String → String
  | some value => if value = "" then noValue else value
  | none => noValue

def Node.render (tokens : TokenTable) (request : RequestView) (response : ResponseView) :
    Node → String
  | .literal text => text
  | .token name arg => fieldText (tokens.eval name request response arg)

namespace Template

def render (t : Template) (tokens : TokenTable) (request : RequestView) (response : ResponseView) :
    String :=
  String.join (t.nodes.map (Node.render tokens request response))

/-- The first name that no token is registered under. -/
def firstUnknown? (t : Template) (tokens : TokenTable) : Option String :=
  t.tokenNames.find? fun name => !tokens.contains name

/-- Reads a template and checks its tokens. The error names the first unknown one and the text that
was to be compiled. -/
def compile (src : String) (tokens : TokenTable) : Except FormatError Template :=
  match (parse src).firstUnknown? tokens with
  | some name => .error (.unknownToken name src)
  | none => .ok (parse src)

theorem firstUnknown?_eq_none_iff {t : Template} {tokens : TokenTable} :
    t.firstUnknown? tokens = none ↔ ∀ name ∈ t.tokenNames, tokens.contains name = true := by
  simp [firstUnknown?]

theorem compile_eq_ok_iff {src : String} {tokens : TokenTable} {t : Template} :
    compile src tokens = .ok t ↔
      t = parse src ∧ ∀ name ∈ (parse src).tokenNames, tokens.contains name = true := by
  rw [← firstUnknown?_eq_none_iff]
  unfold compile
  split
  · rename_i name h
    simp [h]
  · rename_i h
    simp only [Except.ok.injEq, h, and_true]
    exact eq_comm

theorem compile_eq_error_iff_firstUnknown? {src : String} {tokens : TokenTable} {e : FormatError} :
    compile src tokens = .error e ↔
      ∃ name, (parse src).firstUnknown? tokens = some name ∧ e = .unknownToken name src := by
  unfold compile
  split
  · rename_i name h
    simp [h, eq_comm]
  · rename_i h
    simp [h]

end Template

end AccessLine
