/-!
# Templates

A template is literal text with tokens in it. A token is written as a colon and a name of at least
two name characters; an argument in brackets can follow.

The canonical lists of nodes are those that reading a text can give. Their printed text shows where
each node ends: no token starts inside a literal, and what follows a token without argument would
not lengthen it.
-/
namespace AccessLine

/-- The characters of a token's name. All are ASCII. -/
def isNameChar (c : Char) : Bool :=
  ('a' ≤ c && c ≤ 'z') || ('A' ≤ c && c ≤ 'Z') || ('0' ≤ c && c ≤ '9') || c = '_' || c = '-'

inductive Node
  | literal (text : String)
  | token (name : String) (arg : Option String)
deriving DecidableEq, Repr

def Node.text : Node → String
  | .literal text => text
  | .token name none => ":" ++ name
  | .token name (some arg) => ":" ++ name ++ "[" ++ arg ++ "]"

def Node.tokenName? : Node → Option String
  | .literal _ => none
  | .token name _ => some name

structure Template where
  nodes : List Node
deriving DecidableEq, Repr

namespace Template

def unparse (nodes : List Node) : String :=
  String.join (nodes.map Node.text)

/-- The names of the tokens in order, repeats included. -/
def tokenNames (t : Template) : List String :=
  t.nodes.filterMap Node.tokenName?

/-- A text that starts with a colon and a name. -/
def StartsToken : List Char → Prop
  | c :: cs => c = ':' ∧ 2 ≤ (cs.takeWhile isNameChar).length
  | [] => False

instance (cs : List Char) : Decidable (StartsToken cs) :=
  match cs with
  | [] => inferInstanceAs (Decidable False)
  | _ :: _ => inferInstanceAs (Decidable (_ ∧ _))

/-- A literal is not empty, and no token starts anywhere in it. -/
def IsLiteral (text : String) : Prop :=
  text ≠ "" ∧ ∀ cs, cs <:+ text.toList → ¬StartsToken cs

/-- A name has at least two characters, and all are name characters. -/
def IsName (name : String) : Prop :=
  2 ≤ name.toList.length ∧ name.toList.all isNameChar = true

/-- An argument is not empty and holds no closing bracket. -/
def IsArgument (arg : String) : Prop :=
  arg ≠ "" ∧ ']' ∉ arg.toList

/-- A text that would lengthen a token in front of it: it starts with a name character, or with an
argument in brackets. -/
def Lengthens (text : String) : Prop :=
  (∃ c cs, text.toList = c :: cs ∧ isNameChar c = true) ∨
    ∃ arg rest, IsArgument arg ∧ text = "[" ++ arg ++ "]" ++ rest

/-- What a single node has to satisfy. -/
def IsNode : Node → Prop
  | .literal text => IsLiteral text
  | .token name none => IsName name
  | .token name (some arg) => IsName name ∧ IsArgument arg

/-- Whether a node may stand in front of others. -/
def MayPrecede : Node → List Node → Prop
  | .literal _, .literal _ :: _ => False
  | .token _ none, rest => ¬Lengthens (unparse rest)
  | _, _ => True

/-- A list of nodes that is the reading of its printed text. -/
inductive Canonical : List Node → Prop
  | nil : Canonical []
  | cons {n : Node} {rest : List Node} (node : IsNode n) (next : MayPrecede n rest)
      (tail : Canonical rest) : Canonical (n :: rest)

end Template

end AccessLine
