import AccessLine.Http.Method
import AccessLine.Text.Base64
import AccessLine.Text.Cut
import AccessLine.Text.Utf8

/-!
# Basic credentials

The scheme `basic` in any letter case, spaces, and the Base64 text of a user name, a colon and a
password. Spaces may stand around the whole. The two symbols of the alphabet that URLs reserve may
be written as a hyphen and an underscore. The grammar at the end says which header values hold
credentials, and whose.
-/
namespace AccessLine.Credentials

open Text Http

def isSpace (c : Char) : Bool :=
  c = ' '

def scheme : List Char :=
  ['b', 'a', 's', 'i', 'c']

/-- The symbol of the standard alphabet for one of the alphabet that is safe in URLs. -/
def standardSymbol (c : Char) : Char :=
  if c = '-' then '+' else if c = '_' then '/' else c

/-- The user name and the password that a Base64 text holds. -/
def pair? (cs : List Char) : Option (List Char × List Char) :=
  (Base64.decode? (cs.map standardSymbol)).bind fun bytes =>
    (Utf8.decode? bytes).bind fun text => cutFirst? ':' text.toList

/-- The user name in a header value. -/
def user? (header : String) : Option String :=
  match cutFirst? ' ' (strip isSpace header.toList) with
  | none => none
  | some (name, rest) =>
      if foldCase name = scheme then
        (pair? (rest.dropWhile isSpace)).map fun p => String.ofList p.1
      else none

def spaces (n : Nat) : List Char :=
  List.replicate n ' '

/-- The header value writes the credentials of the user with the password. -/
inductive Writes : List Char → String → String → Prop
  | intro {before gap after : Nat} {name token : List Char} {user password : String}
      (basic : foldCase name = scheme) (apart : 0 < gap) (noColon : ':' ∉ user.toList)
      (written : Base64.Writes (token.map standardSymbol)
        (Utf8.encode (user ++ ":" ++ password))) :
      Writes (spaces before ++ name ++ spaces gap ++ token ++ spaces after) user password

/-- The header value holds the credentials of the user. -/
def Names (value : List Char) (user : String) : Prop :=
  ∃ password, Writes value user password

end AccessLine.Credentials
