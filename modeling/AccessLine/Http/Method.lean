/-!
# Methods, statuses and versions

The start line of a request and of a response, as far as a log line can show it. Methods are words,
as the names of headers are.
-/
namespace AccessLine.Http

def isLetter (c : Char) : Bool :=
  ('a' ≤ c && c ≤ 'z') || ('A' ≤ c && c ≤ 'Z')

def isDecimalDigit (c : Char) : Bool :=
  '0' ≤ c && c ≤ '9'

def isAlphanumeric (c : Char) : Bool :=
  isLetter c || isDecimalDigit c

/-- The signs that a word may hold beside letters and digits. -/
def wordSigns : List Char :=
  ['!', '#', '$', '%', '&', '\x27', '*', '+', '-', '.', '^', '_', '\x60', '|', '~']

def isWordChar (c : Char) : Bool :=
  isAlphanumeric c || wordSigns.contains c

/-- A word is not empty and consists of word characters. -/
def IsWord (cs : List Char) : Prop :=
  cs ≠ [] ∧ cs.all isWordChar = true

instance (cs : List Char) : Decidable (IsWord cs) :=
  inferInstanceAs (Decidable (_ ∧ _))

/-- Letter case apart, two texts of ASCII letters are the same if this agrees on them. -/
def foldCase (cs : List Char) : List Char :=
  cs.map Char.toLower

/-- A request method. Letter case is significant. -/
structure Method where
  text : String
  isWord : IsWord text.toList
deriving DecidableEq

/-- The method that a text writes, if it is a word. -/
def Method.ofString? (text : String) : Option Method :=
  if h : IsWord text.toList then some ⟨text, h⟩ else none

def Method.get : Method := ⟨"GET", by decide⟩

def Method.head : Method := ⟨"HEAD", by decide⟩

def Method.connect : Method := ⟨"CONNECT", by decide⟩

instance : Inhabited Method := ⟨.get⟩

/-- A response status of three digits. -/
structure Status where
  code : Nat
  three_digits : 100 ≤ code ∧ code ≤ 999 := by omega
deriving DecidableEq

def Status.ofNat? (code : Nat) : Option Status :=
  if h : 100 ≤ code ∧ code ≤ 999 then some ⟨code, h⟩ else none

def Status.ok : Status := { code := 200 }

instance : Inhabited Status := ⟨.ok⟩

/-- Whether the status is of the class that precedes the final response. -/
def Status.isInformational (s : Status) : Bool :=
  s.code < 200

def Status.isSuccess (s : Status) : Bool :=
  200 ≤ s.code && s.code < 300

def Status.text (s : Status) : String :=
  String.ofList (Nat.toDigits 10 s.code)

inductive Version
  | http09
  | http10
  | http11
  | http2
  | http3
deriving DecidableEq, Repr

/-- The number of the version, major and minor. -/
def Version.number : Version → String
  | .http09 => "0.9"
  | .http10 => "1.0"
  | .http11 => "1.1"
  | .http2 => "2.0"
  | .http3 => "3.0"

def Version.text (v : Version) : String :=
  "HTTP/" ++ v.number

end AccessLine.Http
