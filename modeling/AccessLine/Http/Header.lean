import AccessLine.Http.Method
import AccessLine.Text.Utf8

/-!
# Header fields

Fields stay in the order in which they were appended, repeats included. Names are compared without
regard to letter case, so they are kept in lower case. Values are bytes: a log line shows them as
leniently read UTF-8.
-/
namespace AccessLine.Http

/-- A header name in lower case. -/
@[ext] structure HeaderName where
  text : String
  isWord : IsWord text.toList

instance : DecidableEq HeaderName := fun _ _ =>
  decidable_of_iff _ HeaderName.ext_iff.symm

/-- The longest name, counted in bytes. -/
def HeaderName.maxLength : Nat := 65535

/-- The name that a text writes in any letter case, if it is a word of at most the greatest
length. -/
def HeaderName.ofString? (text : String) : Option HeaderName :=
  let folded := String.ofList (foldCase text.toList)
  if h : IsWord folded.toList then
    if text.utf8ByteSize ≤ maxLength then some ⟨folded, h⟩ else none
  else none

/-- The name that a text writes is the text in lower case. -/
theorem HeaderName.text_of_ofString? {text : String} {n : HeaderName}
    (h : HeaderName.ofString? text = some n) : n.text = String.ofList (foldCase text.toList) := by
  simp only [ofString?] at h
  split at h
  · split at h
    · cases h
      rfl
    · cases h
  · cases h

/-- Bytes that are no text write no name. -/
def HeaderName.ofBytes? (bytes : List UInt8) : Option HeaderName :=
  (Text.Utf8.decode? bytes).bind ofString?

namespace HeaderName

def authorization : HeaderName := ⟨"authorization", by decide⟩

def referer : HeaderName := ⟨"referer", by decide⟩

def referrer : HeaderName := ⟨"referrer", by decide⟩

def userAgent : HeaderName := ⟨"user-agent", by decide⟩

end HeaderName

/-- A tab, or any byte from the space on but the delete character. -/
def isValueByte (b : UInt8) : Bool :=
  b = 0x09 || (0x20 ≤ b && b ≠ 0x7F)

structure HeaderValue where
  bytes : List UInt8
  all_valueByte : bytes.all isValueByte = true
deriving DecidableEq

def HeaderValue.ofBytes? (bytes : List UInt8) : Option HeaderValue :=
  if h : bytes.all isValueByte = true then some ⟨bytes, h⟩ else none

/-- The value as text, malformed parts replaced. -/
def HeaderValue.lossyText (v : HeaderValue) : String :=
  Text.Utf8.decodeLossy v.bytes

/-- A tab or a printable ASCII character. -/
def isPlainByte (b : UInt8) : Bool :=
  b = 0x09 || (0x20 ≤ b && b < 0x7F)

/-- The value as text if all of it is plain. -/
def HeaderValue.plainText? (v : HeaderValue) : Option String :=
  if v.bytes.all isPlainByte then
    some (String.ofList (v.bytes.map fun b => Char.ofNat b.toNat))
  else none

/-- Header fields in the order in which they were appended. -/
structure Headers where
  fields : List (HeaderName × HeaderValue) := []
deriving DecidableEq

instance : EmptyCollection Headers := ⟨⟨[]⟩⟩

instance : Inhabited Headers := ⟨∅⟩

namespace Headers

/-- The number of values, repeats counted. -/
def size (h : Headers) : Nat :=
  h.fields.length

def append (h : Headers) (name : HeaderName) (value : HeaderValue) : Headers :=
  ⟨h.fields ++ [(name, value)]⟩

def getAll (h : Headers) (name : HeaderName) : List HeaderValue :=
  (h.fields.filter (·.1 = name)).map (·.2)

def get? (h : Headers) (name : HeaderName) : Option HeaderValue :=
  (h.getAll name).head?

/-- Gives a name one value in place of all it had. -/
def set (h : Headers) (name : HeaderName) (value : HeaderValue) : Headers :=
  ⟨h.fields.filter (·.1 ≠ name) ++ [(name, value)]⟩

/-- The names in the order of their first values. -/
def names (h : Headers) : List HeaderName :=
  h.fields.foldl (fun seen f => if seen.contains f.1 then seen else seen ++ [f.1]) []

/-- The fields with all values of a name together, at the place of the first. -/
def grouped (h : Headers) : List (HeaderName × HeaderValue) :=
  h.names.flatMap fun n => (h.getAll n).map (n, ·)

/-- The values of a name as one text, joined by a comma and a space. A text that is no header name
finds nothing. -/
def joined? (h : Headers) (name : String) : Option String :=
  match HeaderName.ofString? name with
  | none => none
  | some n =>
      match h.getAll n with
      | [] => none
      | values => some (", ".intercalate (values.map HeaderValue.lossyText))

end Headers

end AccessLine.Http
