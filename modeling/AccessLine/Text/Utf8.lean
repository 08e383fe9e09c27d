/-!
# Reading bytes as UTF-8

A byte string is cut into well-formed characters and malformed parts. A malformed part is as long as
it can be: it ends before the first byte that could not continue any character. Strict reading
accepts a byte string without malformed parts, lenient reading puts U+FFFD in the place of each.
-/
namespace AccessLine.Text.Utf8

/-- A character of which some bytes are still to come. Only the next byte can have bounds narrower
than `0x80` to `0xBF`. -/
structure Partial where
  bits : Nat
  missing : Nat
  low : Nat := 0x80
  high : Nat := 0xBF
deriving Repr, DecidableEq

/-- What a byte can be at the start of a character. -/
inductive Lead
  | whole (c : Char)
  | opens (p : Partial)
  | malformed
deriving Repr, DecidableEq

/-- The narrowed bounds keep out overlong forms, surrogates and numbers above U+10FFFF. -/
def lead (b : UInt8) : Lead :=
  let n := b.toNat
  if n < 0x80 then .whole (Char.ofNat n)
  else if n < 0xC2 then .malformed
  else if n < 0xE0 then .opens { bits := n - 0xC0, missing := 1 }
  else if n = 0xE0 then .opens { bits := 0, missing := 2, low := 0xA0 }
  else if n = 0xED then .opens { bits := 0xD, missing := 2, high := 0x9F }
  else if n < 0xF0 then .opens { bits := n - 0xE0, missing := 2 }
  else if n = 0xF0 then .opens { bits := 0, missing := 3, low := 0x90 }
  else if n < 0xF4 then .opens { bits := n - 0xF0, missing := 3 }
  else if n = 0xF4 then .opens { bits := 4, missing := 3, high := 0x8F }
  else .malformed

def Partial.accepts (p : Partial) (b : UInt8) : Bool :=
  p.low ≤ b.toNat && b.toNat ≤ p.high

/-- The bits of the character once `b` has been taken in. -/
def Partial.extend (p : Partial) (b : UInt8) : Nat :=
  p.bits * 64 + (b.toNat - 0x80)

/-- The characters of a byte string in order, with `none` for each malformed part. The first
argument is the character that earlier bytes have opened. -/
def units : Option Partial → List UInt8 → List (Option Char)
  | none, [] => []
  | some _, [] => [none]
  | none, b :: bs =>
      match lead b with
      | .whole c => some c :: units none bs
      | .opens p => units (some p) bs
      | .malformed => none :: units none bs
  | some p, b :: bs =>
      if p.accepts b then
        match p.missing with
        | 0 | 1 => some (Char.ofNat (p.extend b)) :: units none bs
        | m + 1 => units (some { bits := p.extend b, missing := m }) bs
      else
        match lead b with
        | .whole c => none :: some c :: units none bs
        | .opens q => none :: units (some q) bs
        | .malformed => none :: none :: units none bs

/-- Strict reading: the text, unless some part is malformed. -/
def decode? (bytes : List UInt8) : Option String :=
  ((units none bytes).mapM id).map String.ofList

/-- Lenient reading: each malformed part becomes one U+FFFD. -/
def decodeLossy (bytes : List UInt8) : String :=
  String.ofList ((units none bytes).map (·.getD '\uFFFD'))

def encode (text : String) : List UInt8 :=
  text.toList.flatMap String.utf8EncodeChar

end AccessLine.Text.Utf8
