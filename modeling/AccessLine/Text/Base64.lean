/-!
# Base64

The standard alphabet, in groups of four symbols for three bytes. A reader takes the padding of the
last group in full, in part or not at all, and ignores the bits of its last symbol that no byte
needs. The writer pads in full and leaves those bits zero.

The grammar at the end is by bits. Each symbol stands for six. The bits of all symbols in a row are
cut into bytes, and what is left, less than a byte, has no meaning. A text is well formed if its
last group holds at least one byte and its padding stays within that group.
-/
namespace AccessLine.Text.Base64

/-- The number that a symbol stands for. -/
def sextet? (c : Char) : Option Nat :=
  if 'A' ≤ c ∧ c ≤ 'Z' then some (c.toNat - 'A'.toNat)
  else if 'a' ≤ c ∧ c ≤ 'z' then some (c.toNat - 'a'.toNat + 26)
  else if '0' ≤ c ∧ c ≤ '9' then some (c.toNat - '0'.toNat + 52)
  else if c = '+' then some 62
  else if c = '/' then some 63
  else none

/-- The symbol of a number below 64. -/
def symbol (n : Nat) : Char :=
  if n < 26 then Char.ofNat ('A'.toNat + n)
  else if n < 52 then Char.ofNat ('a'.toNat + (n - 26))
  else if n < 62 then Char.ofNat ('0'.toNat + (n - 52))
  else if n = 62 then '+'
  else '/'

def firstByte (a b : Nat) : UInt8 := UInt8.ofNat (a * 4 + b / 16)

def secondByte (b c : Nat) : UInt8 := UInt8.ofNat (b % 16 * 16 + c / 4)

def thirdByte (c d : Nat) : UInt8 := UInt8.ofNat (c % 4 * 64 + d)

/-- The bytes that the numbers stand for when `padding` signs follow them. One number alone holds
less than a byte, and padding may not go past the end of its group. -/
def join? (padding : Nat) : List Nat → Option (List UInt8)
  | [] => if padding = 0 then some [] else none
  | [_] => none
  | [a, b] => if padding ≤ 2 then some [firstByte a b] else none
  | [a, b, c] => if padding ≤ 1 then some [firstByte a b, secondByte b c] else none
  | a :: b :: c :: d :: rest =>
      (join? padding rest).map fun bytes =>
        firstByte a b :: secondByte b c :: thirdByte c d :: bytes

/-- Symbols followed by padding signs, and nothing else. -/
def decode? (cs : List Char) : Option (List UInt8) :=
  let padding := cs.dropWhile (· != '=')
  if padding.all (· == '=') then
    ((cs.takeWhile (· != '=')).mapM sextet?).bind (join? padding.length)
  else none

/-- The symbols of a byte string, without padding. -/
def symbols : List UInt8 → List Char
  | [] => []
  | [x] => [symbol (x.toNat / 4), symbol (x.toNat % 4 * 16)]
  | [x, y] =>
      [symbol (x.toNat / 4), symbol (x.toNat % 4 * 16 + y.toNat / 16),
       symbol (y.toNat % 16 * 4)]
  | x :: y :: z :: rest =>
      symbol (x.toNat / 4) :: symbol (x.toNat % 4 * 16 + y.toNat / 16) ::
        symbol (y.toNat % 16 * 4 + z.toNat / 64) :: symbol (z.toNat % 64) :: symbols rest

/-- The number of padding signs that complete the last group. -/
def paddingLength (bytes : List UInt8) : Nat :=
  (3 - bytes.length % 3) % 3

/-- The symbols of a byte string, padded to whole groups. -/
def encode (bytes : List UInt8) : List Char :=
  symbols bytes ++ List.replicate (paddingLength bytes) '='

/-! ### The grammar -/

/-- The six bits of a number below 64, the highest first. -/
def sextetBits (n : Nat) : List Bool :=
  [n.testBit 5, n.testBit 4, n.testBit 3, n.testBit 2, n.testBit 1, n.testBit 0]

/-- The number that bits write, the highest first. -/
def ofBits (bits : List Bool) : Nat :=
  bits.foldl (fun n b => 2 * n + b.toNat) 0

/-- Eight bits a byte. What is left at the end is dropped. -/
def octets : List Bool → List UInt8
  | a :: b :: c :: d :: e :: f :: g :: h :: rest =>
      UInt8.ofNat (ofBits [a, b, c, d, e, f, g, h]) :: octets rest
  | _ => []

/-- The symbols that a last group can have, and the most padding that may follow it. -/
def paddingLimit? (symbols : Nat) : Option Nat :=
  match symbols % 4 with
  | 0 => some 0
  | 2 => some 2
  | 3 => some 1
  | _ => none

/-- The text stands for the bytes. -/
inductive Writes : List Char → List UInt8 → Prop
  | intro {symbols : List Char} {sextets : List Nat} {padding limit : Nat}
      (known : symbols.map sextet? = sextets.map some)
      (group : paddingLimit? symbols.length = some limit) (fits : padding ≤ limit) :
      Writes (symbols ++ List.replicate padding '=') (octets (sextets.flatMap sextetBits))

end AccessLine.Text.Base64
