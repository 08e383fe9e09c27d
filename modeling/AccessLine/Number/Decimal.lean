import AccessLine.Number.Binary64

/-!
# Decimal texts of numbers

Reading: a sign, then either digits with an optional point and exponent, or one of the words for
infinity and for an undefined number. Only ASCII digits count, and nothing may stand around them.

Writing: a fixed number of places after the point, with all places written out.
-/
namespace AccessLine.Number

/-- The value of an ASCII digit. -/
def digit? (c : Char) : Option Nat :=
  if '0' ≤ c ∧ c ≤ '9' then some (c.toNat - '0'.toNat) else none

def isDigit (c : Char) : Bool :=
  (digit? c).isSome

/-- The natural number that a list of digits writes. Other characters count as zero. -/
def ofDigits (cs : List Char) : Nat :=
  cs.foldl (fun n c => 10 * n + (digit? c).getD 0) 0

/-- The exact value `±digits * 10^exponent`. -/
structure Decimal where
  negative : Bool
  digits : Nat
  exponent : Int
deriving Repr, DecidableEq

/-- What the text of a number can stand for. -/
inductive Numeral
  | decimal (d : Decimal)
  | infinite (negative : Bool)
  | undefined
deriving Repr, DecidableEq

namespace Numeral

/-- A leading sign, and what follows it. -/
def splitSign : List Char → Bool × List Char
  | '-' :: cs => (true, cs)
  | '+' :: cs => (false, cs)
  | cs => (false, cs)

/-- An exponent, from its mark to the end of the text. An absent one is zero. -/
def exponent? : List Char → Option Int
  | [] => some 0
  | c :: cs =>
      if c = 'e' ∨ c = 'E' then
        let (negative, ds) := splitSign cs
        if ds ≠ [] ∧ ds.all isDigit then
          some (if negative then -(ofDigits ds : Int) else ofDigits ds)
        else none
      else none

/-- Digits around an optional point, at least one of them, and then the exponent. -/
def decimal? (negative : Bool) (cs : List Char) : Option Decimal :=
  let whole := cs.takeWhile isDigit
  let rest := cs.dropWhile isDigit
  let pointed : List Char × List Char :=
    match rest with
    | '.' :: more => (more.takeWhile isDigit, more.dropWhile isDigit)
    | _ => ([], rest)
  let fraction := pointed.1
  if whole ++ fraction = [] then none
  else
    (exponent? pointed.2).map fun e =>
      { negative, digits := ofDigits (whole ++ fraction), exponent := e - fraction.length }

/-- The words are read in any letter case. -/
def parse? (cs : List Char) : Option Numeral :=
  let (negative, body) := splitSign cs
  let word := body.map Char.toLower
  if word = ['i', 'n', 'f'] ∨ word = ['i', 'n', 'f', 'i', 'n', 'i', 't', 'y'] then
    some (.infinite negative)
  else if word = ['n', 'a', 'n'] then some .undefined
  else (decimal? negative body).map .decimal

end Numeral

/-- The nearest binary64 number, or `none` if that is beyond the largest finite one. Two bounds on
the magnitude come first, so that an exponent out of all proportion costs nothing: below `2^-1200`
every number is nearest to zero, and `10^400` is out of range. -/
def Decimal.toBinary64? (d : Decimal) : Option Binary64 :=
  if d.digits = 0 then some (.zero d.negative)
  else if 400 < d.exponent then none
  else if (d.digits.log2 : Int) + 3 * d.exponent < -1200 then some (.zero d.negative)
  else
    let x := Binary64.ofRatio d.negative (d.digits * Nat.pow 10 d.exponent.toNat)
      (Nat.pow 10 (-d.exponent).toNat)
    if x.InRange then some x else none

/-- The finite number that a text writes, if it writes one. -/
def readFinite? (cs : List Char) : Option Binary64 :=
  match Numeral.parse? cs with
  | some (.decimal d) => d.toBinary64?
  | _ => none

/-- The decimal digits of `n`. -/
def digits (n : Nat) : List Char :=
  Nat.toDigits 10 n

/-- The numeral of `n / 10^places`: at least one digit, then a point and `places` digits. Without
places there is no point. -/
def fixedPoint (n places : Nat) : List Char :=
  if places = 0 then digits n
  else
    let fraction := digits (n % Nat.pow 10 places)
    digits (n / Nat.pow 10 places) ++ '.' ::
      (List.replicate (places - fraction.length) '0' ++ fraction)

/-- The number with a fixed count of places, rounded from its exact value, ties to even. A negative
number keeps its sign when nothing but zeros is left. -/
def Binary64.toPlaces (x : Binary64) (places : Nat) : String :=
  let numeral := fixedPoint (x.placesMagnitude places) places
  String.ofList (if x.negative then '-' :: numeral else numeral)

/-- What is written for a number beyond the largest finite one. -/
def infiniteText (negative : Bool) : String :=
  if negative then "-inf" else "inf"

end AccessLine.Number
