/-!
# Finite binary64 numbers

A number is a sign and an integer times a power of two, in the form that has at most 53 significant
bits and no exponent below -1074. Every operation computes the exact result and rounds it once, to
the nearest such number, ties to even. Quotients are rounded to integers first, by two policies that
differ on exact halves.

There is no upper limit here: the times that are added stay below `2^80`. The readers of decimals and
the scaling of a value, which can reach further, compare with the limit themselves.
-/
namespace AccessLine.Number

/-- The integer nearest to `num / den`. Of two equally near ones the even one is taken. -/
def roundHalfEven (num den : Nat) : Nat :=
  let q := num / den
  let r := num % den
  if 2 * r < den then q
  else if den < 2 * r then q + 1
  else q + q % 2

/-- The integer nearest to `num / den`. Of two equally near ones the larger one is taken. -/
def roundHalfUp (num den : Nat) : Nat :=
  let q := num / den
  if den ≤ 2 * (num % den) then q + 1 else q

theorem roundHalfEven_mul (n : Nat) {den : Nat} (h : 0 < den) :
    roundHalfEven (n * den) den = n := by
  simp [roundHalfEven, Nat.mul_div_cancel n h, Nat.mul_mod_left, h]

/-- The number `(-1)^negative * mantissa * 2^exponent`. Zero keeps its sign. -/
structure Binary64 where
  negative : Bool := false
  mantissa : Nat
  exponent : Int
deriving Repr, DecidableEq

namespace Binary64

/-- The significant bits of a mantissa. -/
def precision : Nat := 53

/-- The exponent of the least positive number. -/
def minExponent : Int := -1074

/-- Zero with the given sign. -/
def zero (negative : Bool) : Binary64 :=
  { negative, mantissa := 0, exponent := minExponent }

/-- The largest `k` with `2^k ≤ num / den`. -/
def floorLog2 (num den : Nat) : Int :=
  let k : Int := (num.log2 : Int) - den.log2
  if den <<< k.toNat ≤ num <<< (-k).toNat then k else k - 1

/-- The exponent at which a positive `num / den` has `precision` bits before the point, or the least
exponent if that is larger. -/
def gridExponent (num den : Nat) : Int :=
  max minExponent (floorLog2 num den - (precision - 1))

/-- The multiples of `2^e` nearest to `num / den`, counted in `2^e`. -/
def roundAt (num den : Nat) (e : Int) : Nat :=
  roundHalfEven (num <<< (-e).toNat) (den <<< e.toNat)

/-- The number nearest to `±num / den`. A mantissa that rounding has brought up to `2^53` is
halved. -/
def ofRatio (negative : Bool) (num den : Nat) : Binary64 :=
  if num = 0 then zero negative
  else
    let e := gridExponent num den
    let m := roundAt num den e
    if m = 0 then zero negative
    else if m = 1 <<< precision then
      { negative, mantissa := 1 <<< (precision - 1), exponent := e + 1 }
    else { negative, mantissa := m, exponent := e }

/-- The number nearest to `±m * 2^e / den`. -/
def ofScaled (negative : Bool) (m : Nat) (e : Int) (den : Nat) : Binary64 :=
  ofRatio negative (m <<< e.toNat) (den <<< (-e).toNat)

/-- The number nearest to a natural number. -/
def ofNat (n : Nat) : Binary64 :=
  ofRatio false n 1

def neg (x : Binary64) : Binary64 :=
  { x with negative := !x.negative }

/-- The number as a signed multiple of `2^e`, for an `e` that is at most its exponent. -/
def unitsAt (x : Binary64) (e : Int) : Int :=
  let n : Int := ↑(x.mantissa <<< (x.exponent - e).toNat)
  if x.negative then -n else n

/-- An exact zero is negative only if both terms are. -/
def add (x y : Binary64) : Binary64 :=
  let e := min x.exponent y.exponent
  let sum := x.unitsAt e + y.unitsAt e
  if sum = 0 then zero (x.negative && y.negative)
  else ofScaled (decide (sum < 0)) sum.natAbs e 1

def sub (x y : Binary64) : Binary64 :=
  x.add y.neg

def mul (x y : Binary64) : Binary64 :=
  ofScaled (x.negative != y.negative) (x.mantissa * y.mantissa) (x.exponent + y.exponent) 1

/-- The quotient by a positive natural number. -/
def divNat (x : Binary64) (n : Nat) : Binary64 :=
  ofScaled x.negative x.mantissa x.exponent n

/-- The product with a natural number. -/
def mulNat (x : Binary64) (n : Nat) : Binary64 :=
  ofScaled x.negative (x.mantissa * n) x.exponent 1

/-- The nearest integer, halves away from zero, with the sign kept. -/
def roundToInteger (x : Binary64) : Binary64 :=
  ofRatio x.negative
    (roundHalfUp (x.mantissa <<< x.exponent.toNat) (1 <<< (-x.exponent).toNat)) 1

/-- The magnitude without its fraction. -/
def floorMagnitude (x : Binary64) : Nat :=
  (x.mantissa <<< x.exponent.toNat) / (1 <<< (-x.exponent).toNat)

/-- The magnitude in units of `10^-places`, rounded to an integer from its exact value, ties to
even. -/
def placesMagnitude (x : Binary64) (places : Nat) : Nat :=
  roundHalfEven ((x.mantissa <<< x.exponent.toNat) * Nat.pow 10 places)
    (1 <<< (-x.exponent).toNat)

/-- Whether the magnitude is below `2^1024`. -/
def InRange (x : Binary64) : Prop :=
  x.mantissa = 0 ∨ x.exponent ≤ 971

instance (x : Binary64) : Decidable x.InRange :=
  inferInstanceAs (Decidable (_ ∨ _))

/-- The finite numbers of the format. -/
structure IsFinite (x : Binary64) : Prop where
  mantissa_lt : x.mantissa < 1 <<< precision
  minExponent_le : minExponent ≤ x.exponent
  exponent_le : x.exponent ≤ 971

/-- The 64 bits of the interchange format: sign, biased exponent, fraction. -/
def bits (x : Binary64) : Nat :=
  let sign := if x.negative then 1 <<< 63 else 0
  if x.mantissa < 1 <<< 52 then sign + x.mantissa
  else sign + (((x.exponent + 1075).toNat <<< 52) + (x.mantissa - (1 <<< 52)))

end Binary64

end AccessLine.Number
