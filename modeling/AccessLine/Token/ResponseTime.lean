import AccessLine.Number.Decimal
import AccessLine.Text.Cut
import AccessLine.Timestamp

/-!
# Response times

Milliseconds with a number of places that the template can choose.
-/
namespace AccessLine.ResponseTime

open Number

def defaultPlaces : Nat := 3

def maxPlaces : Nat := 100

/-- The most places at which a value is rounded half up before it is written. -/
def halfUpPlaces : Nat := 15

/-- The places that an argument asks for: the number it writes without its fraction, at least zero
and at most `maxPlaces`. What writes no finite number asks for none. -/
def places (arg : String) : Nat :=
  match readFinite? (Text.trimBlank arg.toList) with
  | some x => if x.negative then 0 else min x.floorMagnitude maxPlaces
  | none => 0

/-- Up to `halfUpPlaces` the value is scaled, rounded to an integer with halves away from zero and
scaled back, each step rounded to the nearest number. Then its exact value is written. A value that
scaling takes beyond the largest number is not brought back. -/
def text (value : Binary64) (places : Nat) : String :=
  if halfUpPlaces < places then value.toPlaces places
  else
    let scale := Nat.pow 10 places
    let scaled := value.mulNat scale
    if scaled.InRange then (scaled.roundToInteger.divNat scale).toPlaces places
    else infiniteText scaled.negative

/-- The time from `start` to `finish`, with the places that the argument asks for. -/
def between (start finish : Timestamp) (arg : Option String) : String :=
  text (finish.millisSince start) (arg.elim defaultPlaces places)

end AccessLine.ResponseTime
