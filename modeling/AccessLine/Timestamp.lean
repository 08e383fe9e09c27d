import AccessLine.Number.Binary64

/-!
# Clock readings

A reading counts seconds and nanoseconds from an origin that means nothing, so only differences of
readings are of use. The nanoseconds need not stay below a second.
-/
namespace AccessLine

open Number

structure Timestamp where
  secs : Nat
  nanos : Nat
deriving DecidableEq, Repr

namespace Timestamp

/-- Readings are ordered by seconds, then by nanoseconds. -/
def cmp (a b : Timestamp) : Ordering :=
  (compare a.secs b.secs).then (compare a.nanos b.nanos)

instance : LE Timestamp where
  le a b := a.secs < b.secs ∨ (a.secs = b.secs ∧ a.nanos ≤ b.nanos)

instance (a b : Timestamp) : Decidable (a ≤ b) :=
  inferInstanceAs (Decidable (_ ∨ _))

/-- One thousandth of a thousandth. -/
def millionth : Binary64 :=
  .ofRatio false 1 1000000

/-- The milliseconds from `start` to `finish`. Seconds and nanoseconds are subtracted apart, and
every step is rounded. -/
def millisSince (finish start : Timestamp) : Binary64 :=
  let seconds := (Binary64.ofNat finish.secs).sub (.ofNat start.secs)
  let nanoseconds := (Binary64.ofNat finish.nanos).sub (.ofNat start.nanos)
  (seconds.mul (.ofNat 1000)).add (nanoseconds.mul millionth)

end Timestamp

end AccessLine
