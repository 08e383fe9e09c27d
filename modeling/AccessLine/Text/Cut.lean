/-!
# Cutting and trimming texts

A text is cut at a separator, or stripped of what stands around it. The blank characters are those
with the Unicode property White_Space: 25 code points in ten ranges.
-/
namespace AccessLine.Text

/-- What stands before and after the first `sep`, if there is one. -/
def cutFirst? (sep : Char) (cs : List Char) : Option (List Char × List Char) :=
  match cs.dropWhile (· != sep) with
  | [] => none
  | _ :: rest => some (cs.takeWhile (· != sep), rest)

/-- The parts between separators. There is one more than there are separators. -/
def parts (sep : Char) : List Char → List (List Char)
  | [] => [[]]
  | c :: cs =>
      if c = sep then [] :: parts sep cs
      else
        match parts sep cs with
        | [] => [[c]]
        | p :: ps => (c :: p) :: ps

/-- The text between the leading and the trailing characters that satisfy `p`. -/
def strip (p : Char → Bool) (cs : List Char) : List Char :=
  ((cs.dropWhile p).reverse.dropWhile p).reverse

/-- Closed ranges of code points, ascending and apart. -/
def blankRanges : List (Nat × Nat) :=
  [(0x09, 0x0D), (0x20, 0x20), (0x85, 0x85), (0xA0, 0xA0), (0x1680, 0x1680), (0x2000, 0x200A),
   (0x2028, 0x2029), (0x202F, 0x202F), (0x205F, 0x205F), (0x3000, 0x3000)]

def isBlank (c : Char) : Bool :=
  blankRanges.any fun r => r.1 ≤ c.toNat && c.toNat ≤ r.2

def trimBlank : List Char → List Char :=
  strip isBlank

end AccessLine.Text
