import AccessLine.Http.Method

/-!
# Status colors

A terminal shows a status in the color of its class. What is kept for each color stands in a slot of
its own.
-/
namespace AccessLine

inductive Color
  | plain
  | red
  | green
  | yellow
  | cyan
deriving DecidableEq, Repr

namespace Color

def all : List Color :=
  [.plain, .red, .green, .yellow, .cyan]

/-- Without a status, and for informational ones, there is no color. -/
def forStatus : Option Http.Status → Color
  | none => .plain
  | some s =>
      if 500 ≤ s.code then .red
      else if 400 ≤ s.code then .yellow
      else if 300 ≤ s.code then .cyan
      else if 200 ≤ s.code then .green
      else .plain

/-- The number that selects the color in an escape sequence. -/
def code : Color → Nat
  | .plain => 0
  | .red => 31
  | .green => 32
  | .yellow => 33
  | .cyan => 36

def escape (c : Color) : String :=
  "\x1b[" ++ String.ofList (Nat.toDigits 10 c.code) ++ "m"

/-- The template of a line whose status has the color. -/
def template (c : Color) : String :=
  plain.escape ++ ":method :url " ++ c.escape ++ ":status " ++ plain.escape ++
    ":response-time ms - :res[content-length]" ++ plain.escape

/-- The number of slots. -/
abbrev buckets : Nat := 5

def slot : Color → Fin buckets
  | .plain => 0
  | .red => 1
  | .green => 2
  | .yellow => 3
  | .cyan => 4

theorem slot_injective : Function.Injective slot := by
  intro c c' h
  cases c <;> cases c' <;> first | rfl | exact absurd h (by decide)

theorem exists_slot_eq (i : Fin buckets) : ∃ c : Color, c.slot = i :=
  match i with
  | 0 => ⟨.plain, rfl⟩
  | 1 => ⟨.red, rfl⟩
  | 2 => ⟨.green, rfl⟩
  | 3 => ⟨.yellow, rfl⟩
  | 4 => ⟨.cyan, rfl⟩

end Color

/-- A slot for each color. -/
structure Slots (α : Type) where
  array : Vector (Option α) Color.buckets := .replicate _ none

namespace Slots

variable {α : Type} {s s' : Slots α} {c c' : Color} {x : α}

def get? (s : Slots α) (c : Color) : Option α :=
  s.array[c.slot]

def fill (s : Slots α) (c : Color) (x : α) : Slots α where
  array := s.array.set c.slot (some x)

/-- The number of slots that are filled. -/
def count (s : Slots α) : Nat :=
  s.array.countP Option.isSome

@[simp] theorem get?_empty : get? ({} : Slots α) c = none := by
  simp [get?]

@[simp] theorem get?_fill_self : (s.fill c x).get? c = some x := by
  simp [get?, fill]

/-- Filling the slot of one color leaves the others alone, because no two share a slot. -/
theorem get?_fill_of_ne (h : c' ≠ c) : (s.fill c x).get? c' = s.get? c' := by
  have hslot : (c.slot : Nat) ≠ c'.slot := fun he =>
    h (Color.slot_injective (Fin.ext he)).symm
  simp [get?, fill, hslot]

theorem ext_get? (h : ∀ c, s.get? c = s'.get? c) : s = s' := by
  obtain ⟨a⟩ := s
  obtain ⟨a'⟩ := s'
  congr 1
  ext1 i hi
  obtain ⟨c, hc⟩ := Color.exists_slot_eq ⟨i, hi⟩
  simpa [get?, hc] using h c

/-- The slots hold what they hold for the colors, in order. -/
theorem toList_array (s : Slots α) : s.array.toList = Color.all.map s.get? := by
  apply List.ext_getElem
  · simp [Color.all]
  · intro i hi _
    have hlt : i < Color.buckets := by simpa using hi
    rw [Vector.getElem_toList]
    match i, hlt with
    | 0, _ | 1, _ | 2, _ | 3, _ | 4, _ => rfl

theorem count_eq (s : Slots α) :
    s.count = (Color.all.filter fun c => (s.get? c).isSome).length := by
  rw [count, ← Vector.countP_toList, toList_array, List.countP_map, List.countP_eq_length_filter]
  rfl

end Slots

end AccessLine
