import AccessLine.Line.Color
import AccessLine.Template.Compile

/-!
# The colored line

One template per color, compiled when the first response of that color is logged and kept from then
on. A slot that is filled stays as it is.
-/
namespace AccessLine

/-- The variants compiled so far, in the slots of their colors. -/
structure Dev where
  variants : Slots Template := {}

/-- A compiled template of a colored line. The color tells it from every other one of the same
line. -/
structure Variant where
  color : Color
  template : Template
deriving DecidableEq, Repr

namespace Dev

/-- The template in the slot of a color. -/
def compiled (d : Dev) (c : Color) : Option Template :=
  d.variants.get? c

def cached? (d : Dev) (c : Color) : Option Variant :=
  (d.compiled c).map fun t => ⟨c, t⟩

def colors (d : Dev) : List Color :=
  Color.all.filter fun c => (d.compiled c).isSome

def size (d : Dev) : Nat :=
  d.variants.count

def isEmpty (d : Dev) : Bool :=
  d.size = 0

/-- Fills the slot of a color. -/
def keep (d : Dev) (c : Color) (t : Template) : Dev where
  variants := d.variants.fill c t

/-- The variant of a color, compiled now if it was not before. -/
def variant (d : Dev) (c : Color) : Variant × Dev :=
  match d.compiled c with
  | some t => (⟨c, t⟩, d)
  | none =>
      let t := Template.parse c.template
      (⟨c, t⟩, d.keep c t)

@[simp] theorem compiled_empty (c : Color) : ({} : Dev).compiled c = none :=
  Slots.get?_empty

@[simp] theorem compiled_keep_self {d : Dev} {c : Color} {t : Template} :
    (d.keep c t).compiled c = some t :=
  Slots.get?_fill_self

theorem compiled_keep_of_ne {d : Dev} {c c' : Color} {t : Template} (h : c' ≠ c) :
    (d.keep c t).compiled c' = d.compiled c' :=
  Slots.get?_fill_of_ne h

theorem ext_compiled {d d' : Dev} (h : ∀ c, d.compiled c = d'.compiled c) : d = d' :=
  congrArg mk (Slots.ext_get? h)

theorem size_eq (d : Dev) : d.size = d.colors.length :=
  d.variants.count_eq

/-- The line of one exchange, in the variant of its status. -/
def render (d : Dev) (tokens : TokenTable) (request : RequestView) (response : ResponseView) :
    String × Dev :=
  let (v, d) := d.variant (Color.forStatus response.status?)
  (v.template.render tokens request response, d)

end Dev

end AccessLine
