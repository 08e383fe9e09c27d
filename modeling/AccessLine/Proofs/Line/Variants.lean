import AccessLine.Proofs.Registry.Lines
import Mathlib.Data.List.Dedup

/-!
# The variants of a colored line

Whatever a colored line was asked for before, it writes what the template of the response's color
writes. What remains of its past is which variants it has compiled, and that the variant of a color
is always the same one. To tell equal templates apart, the compiled ones are looked at as objects
that lie in memory, each at a position of its own.
-/
namespace AccessLine

/-- What a colored line can be asked for. -/
inductive DevCall
  | render (tokens : TokenTable) (request : RequestView) (response : ResponseView)
  | variant (c : Color)
  | cached (c : Color)

namespace DevCall

/-- The color whose variant a call needs. To see whether there is one needs none. -/
def color? : DevCall → Option Color
  | .render _ _ response => some (Color.forStatus response.status?)
  | .variant c => some c
  | .cached _ => none

/-- The colors that were needed, repeats included. -/
def colors (calls : List DevCall) : List Color :=
  calls.filterMap color?

theorem mem_colors {calls : List DevCall} {c : Color} :
    c ∈ colors calls ↔ .variant c ∈ calls ∨ ∃ tokens request response,
      .render tokens request response ∈ calls ∧ Color.forStatus response.status? = c := by
  rw [colors, List.mem_filterMap]
  constructor
  · rintro ⟨call, hmem, hc⟩
    cases call with
    | render tokens request response =>
        exact .inr ⟨tokens, request, response, hmem, Option.some.inj hc⟩
    | variant c' =>
        obtain rfl := Option.some.inj hc
        exact .inl hmem
    | cached c' => cases hc
  · rintro (hmem | ⟨tokens, request, response, hmem, hc⟩)
    · exact ⟨_, hmem, rfl⟩
    · exact ⟨_, hmem, congrArg some hc⟩

end DevCall

/-- The text between the tokens shows the color as its number in an escape sequence, and nothing
else of it. -/
theorem Color.nodes_template (c : Color) : (Template.parse c.template).nodes =
    [.literal "\x1b[0m", .token "method" none, .literal " ", .token "url" none,
      .literal (" \x1b[" ++ String.ofList (Nat.toDigits 10 c.code) ++ "m"), .token "status" none,
      .literal " \x1b[0m", .token "response-time" none, .literal " ms - ",
      .token "res" (some "content-length"), .literal "\x1b[0m"] := by
  cases c <;> decide +kernel

/-- The slots with what `f` makes of their contents. -/
def Slots.filterMap {α β : Type} (f : α → Option β) (s : Slots α) : Slots β where
  array := s.array.map (·.bind f)

@[simp] theorem Slots.get?_filterMap {α β : Type} (f : α → Option β) (s : Slots α) (c : Color) :
    (s.filterMap f).get? c = (s.get? c).bind f := by
  simp [get?, filterMap]

namespace Dev

/-- The line after a call. -/
def after (d : Dev) : DevCall → Dev
  | .render tokens request response => (d.render tokens request response).2
  | .variant c => (d.variant c).2
  | .cached _ => d

/-- The line after calls. -/
def run (d : Dev) (calls : List DevCall) : Dev :=
  calls.foldl after d

/-- What a colored line shows of an exchange: fields by the given tokens, with the status in the
color of its class. -/
def text (tokens : TokenTable) (request : RequestView) (response : ResponseView) : String :=
  let field (name : String) (arg : Option String) :=
    fieldText (tokens.eval name request response arg)
  "\x1b[0m" ++ field "method" none ++ " " ++ field "url" none ++
    " \x1b[" ++ String.ofList (Nat.toDigits 10 (Color.forStatus response.status?).code) ++ "m" ++
    field "status" none ++ " \x1b[0m" ++ field "response-time" none ++ " ms - " ++
    field "res" (some "content-length") ++ "\x1b[0m"

theorem render_template (tokens : TokenTable) (request : RequestView) (response : ResponseView) :
    (Template.parse (Color.forStatus response.status?).template).render tokens request response =
      text tokens request response := by
  unfold Template.render text
  rw [Color.nodes_template]
  simp only [List.map_cons, List.map_nil, Node.render, String.join_cons, String.join_nil,
    String.append_assoc, String.append_empty]

theorem after_eq (d : Dev) (call : DevCall) :
    d.after call = call.color?.elim d fun c => (d.variant c).2 := by
  cases call <;> rfl

/-- A colored line whose compiled templates are objects. An object stays where it was put when it
was compiled, so that its position tells it from all others, equal ones included. -/
structure Store where
  objects : List Template := []
  places : Slots Nat := {}

namespace Store

variable {s : Store} {needed : List Color}

/-- The position of the object in the slot of a color. -/
def place (s : Store) (c : Color) : Option Nat :=
  s.places.get? c

/-- The line that a store is, positions apart. -/
def dev (s : Store) : Dev where
  variants := s.places.filterMap fun i => s.objects[i]?

theorem compiled_dev (s : Store) (c : Color) :
    s.dev.compiled c = (s.place c).bind fun i => s.objects[i]? :=
  Slots.get?_filterMap _ _ c

/-- The object of a color: the one in its slot, or else a new one, which is put there. -/
def variant (s : Store) (c : Color) : Nat × Store :=
  match s.place c with
  | some i => (i, s)
  | none =>
      (s.objects.length,
        { objects := s.objects ++ [Template.parse c.template]
          places := s.places.fill c s.objects.length })

/-- The store after a call. -/
def after (s : Store) (call : DevCall) : Store :=
  call.color?.elim s fun c => (s.variant c).2

/-- The store after calls. -/
def run (s : Store) (calls : List DevCall) : Store :=
  calls.foldl after s

/-- How a store stands once some colors were needed: those have their places, each with the template
of its color, and nothing was compiled beside. -/
structure Stands (s : Store) (needed : List Color) : Prop where
  placed : ∀ c, (s.place c).isSome = true ↔ c ∈ needed
  compiled : ∀ c i, s.place c = some i → s.objects[i]? = some (Template.parse c.template)
  counted : s.objects.length = needed.dedup.length

theorem stands_empty : Stands {} [] where
  placed c := by simp [place]
  compiled c i h := by simp [place] at h
  counted := rfl

theorem dev_empty : ({} : Store).dev = {} := by
  apply ext_compiled
  intro c
  rw [compiled_dev]
  simp [place, compiled]

theorem variant_of_place {c : Color} {i : Nat} (h : s.place c = some i) : s.variant c = (i, s) := by
  simp [variant, h]

theorem variant_of_place_none {c : Color} (h : s.place c = none) :
    s.variant c = (s.objects.length,
      { objects := s.objects ++ [Template.parse c.template]
        places := s.places.fill c s.objects.length }) := by
  simp [variant, h]

/-- A color without an object gets one, in a place of its own. -/
theorem place_variant_of_ne {c c' : Color} (h : c' ≠ c) :
    (s.variant c).2.place c' = s.place c' := by
  cases hc : s.place c with
  | some i => rw [variant_of_place hc]
  | none =>
      rw [variant_of_place_none hc]
      exact Slots.get?_fill_of_ne h

theorem place_variant_self (s : Store) (c : Color) :
    (s.variant c).2.place c = some (s.variant c).1 := by
  cases hc : s.place c with
  | some i => rw [variant_of_place hc, hc]
  | none =>
      rw [variant_of_place_none hc]
      exact Slots.get?_fill_self

theorem Stands.variant (h : s.Stands needed) (c : Color) :
    (s.variant c).2.Stands (c :: needed) := by
  cases hc : s.place c with
  | some i =>
      have hmem : c ∈ needed := (h.placed c).mp (by simp [hc])
      rw [variant_of_place hc]
      refine ⟨fun c' => ?_, h.compiled, ?_⟩
      · rw [h.placed, List.mem_cons, or_iff_right_of_imp]
        rintro rfl
        exact hmem
      · rw [h.counted, List.dedup_cons_of_mem hmem]
  | none =>
      have hmem : c ∉ needed := fun hn => by simpa [hc] using (h.placed c).mpr hn
      have hobjects : (s.variant c).2.objects = s.objects ++ [Template.parse c.template] := by
        rw [variant_of_place_none hc]
      refine ⟨fun c' => ?_, fun c' i hi => ?_, ?_⟩
      · by_cases hcc : c' = c
        · simp [hcc, place_variant_self]
        · simp [place_variant_of_ne hcc, h.placed, hcc]
      · rw [hobjects]
        by_cases hcc : c' = c
        · rw [hcc, place_variant_self, variant_of_place_none hc] at hi
          obtain rfl := Option.some.inj hi
          simp [hcc]
        · rw [place_variant_of_ne hcc] at hi
          have hget := h.compiled c' i hi
          rwa [List.getElem?_append_left (List.getElem?_eq_some_iff.mp hget).choose]
      · rw [hobjects, List.dedup_cons_of_notMem hmem, List.length_append, h.counted]
        rfl

/-- Positions apart, a store compiles when the line does, and then the same template. -/
theorem Stands.dev_variant (h : s.Stands needed) (c : Color) :
    (s.variant c).2.dev = (s.dev.variant c).2 ∧
      (s.variant c).2.objects[(s.variant c).1]? = some (s.dev.variant c).1.template := by
  cases hc : s.place c with
  | some i =>
      have hget := h.compiled c i hc
      have hd : s.dev.compiled c = some (Template.parse c.template) := by
        simp [compiled_dev, hc, hget]
      rw [variant_of_place hc]
      simp [Dev.variant, hd, hget]
  | none =>
      have hd : s.dev.compiled c = none := by simp [compiled_dev, hc]
      have hself := s.place_variant_self c
      have hother {c' : Color} (hcc : c' ≠ c) := place_variant_of_ne (s := s) hcc
      rw [variant_of_place_none hc] at hself hother ⊢
      simp only [Dev.variant, hd]
      refine ⟨?_, by simp⟩
      apply ext_compiled
      intro c'
      by_cases hcc : c' = c
      · rw [compiled_dev, hcc, hself]
        simp
      · rw [compiled_dev, hother hcc, compiled_keep_of_ne hcc, compiled_dev]
        cases hi : s.place c' with
        | none => rfl
        | some i =>
            have hlt := (List.getElem?_eq_some_iff.mp (h.compiled c' i hi)).choose
            simp only [Option.bind_some, List.getElem?_append_left hlt]

theorem Stands.after (h : s.Stands needed) (call : DevCall) :
    (s.after call).Stands (call.color?.toList ++ needed) ∧
      (s.after call).dev = s.dev.after call := by
  rw [Dev.after_eq, Store.after]
  cases call.color? with
  | none => exact ⟨h, rfl⟩
  | some c => exact ⟨h.variant c, (h.dev_variant c).1⟩

theorem Stands.run (h : s.Stands needed) (calls : List DevCall) :
    (s.run calls).Stands ((DevCall.colors calls).reverse ++ needed) ∧
      (s.run calls).dev = s.dev.run calls := by
  induction calls generalizing s needed with
  | nil => exact ⟨h, rfl⟩
  | cons call calls ih =>
      obtain ⟨hs, hd⟩ := h.after call
      obtain ⟨hrun, hdev⟩ := ih hs
      rw [hd] at hdev
      refine ⟨?_, hdev⟩
      have hcolors : (DevCall.colors (call :: calls)).reverse =
          (DevCall.colors calls).reverse ++ call.color?.toList := by
        unfold DevCall.colors
        cases hc : call.color? <;> simp [hc]
      rw [hcolors, List.append_assoc]
      exact hrun

/-- An object in its place stays there. -/
theorem place_variant_of_place {c : Color} {i : Nat} (h : s.place c = some i) (c' : Color) :
    (s.variant c').2.place c = some i := by
  by_cases hc : c = c'
  · rw [← hc, place_variant_self, variant_of_place h]
  · rwa [place_variant_of_ne hc]

theorem place_run_of_place {c : Color} {i : Nat} (h : s.place c = some i) (calls : List DevCall) :
    (s.run calls).place c = some i := by
  induction calls generalizing s with
  | nil => exact h
  | cons call calls ih =>
      apply ih
      unfold after
      cases call.color? with
      | none => exact h
      | some c' => exact place_variant_of_place h c'

/-- Colors have objects of their own, because they have templates of their own. -/
theorem Stands.place_inj (h : s.Stands needed) {c c' : Color} {i : Nat} (hc : s.place c = some i)
    (hc' : s.place c' = some i) : c = c' := by
  have ht : Template.parse c.template = Template.parse c'.template :=
    Option.some.inj ((h.compiled c i hc).symm.trans (h.compiled c' i hc'))
  have hnodes := congrArg Template.nodes ht
  rw [Color.nodes_template, Color.nodes_template] at hnodes
  revert hnodes
  cases c <;> cases c' <;> decide

theorem Stands.cached?_isSome (h : s.Stands needed) (c : Color) :
    (s.dev.cached? c).isSome = true ↔ c ∈ needed := by
  rw [← h.placed]
  cases hc : s.place c with
  | none => simp [Dev.cached?, compiled_dev, hc]
  | some i => simp [Dev.cached?, compiled_dev, hc, h.compiled c i hc]

theorem Stands.size_eq (h : s.Stands needed) : s.dev.size = needed.dedup.length := by
  rw [Dev.size_eq]
  apply List.Perm.length_eq
  refine (List.perm_ext_iff_of_nodup (List.Nodup.filter _ (by decide)) needed.nodup_dedup).mpr ?_
  intro c
  have hall : c ∈ Color.all := by cases c <;> decide
  have hsome : (s.dev.cached? c).isSome = (s.dev.compiled c).isSome := Option.isSome_map
  simp [← h.cached?_isSome, hsome, hall]

/-- A variant is the template of its color, compiled before or not. -/
theorem Stands.template_eq (h : s.Stands needed) (c : Color) :
    s.dev.template c = Template.parse c.template := by
  unfold Dev.template
  cases hc : s.place c with
  | none => simp [compiled_dev, hc]
  | some i => simp [compiled_dev, hc, h.compiled c i hc]

theorem Stands.render_eq (h : s.Stands needed) (tokens : TokenTable) (request : RequestView)
    (response : ResponseView) : (s.dev.render tokens request response).1 =
      (Template.parse (Color.forStatus response.status?).template).render tokens request
        response := by
  simp only [Dev.render, Dev.variant_eq, h.template_eq]

end Store

/-- A colored line shows nothing of its past in what it writes. Its past is in the variants alone:
there is one for each color that was needed, compiled when it was first needed, and it is the same
object from then on. -/
theorem variants_compiled_once (calls : List DevCall) :
    let d := run {} calls
    let s := Store.run {} calls
    (s.dev = d ∧ ∀ c, (s.variant c).2.dev = (d.variant c).2 ∧
        (s.variant c).2.objects[(s.variant c).1]? = some (d.variant c).1.template) ∧
      (∀ c, (d.cached? c).isSome = true ↔ .variant c ∈ calls ∨ ∃ tokens request response,
        .render tokens request response ∈ calls ∧ Color.forStatus response.status? = c) ∧
      (∀ c, (s.place c).isSome = (d.cached? c).isSome ∧
        (s.variant c).2.place c = some (s.variant c).1) ∧
      (∀ c i, s.place c = some i → ∀ more,
        (s.run more).place c = some i ∧ ((s.run more).variant c).1 = i) ∧
      (∀ c c' i i', s.place c = some i → s.place c' = some i' → c ≠ c' → i ≠ i') ∧
      (d.size = (DevCall.colors calls).dedup.length ∧ s.objects.length = d.size) ∧
      ∀ tokens request response,
        (d.render tokens request response).1 = text tokens request response ∧
          (d.render tokens request response).1 =
            (Template.parse (Color.forStatus response.status?).template).render tokens request
              response := by
  intro d s
  obtain ⟨hs, hd⟩ : s.Stands ((DevCall.colors calls).reverse ++ []) ∧ s.dev = d :=
    Store.dev_empty ▸ Store.stands_empty.run calls
  rw [List.append_nil] at hs
  have hpresent (c : Color) : (d.cached? c).isSome = true ↔ c ∈ DevCall.colors calls := by
    rw [← hd, hs.cached?_isSome, List.mem_reverse]
  have hcount : (DevCall.colors calls).reverse.dedup.length =
      (DevCall.colors calls).dedup.length :=
    (List.reverse_perm _).dedup.length_eq
  refine ⟨⟨hd, fun c => hd ▸ hs.dev_variant c⟩, fun c => (hpresent c).trans DevCall.mem_colors,
    fun c => ⟨?_, s.place_variant_self c⟩, ?_, ?_, ⟨?_, ?_⟩, ?_⟩
  · rw [Bool.eq_iff_iff, hs.placed, ← hd, hs.cached?_isSome]
  · intro c i hi more
    have hmore := Store.place_run_of_place hi more
    exact ⟨hmore, by rw [Store.variant_of_place hmore]⟩
  · rintro c c' i i' hi hi' hne rfl
    exact hne (hs.place_inj hi hi')
  · rw [← hd, hs.size_eq, hcount]
  · rw [← hd, hs.size_eq, hs.counted]
  · intro tokens request response
    have hrender := hd ▸ hs.render_eq tokens request response
    exact ⟨hrender.trans (render_template tokens request response), hrender⟩

end Dev

end AccessLine
