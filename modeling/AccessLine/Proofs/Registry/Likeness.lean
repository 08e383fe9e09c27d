import AccessLine.Proofs.Registry.Acts

/-!
# Operations that answer alike

Registries that write the same lines cannot be told apart by what they are asked. Every operation
gives both the same answer and the same events, and leaves two registries that write the same lines
again.
-/
namespace AccessLine

namespace Registry

/-- Two results that go the same way, with the answer of the second obtained from that of the
first. -/
inductive Alike {α β : Type} (f : α → β) :
    Except FormatError (Registered α) → Except FormatError (Registered β) → Prop
  | error (e : FormatError) : Alike f (.error e) (.error e)
  | ok {value : α} {r r' : Registry} {events : List Event} (h : r.SameLines r') :
      Alike f (.ok { value, registry := r, events })
        (.ok { value := f value, registry := r', events })

namespace SameLines

variable {r r' : Registry} (h : r.SameLines r')
include h

theorem symm : r'.SameLines r :=
  ⟨h.tokens.symm, h.formats.symm, h.lines.symm⟩

theorem make (b : LineBuilder) :
    (r'.make b).1 = (r.make b).1 ∧ (r.make b).2.SameLines (r'.make b).2 := by
  refine ⟨h.length_builders, ⟨h.tokens, h.formats, ?lines⟩⟩
  case lines =>
    have hlines : r'.builders.map LineBuilder.line = r.builders.map LineBuilder.line := h.lines
    simp only [Registry.make, Registry.lines, List.map_append, hlines]

theorem insert (name : String) (f : Format) :
    SameLines { r with formats := r.formats.insert name f }
      { r' with formats := r'.formats.insert name f } where
  tokens := h.tokens
  formats := by rw [h.formats]
  lines := h.lines

theorem token (name : String) (t : Evaluator) :
    Alike id (r.token name t) (r'.token name t) := by
  unfold Registry.token
  split
  · exact .error _
  · exact .ok ⟨by rw [h.tokens], h.formats, h.lines⟩

theorem place (name : String) (d : Definition) :
    (r.place name d).SameLines (r'.place name d) := by
  have ready (b : LineBuilder) :
      SameLines { (r.make b).2 with formats := r.formats.insert name (.builder (r.make b).1) }
        { (r'.make b).2 with formats := r'.formats.insert name (.builder (r'.make b).1) } := by
    obtain ⟨hid, hmade⟩ := h.make b
    rw [hid]
    exact hmade.insert name _
  cases d with
  | template src => exact h.insert name _
  | dev => exact ready _
  | custom line => exact ready _

theorem format (name : String) (d : Definition) :
    Alike id (r.format name d) (r'.format name d) := by
  unfold Registry.format
  split
  · exact .error _
  · exact .ok (h.place name d)

theorem resolve (text : String) : Alike id (r.resolve text) (r'.resolve text) := by
  unfold Registry.resolve
  rw [h.formats, h.tokens]
  split
  · exact .ok h
  · cases Template.compile _ r.tokens with
    | error e => exact .error e
    | ok t =>
        obtain ⟨hid, hmade⟩ := h.make (.compiled t)
        simp only [Except.map, hid]
        exact .ok (hmade.insert text _)
  · cases Template.compile _ r.tokens with
    | error e => exact .error e
    | ok t =>
        obtain ⟨hid, hmade⟩ := h.make (.compiled t)
        simp only [Except.map, hid]
        exact .ok hmade

/-- Logs that are built over them with settings that differ in whom they skip. -/
theorem build {f : AccessLog → AccessLog} (settings : LogSettings) (skip : Option Skip)
    (serial : Nat)
    (hf : ∀ builder,
      f { serial, builder, immediate := settings.immediate, skip := settings.skip,
          sink := settings.sink } =
        { serial, builder, immediate := settings.immediate, skip, sink := settings.sink }) :
    Alike f (AccessLog.build settings serial r)
      (AccessLog.build { settings with skip } serial r') := by
  unfold AccessLog.build
  have halike := h.resolve settings.format
  generalize r.resolve settings.format = x, r'.resolve settings.format = x' at halike ⊢
  cases halike with
  | error e => exact .error e
  | ok hfound =>
      simp only [Except.map, id, ← hf]
      exact .ok hfound

theorem render (id : BuilderId) (request : RequestView) (response : ResponseView) :
    (r'.render id request response).1 = (r.render id request response).1 ∧
      (r.render id request response).2.SameLines (r'.render id request response).2 := by
  simp only [render_eq, h.lines, h.tokens, true_and]
  exact (SameLines.wrote id response).symm.trans (h.trans (.wrote id response))

end SameLines

end Registry

end AccessLine
