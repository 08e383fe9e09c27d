import AccessLine.Proofs.Exchange.Settlement
import Mathlib.Logic.Function.Conjugate
import Mathlib.Logic.Relation

/-!
# What a registry can write

A line builder is a function of the tokens and both sides of an exchange. Which variants a colored
line has compiled makes no difference to that function, and nothing else changes when a line is
written. So a registry can be looked at through its tokens, its formats and the functions of its
line builders, and what is written for one exchange leaves the lines of every other as they were.
-/
namespace AccessLine

namespace Dev

/-- The template of a color, compiled before or not. -/
def template (d : Dev) (c : Color) : Template :=
  (d.compiled c).getD (Template.parse c.template)

/-- The colored line with the variant of a color in its place. -/
def touch (c : Color) (d : Dev) : Dev :=
  d.keep c (d.template c)

theorem variant_eq (d : Dev) (c : Color) : d.variant c = (⟨c, d.template c⟩, d.touch c) := by
  cases h : d.compiled c with
  | none => simp [variant, touch, template, h]
  | some t =>
      have hk : d.keep c t = d := by
        apply ext_compiled
        intro c'
        by_cases hc : c' = c
        · simp [hc, h]
        · simp [compiled_keep_of_ne hc]
      simp [variant, touch, template, h, hk]

@[simp] theorem template_empty (c : Color) : ({} : Dev).template c = Template.parse c.template := by
  simp [template]

theorem compiled_touch (d : Dev) (c c' : Color) :
    (d.touch c).compiled c' = if c' = c then some (d.template c) else d.compiled c' := by
  by_cases hc : c' = c
  · rw [if_pos hc, hc]
    exact compiled_keep_self
  · rw [if_neg hc]
    exact compiled_keep_of_ne hc

@[simp] theorem template_touch (d : Dev) (c c' : Color) :
    (d.touch c).template c' = d.template c' := by
  unfold template
  by_cases hc : c' = c
  · simp [compiled_touch, hc, template]
  · simp [compiled_touch, hc]

theorem template_foldl_variant (cs : List Color) (d : Dev) (c : Color) :
    (cs.foldl (fun d c => (d.variant c).2) d).template c = d.template c := by
  induction cs generalizing d with
  | nil => rfl
  | cons c' cs ih => rw [List.foldl_cons, ih, variant_eq, template_touch]

theorem touch_comm (c c' : Color) : Function.Commute (touch c) (touch c') := by
  intro d
  apply ext_compiled
  intro k
  by_cases h : k = c
  · subst h
    by_cases h' : k = c' <;> simp [compiled_touch, h']
  · by_cases h' : k = c'
    · subst h'
      simp [compiled_touch, h]
    · simp [compiled_touch, h, h']

end Dev

namespace LineBuilder

/-- The function that a line builder writes its lines by. -/
def line (b : LineBuilder) : LineFunction := fun tokens request response =>
  (b.render tokens request response).1

/-- The line builder after a line for a response has been written. -/
def wrote (response : ResponseView) : LineBuilder → LineBuilder
  | .dev d => .dev (d.touch (Color.forStatus response.status?))
  | b => b

theorem render_eq (b : LineBuilder) (tokens : TokenTable) (request : RequestView)
    (response : ResponseView) :
    b.render tokens request response = (b.line tokens request response, b.wrote response) := by
  cases b with
  | compiled | custom => rfl
  | dev d => simp [line, wrote, render, Dev.render, Dev.variant_eq]

@[simp] theorem line_wrote (b : LineBuilder) (response : ResponseView) :
    (b.wrote response).line = b.line := by
  cases b with
  | compiled | custom => rfl
  | dev d =>
      funext tokens request response'
      simp [line, wrote, render, Dev.render, Dev.variant_eq]

theorem wrote_comm (response response' : ResponseView) :
    Function.Commute (wrote response) (wrote response') := by
  intro b
  cases b with
  | compiled | custom => rfl
  | dev d => exact congrArg LineBuilder.dev (Dev.touch_comm _ _ d)

end LineBuilder

namespace Registry

/-- The functions of the line builders, each in its builder's place. -/
def lines (r : Registry) : List LineFunction :=
  r.builders.map LineBuilder.line

@[simp] theorem length_lines (r : Registry) : r.lines.length = r.builders.length :=
  List.length_map _

/-- The registry after a line builder has written a line for a response. -/
def wrote (id : BuilderId) (response : ResponseView) (r : Registry) : Registry :=
  { r with builders := r.builders.modify id (LineBuilder.wrote response) }

theorem wrote_comm (id id' : BuilderId) (response response' : ResponseView) :
    Function.Commute (wrote id response) (wrote id' response') := by
  intro r
  by_cases h : id = id'
  · subst h
    have hc : LineBuilder.wrote response ∘ LineBuilder.wrote response' =
        LineBuilder.wrote response' ∘ LineBuilder.wrote response :=
      funext (LineBuilder.wrote_comm response response')
    simp only [wrote, List.modify_modify_eq, hc]
  · simp only [wrote, List.modify_modify_ne _ _ _ h]

/-- What a line does to no line builder, it does not do to the registry either. -/
theorem map_builders_wrote {β : Type} (f : LineBuilder → β)
    (hf : ∀ b response, f (b.wrote response) = f b) (r : Registry) (id : BuilderId)
    (response : ResponseView) : (r.wrote id response).builders.map f = r.builders.map f := by
  apply List.ext_getElem?
  intro k
  simp only [wrote, List.getElem?_map, List.getElem?_modify]
  cases r.builders[k]? with
  | none => rfl
  | some b => by_cases h : id = k <;> simp [h, hf]

@[simp] theorem lines_wrote (r : Registry) (id : BuilderId) (response : ResponseView) :
    (r.wrote id response).lines = r.lines :=
  r.map_builders_wrote LineBuilder.line LineBuilder.line_wrote id response

theorem render_eq (r : Registry) (id : BuilderId) (request : RequestView)
    (response : ResponseView) :
    r.render id request response =
      ((r.lines[id]?.map fun line => line r.tokens request response).getD "",
        r.wrote id response) := by
  unfold render
  cases h : r.builders[id]? with
  | none =>
      have hm : r.builders.modify id (LineBuilder.wrote response) = r.builders :=
        List.modify_eq_self (List.getElem?_eq_none_iff.mp h)
      simp [lines, wrote, h, hm]
  | some b =>
      have hm : r.builders.modify id (LineBuilder.wrote response) =
          r.builders.set id (b.wrote response) := by
        apply List.ext_getElem?
        intro k
        by_cases hk : id = k
        · subst hk
          obtain ⟨hlt, rfl⟩ := List.getElem?_eq_some_iff.mp h
          simp [hlt]
        · simp [hk]
      simp [lines, wrote, h, hm, LineBuilder.render_eq]

/-- Two registries that differ in nothing but the variants their colored lines have compiled. -/
structure SameLines (r r' : Registry) : Prop where
  tokens : r'.tokens = r.tokens
  formats : r'.formats = r.formats
  lines : r'.lines = r.lines

namespace SameLines

variable {r r' r'' : Registry}

theorem rfl : r.SameLines r := ⟨.refl _, .refl _, .refl _⟩

theorem trans (h : r.SameLines r') (h' : r'.SameLines r'') : r.SameLines r'' :=
  ⟨h'.tokens.trans h.tokens, h'.formats.trans h.formats, h'.lines.trans h.lines⟩

theorem wrote (id : BuilderId) (response : ResponseView) : r.SameLines (r.wrote id response) :=
  ⟨.refl _, .refl _, r.lines_wrote id response⟩

theorem length_builders (h : r.SameLines r') : r'.builders.length = r.builders.length := by
  rw [← length_lines, h.lines, length_lines]

end SameLines

/-- The second registry comes from the first by writing lines. -/
def Writes : Registry → Registry → Prop :=
  Relation.ReflTransGen fun r r' => ∃ id response, r' = r.wrote id response

namespace Writes

variable {r r' : Registry}

theorem wrote (id : BuilderId) (response : ResponseView) : r.Writes (r.wrote id response) :=
  .single ⟨id, response, rfl⟩

theorem sameLines (h : r.Writes r') : r.SameLines r' := by
  induction h with
  | refl => exact .rfl
  | tail _ h ih =>
      obtain ⟨id, response, rfl⟩ := h
      exact ih.trans (.wrote id response)

theorem map_builders {β : Type} {f : LineBuilder → β} (h : r.Writes r')
    (hf : ∀ b response, f (b.wrote response) = f b) : r'.builders.map f = r.builders.map f := by
  induction h with
  | refl => rfl
  | tail _ h ih =>
      obtain ⟨id, response, rfl⟩ := h
      rw [Registry.map_builders_wrote f hf, ih]

end Writes

end Registry

namespace AccessLog

/-- What can be seen of a notice. -/
def effects (log : AccessLog) (r : Registry) : Notice → List Effect
  | .called _ => []
  | .headReady request status => [.event (.headReady request.method request.uri status)]
  | .emission request response => [.emission (log.emission r request response)]
  | .bodyFailed request => [.event (.bodyFailed request.method request.uri)]
  | .droppedEarly request => [.event (.droppedEarly request.method request.uri)]

/-- The registry after a log has taken a notice. -/
def noted (log : AccessLog) : Notice → Registry → Registry
  | .emission request response =>
      if log.skips request response then id else Registry.wrote log.builder response
  | _ => id

def notedAll (log : AccessLog) : List Notice → Registry → Registry
  | [] => id
  | n :: rest => log.notedAll rest ∘ log.noted n

theorem notify_eq (log : AccessLog) (r : Registry) (n : Notice) :
    log.notify r n = (log.effects r n, log.noted n r) := by
  cases n with
  | called | headReady | bodyFailed | droppedEarly => rfl
  | emission request response =>
      have hr : (log.emit r request response).2 = log.noted (.emission request response) r := by
        by_cases h : log.skips request response = true
        · simp [emit, noted, h]
        · simp [emit, noted, h, Registry.render_eq]
      simp only [notify, emit_fst, hr, effects]

theorem writes_noted (log : AccessLog) (n : Notice) (r : Registry) :
    r.Writes (log.noted n r) := by
  cases n with
  | called | headReady | bodyFailed | droppedEarly => exact .refl
  | emission request response =>
      by_cases h : log.skips request response = true
      · simp only [noted, h, if_true]
        exact .refl
      · simp only [noted, h]
        exact .wrote log.builder response

theorem writes_notedAll (log : AccessLog) (ns : List Notice) (r : Registry) :
    r.Writes (log.notedAll ns r) := by
  induction ns generalizing r with
  | nil => exact .refl
  | cons n ns ih => exact (log.writes_noted n r).trans (ih _)

/-- What is seen of a notice depends on the tokens and on the functions of the line builders. -/
theorem effects_congr (log : AccessLog) {r r' : Registry} (h : r.SameLines r') :
    log.effects r' = log.effects r := by
  funext n
  cases n with
  | called | headReady | bodyFailed | droppedEarly => rfl
  | emission request response =>
      simp only [effects, emission, Registry.render_eq, h.lines, h.tokens]

theorem notifyAll_eq (log : AccessLog) (r : Registry) (ns : List Notice) :
    log.notifyAll r ns = (ns.flatMap (log.effects r), log.notedAll ns r) := by
  induction ns generalizing r with
  | nil => rfl
  | cons n ns ih =>
      simp only [notifyAll, notify_eq, ih, log.effects_congr (log.writes_noted n r).sameLines]
      rfl

theorem noted_comm (log log' : AccessLog) (n m : Notice) :
    Function.Commute (log.noted n) (log'.noted m) := by
  cases n with
  | called | headReady | bodyFailed | droppedEarly => exact .id_left
  | emission request response =>
      cases m with
      | called | headReady | bodyFailed | droppedEarly => exact .id_right
      | emission request' response' =>
          simp only [noted]
          split
          · exact .id_left
          · split
            · exact .id_right
            · exact Registry.wrote_comm _ _ _ _

/-- Whatever two logs write, the registry is the same in both orders. -/
theorem notedAll_comm (log log' : AccessLog) (ns ms : List Notice) :
    Function.Commute (log.notedAll ns) (log'.notedAll ms) := by
  have hone : ∀ n, Function.Commute (log.noted n) (log'.notedAll ms) := by
    intro n
    induction ms with
    | nil => exact .id_right
    | cons m ms ih => exact ih.comp_right (log.noted_comm log' n m)
  induction ns with
  | nil => exact .id_left
  | cons n ns ih => exact ih.comp_left (hone n)

end AccessLog

end AccessLine
