import AccessLine.Proofs.Registry.Lines
import AccessLine.Session.Basic

/-!
# What a session does to its registry

A step of a session registers a token, defines a format or asks for the line builder of a text.
Whatever else it does to the registry is to write lines. Line builders are only ever added, so each
keeps its place and its lines.
-/
namespace AccessLine

/-- What a step can ask of a registry. -/
inductive RegistryAct
  | token (name : String) (token : Evaluator)
  | format (name : String) (definition : Definition)
  | ask (text : String)

namespace RegistryAct

/-- The name that an act defines a format under. The empty name is refused. -/
def defined? : RegistryAct → Option String
  | .format name _ => if name = "" then none else some name
  | _ => none

/-- The token that an act registers, with its name. The empty name is refused. -/
def registered? : RegistryAct → Option (String × Evaluator)
  | .token name t => if name = "" then none else some (name, t)
  | _ => none

/-- The only name under which an act can change the format. -/
def subject? : RegistryAct → Option String
  | .token _ _ => none
  | .format name _ => some name
  | .ask text => some text

end RegistryAct

namespace SessionStep

/-- What a step asks of the registry, apart from lines. -/
def act? : SessionStep → Option RegistryAct
  | .token name t => some (.token name t)
  | .format name d => some (.format name d)
  | .resolve text | .renderFormat text _ _ => some (.ask text)
  | .log _ settings => some (.ask settings.format)
  | _ => none

/-- The name that a step defines a format under. -/
def defined? (step : SessionStep) : Option String :=
  step.act?.bind RegistryAct.defined?

end SessionStep

namespace Registry

/-- The registry after an operation. One that fails changes nothing. -/
def kept {α : Type} (r : Registry) (result : Except FormatError (Registered α)) : Registry :=
  match result with
  | .ok found => found.registry
  | .error _ => r

def act (r : Registry) : RegistryAct → Registry
  | .token name t => r.kept (r.token name t)
  | .format name d => r.kept (r.format name d)
  | .ask text => r.kept (r.resolve text)

def actOf (r : Registry) (step : SessionStep) : Registry :=
  step.act?.elim r r.act

/-- How a line builder can be obtained for a text. The line builder of a defined format is kept; the
one of any other text is made anew. -/
inductive Obtains (r : Registry) (text : String) : Registered BuilderId → Prop
  | kept {id : BuilderId} (entry : r.formats.get? text = some (.builder id)) :
      Obtains r text { value := id, registry := r }
  | compiled {src : String} (entry : r.formats.get? text = some (.template src))
      (known : Template.compile src r.tokens = .ok (.parse src)) :
      Obtains r text
        { value := r.builders.length
          registry :=
            { r with
              builders := r.builders ++ [.compiled (.parse src)]
              formats := r.formats.insert text (.builder r.builders.length) }
          events := [.formatCompiled text] }
  | literal (entry : r.formats.get? text = none)
      (known : Template.compile text r.tokens = .ok (.parse text)) :
      Obtains r text
        { value := r.builders.length
          registry := { r with builders := r.builders ++ [.compiled (.parse text)] } }

theorem obtains_of_resolve {r : Registry} {text : String} {found : Registered BuilderId}
    (h : r.resolve text = .ok found) : r.Obtains text found := by
  unfold resolve at h
  split at h
  · rename_i id entry
    obtain rfl := Except.ok.inj h
    exact .kept entry
  · rename_i src entry
    cases hc : Template.compile src r.tokens with
    | error e => simp [hc, Except.map] at h
    | ok t =>
        obtain rfl := (Template.compile_eq_ok_iff.mp hc).1
        simp only [hc, Except.map, make, Except.ok.injEq] at h
        exact h ▸ .compiled entry hc
  · rename_i entry
    cases hc : Template.compile text r.tokens with
    | error e => simp [hc, Except.map] at h
    | ok t =>
        obtain rfl := (Template.compile_eq_ok_iff.mp hc).1
        simp only [hc, Except.map, make, Except.ok.injEq] at h
        exact h ▸ .literal entry hc

theorem Obtains.resolve_eq {r : Registry} {text : String} {found : Registered BuilderId}
    (h : r.Obtains text found) : r.resolve text = .ok found := by
  cases h with
  | kept entry => simp only [resolve, entry]
  | compiled entry known | literal entry known =>
      simp only [resolve, entry, known, Except.map, make]

theorem compile_eq_error_of_resolve {r : Registry} {text : String} {e : FormatError}
    (h : r.resolve text = .error e) :
    ∃ src, (r.formats.get? text = some (.template src) ∨ r.formats.get? text = none ∧ src = text) ∧
      Template.compile src r.tokens = .error e := by
  have herr {α : Type} {x : Except FormatError Template} {f : Template → α}
      (hx : x.map f = .error e) : x = .error e := by
    cases x with
    | error e' => exact congrArg Except.error (Except.error.inj hx)
    | ok t => cases hx
  unfold resolve at h
  split at h
  · contradiction
  · rename_i src entry
    exact ⟨src, .inl entry, herr h⟩
  · rename_i entry
    exact ⟨text, .inr ⟨entry, rfl⟩, herr h⟩

/-- What defining a format puts under its name, and the line builders there are then. -/
theorem place_eq (r : Registry) (name : String) (d : Definition) :
    ∃ f bs, r.place name d =
        { r with formats := r.formats.insert name f, builders := r.builders ++ bs } ∧
      ((∃ src, d = .template src ∧ f = .template src ∧ bs = []) ∨
        ∃ b, f = .builder r.builders.length ∧ bs = [b] ∧
          (d = .dev ∧ b = .dev {} ∨ ∃ line, d = .custom line ∧ b = .custom line)) := by
  cases d with
  | template src =>
      exact ⟨.template src, [], by simp [place], .inl ⟨src, rfl, rfl, rfl⟩⟩
  | dev => exact ⟨_, _, rfl, .inr ⟨_, rfl, rfl, .inl ⟨rfl, rfl⟩⟩⟩
  | custom line => exact ⟨_, _, rfl, .inr ⟨_, rfl, rfl, .inr ⟨line, rfl, rfl⟩⟩⟩

/-- What an act can make of a registry. One that is refused, and one that finds a line builder,
leave it as it is. -/
inductive Makes (r : Registry) : RegistryAct → Registry → Prop
  | same {a : RegistryAct} (defined : a.defined? = none) (registered : a.registered? = none) :
      Makes r a r
  | token {name : String} {t : Evaluator} (named : name ≠ "") :
      Makes r (.token name t) { r with tokens := r.tokens.insert name t }
  | template {name src : String} (named : name ≠ "") :
      Makes r (.format name (.template src))
        { r with formats := r.formats.insert name (.template src) }
  | ready {name : String} {d : Definition} {b : LineBuilder} (named : name ≠ "")
      (made : d = .dev ∧ b = .dev {} ∨ ∃ line, d = .custom line ∧ b = .custom line) :
      Makes r (.format name d)
        { r with
          builders := r.builders ++ [b]
          formats := r.formats.insert name (.builder r.builders.length) }
  | compiled {text src : String} (entry : r.formats.get? text = some (.template src))
      (known : Template.compile src r.tokens = .ok (.parse src)) :
      Makes r (.ask text)
        { r with
          builders := r.builders ++ [.compiled (.parse src)]
          formats := r.formats.insert text (.builder r.builders.length) }
  | literal {text : String} (entry : r.formats.get? text = none)
      (known : Template.compile text r.tokens = .ok (.parse text)) :
      Makes r (.ask text) { r with builders := r.builders ++ [.compiled (.parse text)] }

theorem makes_act (r : Registry) (a : RegistryAct) : r.Makes a (r.act a) := by
  cases a with
  | token name t =>
      by_cases hn : name = ""
      · simp only [act, Registry.token, Registry.kept, hn, if_true]
        exact .same rfl rfl
      · simp only [act, Registry.token, Registry.kept, hn, if_false]
        exact .token hn
  | format name d =>
      by_cases hn : name = ""
      · simp only [act, Registry.format, kept, hn, if_true]
        exact .same rfl rfl
      · simp only [act, Registry.format, kept, hn, if_false]
        cases d with
        | template src => exact .template hn
        | dev => exact .ready hn (.inl ⟨rfl, rfl⟩)
        | custom line => exact .ready hn (.inr ⟨line, rfl, rfl⟩)
  | ask text =>
      cases hr : r.resolve text with
      | error e =>
          simp only [act, kept, hr]
          exact .same rfl rfl
      | ok found =>
          simp only [act, kept, hr]
          cases obtains_of_resolve hr with
          | kept => exact .same rfl rfl
          | compiled entry known => exact .compiled entry known
          | literal entry known => exact .literal entry known

/-- Line builders are only ever added. -/
theorem builders_act (r : Registry) (a : RegistryAct) : r.builders <+: (r.act a).builders := by
  have h := r.makes_act a
  generalize r.act a = r' at h ⊢
  cases h with
  | same | token | template => exact List.prefix_rfl
  | ready | compiled | literal => exact List.prefix_append _ _

theorem tokens_act (r : Registry) (a : RegistryAct) :
    (r.act a).tokens = a.registered?.elim r.tokens fun e => r.tokens.insert e.1 e.2 := by
  have h := r.makes_act a
  generalize r.act a = r' at h ⊢
  cases h with
  | same defined registered => rw [registered, Option.elim_none]
  | token named => simp [RegistryAct.registered?, named]
  | template | ready | compiled | literal => rfl

theorem length_builders_le_act (r : Registry) (a : RegistryAct) :
    r.builders.length ≤ (r.act a).builders.length :=
  (r.builders_act a).length_le

end Registry

namespace Session

theorem writes_register {α : Type} (s : Session) (result : Except FormatError (Registered α))
    (f : Session → α → SessionAnswer × Session)
    (hf : ∀ (t : Session) a, t.registry.Writes (f t a).2.registry) :
    (s.registry.kept result).Writes (s.register result f).session.registry := by
  cases result with
  | error e => exact .refl
  | ok found => exact hf { s with registry := found.registry } found.value

theorem writes_renderWith (s : Session) (id : BuilderId) (request : RequestView)
    (response : ResponseView) :
    s.registry.Writes (s.renderWith id request response).2.registry := by
  simp only [renderWith, Registry.render_eq]
  exact .wrote id response

theorem kept_build (r : Registry) (settings : LogSettings) (serial : Nat) :
    r.kept (AccessLog.build settings serial r) = r.kept (r.resolve settings.format) := by
  unfold AccessLog.build
  cases r.resolve settings.format <;> rfl

/-- A step does to the registry what it asks of it, and writes lines. -/
theorem writes_step (s : Session) (now : Timestamp) (step : SessionStep) :
    (s.registry.actOf step).Writes (s.step now step).session.registry := by
  cases step with
  | token | format | resolve =>
      exact s.writes_register _ _ fun t a => .refl
  | hasFormat | hasToken => exact .refl
  | renderBuilder n request response =>
      simp only [Session.step]
      cases s.shown[n]? with
      | none => exact .refl
      | some id => exact s.writes_renderWith id request response
  | renderFormat text request response =>
      exact s.writes_register _ _ fun t id => t.writes_renderWith id request response
  | log name settings =>
      have h := s.writes_register (AccessLog.build settings s.built s.registry)
        (fun s log => showBuilder
          { s with logs := s.logs.insert name log, built := s.built + 1 } log.builder)
        fun t a => .refl
      rwa [kept_build] at h
  | clone name source =>
      simp only [Session.step]
      cases s.logs.get? source <;> exact .refl
  | start name log request handler =>
      simp only [Session.step]
      cases s.logs.get? log with
      | none => exact .refl
      | some log =>
          simp only [startFlight, dropNamed]
          cases s.flights.get? name with
          | none => exact .refl
          | some flight =>
              simp only [AccessLog.notifyAll_eq]
              exact flight.log.writes_notedAll _ _
  | host name h =>
      simp only [Session.step]
      cases s.flights.get? name with
      | none => exact .refl
      | some flight =>
          simp only [stepHost, AccessLog.notifyAll_eq]
          exact flight.log.writes_notedAll _ _

theorem tokens_step (s : Session) (now : Timestamp) (step : SessionStep) :
    (s.step now step).session.registry.tokens =
      (step.act?.bind RegistryAct.registered?).elim s.registry.tokens
        fun e => s.registry.tokens.insert e.1 e.2 := by
  rw [(s.writes_step now step).sameLines.tokens, Registry.actOf]
  cases step.act? with
  | none => rfl
  | some a => exact s.registry.tokens_act a

@[simp] theorem run_nil (s : Session) : s.run [] = ([], s) := rfl

theorem run_cons (s : Session) (now : Timestamp) (step : SessionStep)
    (rest : List (Timestamp × SessionStep)) :
    s.run ((now, step) :: rest) =
      (s.step now step :: ((s.step now step).session.run rest).1,
        ((s.step now step).session.run rest).2) := rfl

theorem run_append (s : Session) (steps later : List (Timestamp × SessionStep)) :
    s.run (steps ++ later) =
      ((s.run steps).1 ++ ((s.run steps).2.run later).1, ((s.run steps).2.run later).2) := by
  induction steps generalizing s with
  | nil => simp
  | cons x steps ih =>
      obtain ⟨now, step⟩ := x
      simp only [List.cons_append, run_cons, ih]

/-- What acts and lines keep of a registry, a session keeps. -/
theorem invariant_run {P : Registry → Prop} (hact : ∀ r a, P r → P (r.act a))
    (hlines : ∀ r r' : Registry, r.Writes r' → P r → P r')
    (steps : List (Timestamp × SessionStep)) {s : Session} (hs : P s.registry) :
    P (s.run steps).2.registry := by
  induction steps generalizing s with
  | nil => exact hs
  | cons x steps ih =>
      obtain ⟨now, step⟩ := x
      have hstep : P (s.registry.actOf step) := by
        unfold Registry.actOf
        cases step.act? with
        | none => exact hs
        | some a => exact hact _ a hs
      exact ih (hlines _ _ (s.writes_step now step) hstep)

/-- A line builder keeps its place, and all of it that lines do not change. -/
theorem map_builders_run {β : Type} {f : LineBuilder → β}
    (hf : ∀ b response, f (b.wrote response) = f b) (steps : List (Timestamp × SessionStep))
    (s : Session) : s.registry.builders.map f <+: (s.run steps).2.registry.builders.map f :=
  invariant_run (P := fun r => s.registry.builders.map f <+: r.builders.map f)
    (fun r a hr => hr.trans ((r.builders_act a).map f)) (fun _ _ h hr => h.map_builders hf ▸ hr)
    steps List.prefix_rfl

theorem lines_run (steps : List (Timestamp × SessionStep)) (s : Session) :
    s.registry.lines <+: (s.run steps).2.registry.lines :=
  map_builders_run LineBuilder.line_wrote steps s

theorem getElem?_lines_run (steps : List (Timestamp × SessionStep)) {s : Session}
    {id : BuilderId} {line : LineFunction} (h : s.registry.lines[id]? = some line) :
    (s.run steps).2.registry.lines[id]? = some line := by
  obtain ⟨hlt, rfl⟩ := List.getElem?_eq_some_iff.mp h
  exact List.prefix_iff_getElem?.mp (lines_run steps s) id hlt

end Session

end AccessLine
