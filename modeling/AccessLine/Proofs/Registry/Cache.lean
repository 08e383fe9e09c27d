import AccessLine.Proofs.Registry.Acts
import AccessLine.Registry.Plain

/-!
# The registry against one without memory

A registry that compiles a template once and keeps the result cannot be told from one that compiles
it anew each time. What is kept was compiled from the defined source, and the names of the
registered tokens never become fewer, so compiling it again would neither fail nor give anything
else.
-/
namespace AccessLine

theorem Template.compile_mono {src : String} {tokens tokens' : TokenTable} {t : Template}
    (ht : ∀ name, tokens.contains name = true → tokens'.contains name = true)
    (h : compile src tokens = .ok t) : compile src tokens' = .ok t := by
  obtain ⟨hp, hk⟩ := compile_eq_ok_iff.mp h
  exact compile_eq_ok_iff.mpr ⟨hp, fun name hn => ht name (hk name hn)⟩

/-- Compiling fails on the leftmost name that no token is registered under. -/
theorem Template.compile_eq_error_iff {src : String} {tokens : TokenTable} {e : FormatError} :
    compile src tokens = .error e ↔
      ∃ name before after, e = .unknownToken name src ∧
        (parse src).tokenNames = before ++ name :: after ∧
        (∀ known ∈ before, tokens.contains known = true) ∧ tokens.contains name = false := by
  rw [compile_eq_error_iff_firstUnknown?]
  constructor
  · rintro ⟨name, hf, rfl⟩
    obtain ⟨hn, before, after, hb, hk⟩ := List.find?_eq_some_iff_append.mp hf
    exact ⟨name, before, after, rfl, hb, by simpa using hk, by simpa using hn⟩
  · rintro ⟨name, before, after, rfl, hb, hk, hn⟩
    refine ⟨name, List.find?_eq_some_iff_append.mpr ⟨?_, before, after, hb, ?_⟩, rfl⟩
    · simpa using hn
    · simpa using hk

namespace PlainRegistry

/-- The plain registry after an operation. Asking for a line builder leaves nothing behind. -/
def act (p : PlainRegistry) : RegistryAct → PlainRegistry
  | .token name t => (p.token name t).toOption.getD p
  | .format name d => (p.format name d).toOption.getD p
  | .ask _ => p

def actOf (p : PlainRegistry) (step : SessionStep) : PlainRegistry :=
  step.act?.elim p p.act

/-- The plain registry after the steps of a session. -/
def after (p : PlainRegistry) (steps : List (Timestamp × SessionStep)) : PlainRegistry :=
  steps.foldl (fun p x => p.actOf x.2) p

/-- What defines a text: the format of this name, or else the text itself. -/
def definition (p : PlainRegistry) (text : String) : Definition :=
  (p.formats.get? text).getD (.template text)

theorem lineOf_mono {p q : PlainRegistry}
    (ht : ∀ name, p.tokens.contains name = true → q.tokens.contains name = true) {d : Definition}
    {line : LineFunction} (h : p.lineOf d = .ok line) : q.lineOf d = .ok line := by
  cases d with
  | template src =>
      simp only [lineOf] at h ⊢
      cases hc : Template.compile src p.tokens with
      | error e => simp [hc, Except.map] at h
      | ok t =>
          rw [Template.compile_mono ht hc]
          rwa [hc] at h
  | dev | custom => exact h

theorem contains_act (p : PlainRegistry) (a : RegistryAct) (name : String)
    (h : p.tokens.contains name = true) : (p.act a).tokens.contains name = true := by
  cases a with
  | token n t =>
      by_cases hn : n = ""
      · simpa [act, token, hn, Except.toOption] using h
      · simp [act, token, hn, Except.toOption, Table.contains_insert, h]
  | format n d => by_cases hn : n = "" <;> simpa [act, format, hn, Except.toOption] using h
  | ask text => exact h

theorem contains_after (steps : List (Timestamp × SessionStep)) (p : PlainRegistry) (name : String)
    (h : p.tokens.contains name = true) : (p.after steps).tokens.contains name = true := by
  induction steps generalizing p with
  | nil => exact h
  | cons x steps ih =>
      have hx : (p.actOf x.2).tokens.contains name = true := by
        unfold actOf
        cases x.2.act? with
        | none => exact h
        | some a => exact p.contains_act a name h
      exact ih _ hx

theorem definition_act (p : PlainRegistry) {a : RegistryAct} {text : String}
    (h : a.defined? ≠ some text) : (p.act a).definition text = p.definition text := by
  cases a with
  | token name t => by_cases hn : name = "" <;> simp [act, token, hn, Except.toOption, definition]
  | format name d =>
      by_cases hn : name = ""
      · simp [act, format, hn, Except.toOption]
      · have ht : text ≠ name := fun e => h (by simp [RegistryAct.defined?, hn, e])
        simp [act, format, hn, Except.toOption, definition, Table.get?_insert_of_ne ht]
  | ask => rfl

theorem definition_after (steps : List (Timestamp × SessionStep)) (p : PlainRegistry)
    {text : String} (h : ∀ x ∈ steps, x.2.defined? ≠ some text) :
    (p.after steps).definition text = p.definition text := by
  induction steps generalizing p with
  | nil => rfl
  | cons x steps ih =>
      have hx := h x (by simp)
      have hd : (p.actOf x.2).definition text = p.definition text := by
        unfold SessionStep.defined? at hx
        unfold actOf
        cases ha : x.2.act? with
        | none => rfl
        | some a => exact p.definition_act (by simpa [ha] using hx)
      exact (ih _ fun y hy => h y (by simp [hy])).trans hd

/-- A text that has a line keeps it until it is defined anew. -/
theorem resolve_after (steps : List (Timestamp × SessionStep)) {p : PlainRegistry} {text : String}
    {line : LineFunction} (hp : p.resolve text = .ok line)
    (h : ∀ x ∈ steps, x.2.defined? ≠ some text) : (p.after steps).resolve text = .ok line := by
  have hl : (p.after steps).lineOf (p.definition text) = .ok line :=
    lineOf_mono (p := p) (fun name hn => p.contains_after steps name hn) hp
  rw [← p.definition_after steps h] at hl
  exact hl

theorem resolve_eq_error_iff {p : PlainRegistry} {text : String} {e : FormatError} :
    p.resolve text = .error e ↔
      ∃ src name before after, p.definition text = .template src ∧
        e = .unknownToken name src ∧ (Template.parse src).tokenNames = before ++ name :: after ∧
        (∀ known ∈ before, p.tokens.contains known = true) ∧ p.tokens.contains name = false := by
  change p.lineOf (p.definition text) = .error e ↔ _
  cases p.definition text with
  | dev => simp [lineOf]
  | custom line => simp [lineOf]
  | template src =>
      have hm : p.lineOf (.template src) = .error e ↔ Template.compile src p.tokens = .error e := by
        cases hc : Template.compile src p.tokens <;> simp [lineOf, hc, Except.map]
      rw [hm, Template.compile_eq_error_iff]
      simp

end PlainRegistry

/-- How a format stands for a definition. A line builder stands for it if it writes the lines that
the definition would give by now. -/
inductive Format.Stands (lines : List LineFunction) (p : PlainRegistry) :
    Option Format → Option Definition → Prop
  | absent : Stands lines p none none
  | source {src : String} : Stands lines p (some (.template src)) (some (.template src))
  | built {id : BuilderId} {d : Definition} {line : LineFunction} (defined : p.lineOf d = .ok line)
      (kept : lines[id]? = some line) : Stands lines p (some (.builder id)) (some d)

theorem Format.Stands.mono {lines lines' : List LineFunction} {p q : PlainRegistry}
    {f : Option Format} {d : Option Definition} (h : Stands lines p f d) (hl : lines <+: lines')
    (ht : ∀ name, p.tokens.contains name = true → q.tokens.contains name = true) :
    Stands lines' q f d := by
  cases h with
  | absent => exact .absent
  | source => exact .source
  | built defined kept =>
      obtain ⟨hid, rfl⟩ := List.getElem?_eq_some_iff.mp kept
      exact .built (PlainRegistry.lineOf_mono ht defined) (List.prefix_iff_getElem?.mp hl _ hid)

/-- A colored line that has compiled nothing yet writes what one without memory does. -/
theorem LineBuilder.line_dev_empty : (LineBuilder.dev {}).line = PlainRegistry.devLine := by
  funext tokens request response
  simp [line, render, Dev.render, Dev.variant_eq, PlainRegistry.devLine]

namespace Registry

/-- The registry keeps no line builder but those that its definitions give. -/
structure Caches (r : Registry) (p : PlainRegistry) : Prop where
  tokens : r.tokens = p.tokens
  formats : ∀ name, Format.Stands r.lines p (r.formats.get? name) (p.formats.get? name)

namespace Caches

variable {r r' : Registry} {p : PlainRegistry}

theorem sameLines (h : r.Caches p) (hs : r.SameLines r') : r'.Caches p where
  tokens := hs.tokens.trans h.tokens
  formats name := by
    rw [hs.lines, hs.formats]
    exact h.formats name

theorem place (h : r.Caches p) (name : String) (d : Definition) :
    (r.place name d).Caches { p with formats := p.formats.insert name d } := by
  obtain ⟨f, bs, hp, hf⟩ := r.place_eq name d
  rw [hp]
  refine ⟨h.tokens, fun n => ?_⟩
  by_cases hn : n = name
  · subst hn
    simp only [Table.get?_insert_self]
    obtain ⟨src, rfl, rfl, -⟩ | ⟨b, rfl, rfl, hd⟩ := hf
    · exact .source
    · have hb : (r.builders ++ [b]).map LineBuilder.line = r.lines ++ [b.line] := by simp [lines]
      have hk : (r.lines ++ [b.line])[r.builders.length]? = some b.line := by
        rw [← length_lines, List.getElem?_concat_length]
      have hl : { p with formats := p.formats.insert n d }.lineOf d = .ok b.line := by
        obtain ⟨rfl, rfl⟩ | ⟨line, rfl, rfl⟩ := hd
        · exact congrArg Except.ok LineBuilder.line_dev_empty.symm
        · rfl
      exact .built hl (by rw [lines, hb, hk])
  · simp only [Table.get?_insert_of_ne hn]
    exact (h.formats n).mono (by simp [lines]) fun _ => id

/-- What is obtained for a text is what its definition gives, and so are the line builders that are
kept afterwards. -/
theorem obtains (h : r.Caches p) {text : String} {found : Registered BuilderId}
    (ho : r.Obtains text found) :
    found.registry.Caches p ∧
      ∃ line, p.resolve text = .ok line ∧ found.registry.lines[found.value]? = some line := by
  have hs := h.formats text
  have hnew (t : Template) : (r.lines ++ [t.render])[r.builders.length]? = some t.render := by
    rw [← length_lines, List.getElem?_concat_length]
  have hlines (t : Template) :
      (r.builders ++ [LineBuilder.compiled t]).map LineBuilder.line = r.lines ++ [t.render] := by
    simp only [lines, List.map_append]
    rfl
  cases ho with
  | kept entry =>
      rw [entry] at hs
      generalize hd : p.formats.get? text = d at hs
      cases hs with
      | built defined kept =>
          refine ⟨h, _, ?_, kept⟩
          simpa [PlainRegistry.resolve, hd] using defined
  | compiled entry known =>
      rename_i src
      rw [entry] at hs
      generalize hd : p.formats.get? text = d at hs
      cases hs with
      | source =>
          have hp : p.lineOf (.template src) = .ok (Template.parse src).render := by
            simp [PlainRegistry.lineOf, ← h.tokens, known, Except.map]
          refine ⟨⟨h.tokens, fun n => ?_⟩, (Template.parse src).render, ?_, ?_⟩
          · by_cases hn : n = text
            · subst hn
              rw [Table.get?_insert_self, hd]
              exact .built hp (by rw [lines, hlines, hnew])
            · rw [Table.get?_insert_of_ne hn]
              exact (h.formats n).mono (by simp [lines]) fun _ => id
          · simpa [PlainRegistry.resolve, hd] using hp
          · rw [lines, hlines, hnew]
  | literal entry known =>
      rw [entry] at hs
      generalize hd : p.formats.get? text = d at hs
      cases hs with
      | absent =>
          refine ⟨⟨h.tokens, fun n => (h.formats n).mono (by simp [lines]) fun _ => id⟩,
            (Template.parse text).render, ?_, ?_⟩
          · simp [PlainRegistry.resolve, hd, PlainRegistry.lineOf, ← h.tokens, known, Except.map]
          · rw [lines, hlines, hnew]

theorem resolve_error (h : r.Caches p) {text : String} {e : FormatError}
    (he : r.resolve text = .error e) : p.resolve text = .error e := by
  obtain ⟨src, entry, hc⟩ := compile_eq_error_of_resolve he
  have hp : p.lineOf (.template src) = .error e := by
    rw [PlainRegistry.lineOf, ← h.tokens, hc]
    rfl
  have hs := h.formats text
  generalize hd : p.formats.get? text = d at hs
  obtain entry | ⟨entry, rfl⟩ := entry
  · rw [entry] at hs
    cases hs with
    | source => simpa [PlainRegistry.resolve, hd] using hp
  · rw [entry] at hs
    cases hs with
    | absent => simpa [PlainRegistry.resolve, hd] using hp

theorem resolve (h : r.Caches p) (text : String) :
    (r.resolve text).map (fun found => found.registry.lines[found.value]?) =
      (p.resolve text).map some := by
  cases hr : r.resolve text with
  | error e => rw [h.resolve_error hr]; rfl
  | ok found =>
      obtain ⟨-, line, hp, hl⟩ := h.obtains (obtains_of_resolve hr)
      simp [hp, hl, Except.map]

theorem resolve_ok (h : r.Caches p) {text : String} {line : LineFunction}
    (hp : p.resolve text = .ok line) :
    ∃ found, r.resolve text = .ok found ∧ found.registry.lines[found.value]? = some line := by
  have hr := h.resolve text
  rw [hp] at hr
  cases hf : r.resolve text with
  | error e => simp [hf, Except.map] at hr
  | ok found => exact ⟨found, rfl, by simpa [hf, Except.map] using hr⟩

theorem resolve_eq_error_iff (h : r.Caches p) {text : String} {e : FormatError} :
    r.resolve text = .error e ↔ p.resolve text = .error e := by
  constructor
  · exact h.resolve_error
  · intro hp
    have hr := h.resolve text
    rw [hp] at hr
    cases hf : r.resolve text with
    | ok found => simp [hf, Except.map] at hr
    | error e' => simpa [hf, Except.map] using hr

theorem act (h : r.Caches p) (a : RegistryAct) : (r.act a).Caches (p.act a) := by
  cases a with
  | token name t =>
      by_cases hn : name = ""
      · simpa [Registry.act, PlainRegistry.act, Registry.token, PlainRegistry.token, kept, hn,
          Except.toOption] using h
      · have ht : r.tokens.insert name t = p.tokens.insert name t := by rw [h.tokens]
        simp only [Registry.act, PlainRegistry.act, Registry.token, PlainRegistry.token, kept, hn,
          Except.toOption, if_false, Option.getD_some]
        refine ⟨ht, fun n => (h.formats n).mono List.prefix_rfl fun m hm => ?_⟩
        simp [Table.contains_insert, hm]
  | format name d =>
      by_cases hn : name = ""
      · simpa [Registry.act, PlainRegistry.act, Registry.format, PlainRegistry.format, kept, hn,
          Except.toOption] using h
      · simpa [Registry.act, PlainRegistry.act, Registry.format, PlainRegistry.format, kept, hn,
          Except.toOption] using h.place name d
  | ask text =>
      cases hr : r.resolve text with
      | error e => simpa [Registry.act, PlainRegistry.act, kept, hr] using h
      | ok found =>
          have hc := (h.obtains (obtains_of_resolve hr)).1
          simpa [Registry.act, PlainRegistry.act, kept, hr] using hc

theorem standard : Registry.standard.Caches .standard := by
  have hfold (l : List (String × Definition)) : ∀ (r : Registry) (p : PlainRegistry), r.Caches p →
      (l.foldl (fun r e => r.place e.1 e.2) r).Caches
        { p with formats := l.foldl (fun t e => t.insert e.1 e.2) p.formats } := by
    induction l with
    | nil => intro r p h; exact h
    | cons e l ih => intro r p h; exact ih _ _ (h.place e.1 e.2)
  exact hfold standardFormats { tokens := .standard } { tokens := .standard }
    ⟨rfl, fun name => .absent⟩

end Caches

end Registry

namespace Session

/-- A session's registry keeps up with a plain one that goes through the same steps. -/
theorem caches_run (steps : List (Timestamp × SessionStep)) {s : Session} {p : PlainRegistry}
    (h : s.registry.Caches p) : (s.run steps).2.registry.Caches (p.after steps) := by
  induction steps generalizing s p with
  | nil => exact h
  | cons x steps ih =>
      obtain ⟨now, step⟩ := x
      refine ih (p := p.actOf step) ?_
      have ha : (s.registry.actOf step).Caches (p.actOf step) := by
        unfold Registry.actOf PlainRegistry.actOf
        cases step.act? with
        | none => exact h
        | some a => exact h.act a
      exact ha.sameLines (s.writes_step now step).sameLines

/-- Every standard format has a line. -/
theorem standard_resolves {name : String} (h : name ∈ Registry.standardFormats.map (·.1)) :
    ∃ line, PlainRegistry.standard.resolve name = .ok line := by
  have hall : (Registry.standardFormats.map (·.1)).all
      (fun n => (PlainRegistry.standard.resolve n).toOption.isSome) = true := by decide +kernel
  have hn := List.all_eq_true.mp hall name h
  cases hr : PlainRegistry.standard.resolve name with
  | error e => simp [hr, Except.toOption] at hn
  | ok line => exact ⟨line, rfl⟩

/-- Keeping compiled formats is invisible. After any steps every operation succeeds or fails alike
with and without them, fails with the same error, and gives a line builder that writes the same
lines. An error names the leftmost unknown token of the source that was to be compiled, and this
source. A text that has given a line builder goes on to give one with the same lines until a format
is defined under it, and so does every standard format from the start. -/
theorem resolve_eq_plain (steps : List (Timestamp × SessionStep)) :
    let r := (Session.run {} steps).2.registry
    let p := PlainRegistry.standard.after steps
    (∀ name t, (r.token name t).map (fun _ => ()) = (p.token name t).map fun _ => ()) ∧
      (∀ name d, (r.format name d).map (fun _ => ()) = (p.format name d).map fun _ => ()) ∧
      (∀ text, (r.resolve text).map (fun found => found.registry.lines[found.value]?) =
        (p.resolve text).map some) ∧
      (∀ settings serial,
        (AccessLog.build settings serial r).map
            (fun built => built.registry.lines[built.value.builder]?) =
          (p.resolve settings.format).map some) ∧
      (∀ text e, r.resolve text = .error e ↔
        ∃ src name before after, p.definition text = .template src ∧
          e = .unknownToken name src ∧ (Template.parse src).tokenNames = before ++ name :: after ∧
          (∀ known ∈ before, r.hasToken known = true) ∧ r.hasToken name = false) ∧
      (∀ text found later, r.resolve text = .ok found →
        (∀ x ∈ later, x.2.defined? ≠ some text) →
        ∃ found', (Session.run {} (steps ++ later)).2.registry.resolve text = .ok found' ∧
          found'.registry.lines[found'.value]? = found.registry.lines[found.value]?) ∧
      ∀ name ∈ Registry.standardFormats.map (·.1), (∀ x ∈ steps, x.2.defined? ≠ some name) →
        ∃ found, r.resolve name = .ok found := by
  intro r p
  have hc (l : List (Timestamp × SessionStep)) :
      (Session.run {} l).2.registry.Caches (PlainRegistry.standard.after l) :=
    caches_run l Registry.Caches.standard
  have h : r.Caches p := hc steps
  refine ⟨?_, ?_, h.resolve, ?_, ?_, ?_, ?_⟩
  · intro name t
    by_cases hn : name = "" <;> simp [Registry.token, PlainRegistry.token, hn, Except.map]
  · intro name d
    by_cases hn : name = "" <;> simp [Registry.format, PlainRegistry.format, hn, Except.map]
  · intro settings serial
    rw [← h.resolve settings.format]
    unfold AccessLog.build
    cases r.resolve settings.format <;> rfl
  · intro text e
    rw [h.resolve_eq_error_iff, PlainRegistry.resolve_eq_error_iff, ← h.tokens]
    rfl
  · intro text found later hf hl
    obtain ⟨-, line, hp, hline⟩ := h.obtains (Registry.obtains_of_resolve hf)
    have hp' : (PlainRegistry.standard.after (steps ++ later)).resolve text = .ok line := by
      have ha := PlainRegistry.resolve_after later hp hl
      rwa [PlainRegistry.after, List.foldl_append]
    rw [hline]
    exact (hc (steps ++ later)).resolve_ok hp'
  · intro name hn hd
    obtain ⟨line, hp⟩ := standard_resolves hn
    obtain ⟨found, hf, -⟩ := h.resolve_ok (PlainRegistry.resolve_after steps hp hd)
    exact ⟨found, hf⟩

end Session

end AccessLine
