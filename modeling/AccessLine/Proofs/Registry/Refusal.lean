import AccessLine.Proofs.Registry.Acts
import AccessLine.Proofs.Session.Turn

/-!
# Refused operations

A registry refuses an empty name, and it refuses a text whose template names a token that is not
registered. Nothing is left of an operation that was refused: a session goes on as if it had not
been asked for. Asking for a line builder that is not refused compiles one template at most and
changes nothing else.
-/
namespace AccessLine

namespace Registry

/-- The source that is compiled for a text, if it has no line builder yet. -/
def source? (r : Registry) (text : String) : Option String :=
  match r.formats.get? text with
  | some (.builder _) => none
  | some (.template src) => some src
  | none => some text

/-- Why an operation is refused. -/
inductive Refuses (r : Registry) : RegistryAct → FormatError → Prop
  | token {t : Evaluator} : Refuses r (.token "" t) .missingName
  | format {d : Definition} : Refuses r (.format "" d) .missingName
  | unknown {text src name : String} (source : r.source? text = some src)
      (first : (Template.parse src).firstUnknown? r.tokens = some name) :
      Refuses r (.ask text) (.unknownToken name src)

theorem resolve_eq_error_iff {r : Registry} {text : String} {e : FormatError} :
    r.resolve text = .error e ↔ r.Refuses (.ask text) e := by
  constructor
  · intro h
    obtain ⟨src, entry, hc⟩ := compile_eq_error_of_resolve h
    obtain ⟨name, hname, rfl⟩ := Template.compile_eq_error_iff_firstUnknown?.mp hc
    have hsource : r.source? text = some src := by
      obtain entry | ⟨entry, rfl⟩ := entry <;> simp [source?, entry]
    exact .unknown hsource hname
  · rintro (_ | _ | ⟨hsource, hname⟩)
    rename_i src name
    have hc : Template.compile src r.tokens = .error (.unknownToken name src) :=
      Template.compile_eq_error_iff_firstUnknown?.mpr ⟨name, hname, rfl⟩
    cases hentry : r.formats.get? text with
    | none =>
        obtain rfl : text = src := by simpa [source?, hentry] using hsource
        simp [resolve, hentry, hc, Except.map]
    | some f =>
        cases f with
        | builder id => simp [source?, hentry] at hsource
        | template src' =>
            obtain rfl : src' = src := by simpa [source?, hentry] using hsource
            simp [resolve, hentry, hc, Except.map]

/-- What asking for the line builder of a text does to a registry. -/
structure Asked (r : Registry) (text : String) (r' : Registry) : Prop where
  tokens : r'.tokens = r.tokens
  others : ∀ name, name ≠ text → r'.formats.get? name = r.formats.get? name
  names : ∀ name, r'.hasFormat name = r.hasFormat name
  kept : (∀ src, r.formats.get? text ≠ some (.template src)) →
    r'.formats.get? text = r.formats.get? text
  compiled : ∀ src, r.formats.get? text = some (.template src) →
    ∃ id, r'.formats.get? text = some (.builder id) ∧
      r'.builders[id]? = some (.compiled (.parse src))

/-- Lines leave the compiled templates as they are. -/
theorem Writes.compiled {r r' : Registry} (h : r.Writes r') {id : BuilderId} {t : Template}
    (hb : r.builders[id]? = some (.compiled t)) : r'.builders[id]? = some (.compiled t) := by
  induction h with
  | refl => exact hb
  | tail _ h ih =>
      obtain ⟨id', response, rfl⟩ := h
      simp only [Registry.wrote, List.getElem?_modify, ih]
      split <;> rfl

theorem Asked.writes {r r' r'' : Registry} {text : String} (h : r.Asked text r')
    (hw : r'.Writes r'') : r.Asked text r'' where
  tokens := hw.sameLines.tokens.trans h.tokens
  others name hn := by rw [hw.sameLines.formats, h.others name hn]
  names name := by rw [hasFormat, hw.sameLines.formats, ← h.names name, hasFormat]
  kept hk := by rw [hw.sameLines.formats, h.kept hk]
  compiled src hs := by
    obtain ⟨id, hid, hb⟩ := h.compiled src hs
    exact ⟨id, by rw [hw.sameLines.formats, hid], hw.compiled hb⟩

theorem asked_of_obtains {r : Registry} {text : String} {found : Registered BuilderId}
    (h : r.Obtains text found) : r.Asked text found.registry := by
  cases h with
  | kept entry =>
      exact ⟨rfl, fun _ _ => rfl, fun _ => rfl, fun _ => rfl, by simp [entry]⟩
  | literal entry =>
      exact ⟨rfl, fun _ _ => rfl, fun _ => rfl, fun _ => rfl, by simp [entry]⟩
  | compiled entry known =>
      rename_i src
      refine ⟨rfl, fun name hn => Table.get?_insert_of_ne hn, ?_, ?_, ?_⟩
      · intro name
        have hd : r.formats.contains text = true := by simp [Table.contains, entry]
        by_cases hn : name = text <;> simp [hasFormat, Table.contains_insert, hn, hd]
      · intro hk
        exact absurd entry (hk src)
      · intro src' hs
        obtain rfl : src' = src := by simpa [entry, eq_comm] using hs
        exact ⟨r.builders.length, Table.get?_insert_self, by simp⟩

end Registry

/-- Whether a step was refused by the registry. -/
def SessionOutcome.refused (o : SessionOutcome) : Bool :=
  match o.answer with
  | .error (.format _) => true
  | _ => false

namespace Session

variable {s : Session} {x : SessionStep} {a : RegistryAct} {e : FormatError}

/-- The steps of a schedule that the registry does not refuse. -/
def accepted (s : Session) : Schedule → Schedule
  | [] => []
  | (now, x) :: l =>
      let o := s.step now x
      if o.refused then accepted o.session l else (now, x) :: accepted o.session l

theorem step_of_refuses (ha : x.act? = some a) (hr : s.registry.Refuses a e) (now : Timestamp) :
    s.step now x = s.fail (.format e) := by
  cases x with
  | token name t =>
      obtain rfl := Option.some.inj ha
      cases hr
      simp [Session.step, Registry.token, register]
  | format name d =>
      obtain rfl := Option.some.inj ha
      cases hr
      simp [Session.step, Registry.format, register]
  | resolve | renderFormat | log =>
      obtain rfl := Option.some.inj ha
      have he := Registry.resolve_eq_error_iff.mpr hr
      simp [Session.step, register, AccessLog.build, he, Except.map]
  | _ => cases ha

theorem exists_answer_of_not_refuses (ha : x.act? = some a) (hr : ∀ e, ¬s.registry.Refuses a e)
    (now : Timestamp) : ∃ v, (s.step now x).answer = .ok v := by
  cases x with
  | token name t =>
      obtain rfl := Option.some.inj ha
      have hn : name ≠ "" := by
        rintro rfl
        exact hr _ .token
      simp [Session.step, Registry.token, register, hn]
  | format name d =>
      obtain rfl := Option.some.inj ha
      have hn : name ≠ "" := by
        rintro rfl
        exact hr _ .format
      simp [Session.step, Registry.format, register, hn]
  | resolve text | renderFormat text =>
      obtain rfl := Option.some.inj ha
      cases hf : s.registry.resolve text with
      | error e => exact absurd (Registry.resolve_eq_error_iff.mp hf) (hr e)
      | ok found => simp [Session.step, register, hf]
  | log name settings =>
      obtain rfl := Option.some.inj ha
      cases hf : s.registry.resolve settings.format with
      | error e => exact absurd (Registry.resolve_eq_error_iff.mp hf) (hr e)
      | ok found => simp [Session.step, register, AccessLog.build, hf, Except.map]
  | _ => cases ha

/-- An operation on the registry fails exactly if it is refused, and for that reason. -/
theorem answer_eq_error_iff (ha : x.act? = some a) (now : Timestamp) (err : SessionError) :
    (s.step now x).answer = .error err ↔ ∃ e, err = .format e ∧ s.registry.Refuses a e := by
  by_cases hr : ∃ e, s.registry.Refuses a e
  · obtain ⟨e, hr⟩ := hr
    have hanswer : (s.step now x).answer = .error (.format e) := by
      rw [step_of_refuses ha hr]
      rfl
    constructor
    · intro h
      obtain rfl : SessionError.format e = err := Except.error.inj (hanswer.symm.trans h)
      exact ⟨e, rfl, hr⟩
    · rintro ⟨e', rfl, hr'⟩
      rw [step_of_refuses ha hr']
      rfl
  · obtain ⟨v, hv⟩ := exists_answer_of_not_refuses ha (fun e h => hr ⟨e, h⟩) now
    constructor
    · intro h
      rw [hv] at h
      cases h
    · rintro ⟨e, -, h⟩
      exact absurd ⟨e, h⟩ hr

/-- Only operations on the registry are refused. -/
theorem refused_of_act?_eq_none (ha : x.act? = none) (now : Timestamp) :
    (s.step now x).refused = false := by
  cases x with
  | token | format | resolve | renderFormat | log => cases ha
  | hasFormat | hasToken => rfl
  | renderBuilder n request response => simp only [Session.step]; split <;> rfl
  | clone name source => simp only [Session.step]; split <;> rfl
  | start name log request handler => simp only [Session.step]; split <;> rfl
  | host name h => simp only [Session.step]; split <;> rfl

theorem step_of_refused {now : Timestamp} (h : (s.step now x).refused = true) :
    (s.step now x).session = s ∧ (s.step now x).effects = [] := by
  cases ha : x.act? with
  | none =>
      rw [refused_of_act?_eq_none ha] at h
      cases h
  | some a =>
      by_cases hr : ∃ e, s.registry.Refuses a e
      · obtain ⟨e, hr⟩ := hr
        rw [step_of_refuses ha hr]
        exact ⟨rfl, rfl⟩
      · obtain ⟨v, hv⟩ := exists_answer_of_not_refuses ha (fun e h => hr ⟨e, h⟩) now
        simp [SessionOutcome.refused, hv] at h

/-- Without the refused steps all others go the same way. -/
theorem run_accepted (l : Schedule) (s : Session) :
    s.run (s.accepted l) = ((s.run l).1.filter (!·.refused), (s.run l).2) := by
  induction l generalizing s with
  | nil => rfl
  | cons x l ih =>
      obtain ⟨now, x⟩ := x
      have htail := ih (s.step now x).session
      rw [run_cons]
      cases hr : (s.step now x).refused with
      | true =>
          have hs := (step_of_refused hr).1
          simp only [accepted, hr, if_true, List.filter_cons, Bool.not_true, Bool.false_eq_true,
            if_false]
          rw [hs] at htail ⊢
          exact htail
      | false =>
          simp only [accepted, hr, Bool.false_eq_true, if_false, run_cons, htail, List.filter_cons,
            Bool.not_false, if_true]

theorem asked_of_answer {text : String} {now : Timestamp} {v : SessionAnswer}
    (ha : x.act? = some (.ask text)) (hv : (s.step now x).answer = .ok v) :
    s.registry.Asked text (s.step now x).session.registry := by
  have hw := s.writes_step now x
  cases hf : s.registry.resolve text with
  | error e =>
      have he := (answer_eq_error_iff ha now (.format e)).mpr
        ⟨e, rfl, Registry.resolve_eq_error_iff.mp hf⟩
      rw [hv] at he
      cases he
  | ok found =>
      have hact : s.registry.actOf x = found.registry := by
        simp [Registry.actOf, ha, Registry.act, Registry.kept, hf]
      rw [hact] at hw
      exact (Registry.asked_of_obtains (Registry.obtains_of_resolve hf)).writes hw

/-- An operation on the registry fails exactly if a name is empty or if the template that is to be
compiled names a token that is not registered, and its error says which. After a failure the session
is the same to the last part, nothing has been seen, and whatever follows goes as it would have gone
without it; so a run without its failed operations is the same run. An operation that obtains a line
builder leaves all tokens and all other formats as they are. No name becomes that of a format, and
the format of the text itself changes only from a template to what this template compiles to. -/
theorem refused_without_trace (before : Schedule) :
    let s := (Session.run {} before).2
    (∀ now x a, x.act? = some a →
      let o := s.step now x
      (∀ err, o.answer = .error err ↔ ∃ e, err = .format e ∧ s.registry.Refuses a e) ∧
        (∀ err, o.answer = .error err → o.session = s ∧ o.effects = [] ∧
          ∀ later, s.run ((now, x) :: later) = (o :: (s.run later).1, (s.run later).2)) ∧
        ∀ text v, a = .ask text → o.answer = .ok v → s.registry.Asked text o.session.registry) ∧
      ∀ l, s.run (s.accepted l) = ((s.run l).1.filter (!·.refused), (s.run l).2) := by
  intro s
  constructor
  · intro now x a ha o
    refine ⟨answer_eq_error_iff ha now, ?failed, ?obtained⟩
    case failed =>
      intro err he
      obtain ⟨e, rfl, -⟩ := (answer_eq_error_iff ha now err).mp he
      have hrefused : o.refused = true := by simp [SessionOutcome.refused, he]
      obtain ⟨hsession, heffects⟩ := step_of_refused hrefused
      refine ⟨hsession, heffects, fun later => ?_⟩
      rw [run_cons, hsession]
    case obtained =>
      rintro text v rfl hv
      exact asked_of_answer ha hv
  · exact fun l => run_accepted l s

end Session

end AccessLine
