import AccessLine.Proofs.Registry.Acts

/-!
# The identity of line builders

A line builder is known by its place among all that were made. A format's name holds at most one of
them, made when the format was defined or first asked for, and no two names hold the same. So the
same line builder is obtained twice exactly if it is obtained twice for one name that stays as it is
in between.
-/
namespace AccessLine

namespace Registry

/-- No name holds a line builder that is still to be made, and no two names hold the same. -/
structure Distinct (r : Registry) : Prop where
  bound : ∀ {name id}, r.formats.get? name = some (.builder id) → id < r.builders.length
  names : ∀ {m n id}, r.formats.get? m = some (.builder id) →
    r.formats.get? n = some (.builder id) → m = n

theorem Distinct.sameLines {r r' : Registry} (h : r.Distinct) (hs : r.SameLines r') :
    r'.Distinct where
  bound hn := by
    rw [hs.formats] at hn
    rw [hs.length_builders]
    exact h.bound hn
  names hm hn := by
    rw [hs.formats] at hm hn
    exact h.names hm hn

/-- A line builder that a name holds after an act was held before, or made by it for this name. -/
theorem entry_act (r : Registry) (a : RegistryAct) {name : String} {id : BuilderId}
    (h : (r.act a).formats.get? name = some (.builder id)) :
    r.formats.get? name = some (.builder id) ∧ a.defined? ≠ some name ∨
      a.subject? = some name ∧ id = r.builders.length ∧ id < (r.act a).builders.length := by
  have hm := r.makes_act a
  generalize r.act a = r' at hm h ⊢
  cases hm with
  | same defined => exact .inl ⟨h, by simp [defined]⟩
  | token | literal => exact .inl ⟨h, by simp [RegistryAct.defined?]⟩
  | @template n src named =>
      by_cases he : name = n
      · simp [he] at h
      · rw [Table.get?_insert_of_ne he] at h
        exact .inl ⟨h, by simpa [RegistryAct.defined?, named] using Ne.symm he⟩
  | @ready n d b named =>
      by_cases he : name = n
      · subst he
        rw [Table.get?_insert_self, Option.some.injEq] at h
        obtain rfl := Format.builder.inj h
        exact .inr ⟨rfl, rfl, by simp⟩
      · rw [Table.get?_insert_of_ne he] at h
        exact .inl ⟨h, by simpa [RegistryAct.defined?, named] using Ne.symm he⟩
  | @compiled text src =>
      by_cases he : name = text
      · subst he
        rw [Table.get?_insert_self, Option.some.injEq] at h
        obtain rfl := Format.builder.inj h
        exact .inr ⟨rfl, rfl, by simp⟩
      · rw [Table.get?_insert_of_ne he] at h
        exact .inl ⟨h, by simp [RegistryAct.defined?]⟩

/-- What stands under a name stays until a format is defined under it or its template is
compiled. -/
theorem get?_formats_act {r : Registry} {a : RegistryAct} {name : String}
    (hd : a.defined? ≠ some name)
    (hc : ∀ src found, a = .ask name → r.formats.get? name = some (.template src) →
      r.resolve name ≠ .ok found) :
    (r.act a).formats.get? name = r.formats.get? name := by
  have hm := r.makes_act a
  generalize r.act a = r' at hm ⊢
  have hne {n : String} {d : Definition} (named : n ≠ "") (h : a = .format n d) : name ≠ n :=
    fun he => hd (by simp [h, RegistryAct.defined?, named, he])
  cases hm with
  | same | token | literal => rfl
  | template named => exact Table.get?_insert_of_ne (hne named rfl)
  | ready named => exact Table.get?_insert_of_ne (hne named rfl)
  | @compiled text src entry known =>
      have he : name ≠ text := by
        rintro rfl
        exact hc src _ rfl entry (Obtains.compiled entry known).resolve_eq
      exact Table.get?_insert_of_ne he

theorem Distinct.act {r : Registry} (h : r.Distinct) (a : RegistryAct) : (r.act a).Distinct where
  bound hn := by
    rcases r.entry_act a hn with ⟨hn, -⟩ | ⟨-, -, hlt⟩
    · exact Nat.lt_of_lt_of_le (h.bound hn) (r.length_builders_le_act a)
    · exact hlt
  names hm hn := by
    -- Two names that hold one line builder both held it before or were both given it by the act.
    rcases r.entry_act a hm with ⟨hm, -⟩ | ⟨hm, he, -⟩ <;>
      rcases r.entry_act a hn with ⟨hn, -⟩ | ⟨hn, he', -⟩
    · exact h.names hm hn
    · exact absurd he' (Nat.ne_of_lt (h.bound hm))
    · exact absurd he (Nat.ne_of_lt (h.bound hn))
    · exact Option.some.inj (hm.symm.trans hn)

/-- The standard formats are defined like any others. -/
theorem invariant_standard {P : Registry → Prop} (hact : ∀ r a, P r → P (r.act a))
    (h : P { tokens := .standard }) : P Registry.standard := by
  have hfold (l : List RegistryAct) : ∀ r : Registry, P r → P (l.foldl Registry.act r) := by
    induction l with
    | nil => exact fun r hr => hr
    | cons a l ih => exact fun r hr => ih _ (hact r a hr)
  exact hfold (standardFormats.map fun e => .format e.1 e.2) _ h

theorem Distinct.standard : Registry.standard.Distinct :=
  invariant_standard (fun _ a hr => hr.act a) ⟨fun hn => (nomatch hn), fun hm => (nomatch hm)⟩

theorem Distinct.run {s : Session} (h : s.registry.Distinct)
    (steps : List (Timestamp × SessionStep)) : (s.run steps).2.registry.Distinct :=
  Session.invariant_run (fun _ a hr => hr.act a) (fun _ _ hw hr => hr.sameLines hw.sameLines)
    steps h

end Registry

/-- The text and the line builder that a step obtains, if it does. -/
def Session.obtained? (s : Session) : SessionStep → Option (String × BuilderId)
  | .resolve text | .renderFormat text _ _ =>
      (s.registry.resolve text).toOption.map fun found => (text, found.value)
  | .log _ settings =>
      (AccessLog.build settings s.built s.registry).toOption.map fun built =>
        (settings.format, built.value.builder)
  | _ => none

namespace Session

variable {s : Session} {name text : String} {id : BuilderId}

/-- What a step obtains, the registry was asked for. -/
theorem act?_of_obtained {step : SessionStep} (h : s.obtained? step = some (text, id)) :
    step.act? = some (.ask text) ∧
      ∃ found, s.registry.resolve text = .ok found ∧ found.value = id := by
  have hask {t : String} {f : Registered BuilderId → String × BuilderId}
      (hf : ∀ found, f found = (t, found.value))
      (ht : (s.registry.resolve t).toOption.map f = some (text, id)) :
      t = text ∧ ∃ found, s.registry.resolve text = .ok found ∧ found.value = id := by
    cases hr : s.registry.resolve t with
    | error e => simp [hr, Except.toOption] at ht
    | ok found =>
        simp only [hr, Except.toOption, Option.map_some, hf, Option.some.injEq, Prod.mk.injEq] at ht
        obtain ⟨rfl, rfl⟩ := ht
        exact ⟨rfl, found, hr, rfl⟩
  cases step with
  | resolve t | renderFormat t =>
      obtain ⟨rfl, hr⟩ := hask (fun _ => rfl) h
      exact ⟨rfl, hr⟩
  | log n settings =>
      have hb : (s.registry.resolve settings.format).toOption.map
          (fun found => (settings.format, found.value)) = some (text, id) := by
        rw [← h]
        simp only [obtained?, AccessLog.build]
        cases s.registry.resolve settings.format <;> rfl
      obtain ⟨rfl, hr⟩ := hask (fun _ => rfl) hb
      exact ⟨rfl, hr⟩
  | _ => cases h

theorem obtained?_of_act {step : SessionStep} {found : Registered BuilderId}
    (ha : step.act? = some (.ask text)) (hf : s.registry.resolve text = .ok found) :
    s.obtained? step = some (text, found.value) := by
  cases step with
  | resolve | renderFormat | log =>
      obtain rfl := RegistryAct.ask.inj (Option.some.inj ha)
      simp [obtained?, AccessLog.build, hf, Except.toOption, Except.map]
  | _ => cases ha

theorem length_builders_run (steps : List (Timestamp × SessionStep)) (s : Session) :
    s.registry.builders.length ≤ (s.run steps).2.registry.builders.length := by
  simpa using (lines_run steps s).length_le

theorem formats_step (s : Session) (now : Timestamp) (step : SessionStep) :
    (s.step now step).session.registry.formats = (s.registry.actOf step).formats :=
  (s.writes_step now step).sameLines.formats

/-- A line builder that a name holds later was held all the time or made since. -/
theorem entry_run (steps : List (Timestamp × SessionStep))
    (h : (s.run steps).2.registry.formats.get? name = some (.builder id)) :
    s.registry.formats.get? name = some (.builder id) ∧ (∀ x ∈ steps, x.2.defined? ≠ some name) ∨
      s.registry.builders.length ≤ id := by
  induction steps generalizing s with
  | nil => exact .inl ⟨h, by simp⟩
  | cons x steps ih =>
      obtain ⟨now, step⟩ := x
      have hlen := length_builders_run [(now, step)] s
      rcases ih h with ⟨he, hd⟩ | hle
      · rw [formats_step] at he
        unfold Registry.actOf at he
        cases ha : step.act? with
        | none =>
            rw [ha] at he
            refine .inl ⟨he, ?_⟩
            simpa [SessionStep.defined?, ha] using hd
        | some a =>
            rw [ha] at he
            rcases s.registry.entry_act a he with ⟨he, hda⟩ | ⟨-, rfl, -⟩
            · refine .inl ⟨he, ?_⟩
              simpa [SessionStep.defined?, ha, hda] using hd
            · exact .inr (Nat.le_refl _)
      · exact .inr (Nat.le_trans hlen hle)

/-- What stands under a name stays in a step that defines no format under it, unless it is a
template for which a line builder is obtained. -/
theorem get?_formats_step {step : SessionStep} (hd : step.defined? ≠ some name)
    (hc : ∀ src id, s.registry.formats.get? name = some (.template src) →
      s.obtained? step ≠ some (name, id)) (now : Timestamp) :
    (s.step now step).session.registry.formats.get? name = s.registry.formats.get? name := by
  rw [formats_step]
  unfold SessionStep.defined? at hd
  unfold Registry.actOf
  cases ha : step.act? with
  | none => rfl
  | some a =>
      refine Registry.get?_formats_act (by simpa [ha] using hd) ?_
      rintro src found rfl entry hf
      exact hc src found.value entry (obtained?_of_act ha hf)

/-- A name keeps its line builder until a format is defined under it. -/
theorem entry_run_of_ne (steps : List (Timestamp × SessionStep))
    (h : s.registry.formats.get? name = some (.builder id))
    (hd : ∀ x ∈ steps, x.2.defined? ≠ some name) :
    (s.run steps).2.registry.formats.get? name = some (.builder id) := by
  induction steps generalizing s with
  | nil => exact h
  | cons x steps ih =>
      obtain ⟨now, step⟩ := x
      refine ih (s := (s.step now step).session) ?_ fun y hy => hd y (by simp [hy])
      rw [get?_formats_step (hd (now, step) (by simp)) (by simp [h]), h]

/-- After a text has given a line builder, the format of this name holds it, or there is none and no
name does. -/
theorem entry_of_obtained (hs : s.registry.Distinct) {step : SessionStep}
    (h : s.obtained? step = some (text, id)) (now : Timestamp) :
    let r := (s.step now step).session.registry
    id < r.builders.length ∧
      (s.registry.hasFormat text = true ∧ r.formats.get? text = some (.builder id) ∨
        s.registry.hasFormat text = false ∧ ∀ name, r.formats.get? name ≠ some (.builder id)) := by
  intro r
  obtain ⟨ha, found, hf, rfl⟩ := act?_of_obtained h
  have hr : s.registry.actOf step = found.registry := by
    simp [Registry.actOf, ha, Registry.act, Registry.kept, hf]
  have hlen : r.builders.length = found.registry.builders.length := by
    rw [(s.writes_step now step).sameLines.length_builders, hr]
  rw [hlen, formats_step, hr]
  cases Registry.obtains_of_resolve hf with
  | kept entry =>
      exact ⟨hs.bound entry, .inl ⟨by simp [Registry.hasFormat, Table.contains, entry], entry⟩⟩
  | compiled entry =>
      refine ⟨by simp, .inl ⟨by simp [Registry.hasFormat, Table.contains, entry], ?_⟩⟩
      exact Table.get?_insert_self
  | literal entry =>
      refine ⟨by simp, .inr ⟨by simp [Registry.hasFormat, Table.contains, entry], ?_⟩⟩
      intro name hn
      exact absurd rfl (Nat.ne_of_lt (hs.bound hn))

/-- A line builder that is obtained is the one its name holds, or one made anew for a name that
holds none. -/
theorem obtained_eq_or_new {step : SessionStep} (h : s.obtained? step = some (text, id)) :
    s.registry.formats.get? text = some (.builder id) ∨
      s.registry.builders.length = id ∧ ∀ j, s.registry.formats.get? text ≠ some (.builder j) := by
  obtain ⟨-, found, hf, rfl⟩ := act?_of_obtained h
  cases Registry.obtains_of_resolve hf with
  | kept entry => exact .inl entry
  | compiled entry | literal entry => exact .inr ⟨rfl, by simp [entry]⟩

/-- The format of a text that has given a line builder holds it as long as it stays. -/
theorem entry_after_obtained (hs : s.registry.Distinct) {step : SessionStep}
    (h : s.obtained? step = some (text, id)) (hd : s.registry.hasFormat text = true)
    (now : Timestamp) {between : List (Timestamp × SessionStep)}
    (hx : ∀ x ∈ between, x.2.defined? ≠ some text) :
    ((s.step now step).session.run between).2.registry.formats.get? text = some (.builder id) := by
  obtain ⟨-, ⟨-, he⟩ | ⟨hd', -⟩⟩ := entry_of_obtained hs h now
  · exact entry_run_of_ne between he hx
  · simp [hd] at hd'

theorem distinct_run (steps : List (Timestamp × SessionStep)) :
    (Session.run {} steps).2.registry.Distinct :=
  Registry.Distinct.standard.run steps

theorem obtained_eq_iff (hs : s.registry.Distinct) {step step' : SessionStep} {m n : String}
    {i j : BuilderId} {now : Timestamp} {between : List (Timestamp × SessionStep)}
    (hi : s.obtained? step = some (m, i))
    (hj : ((s.step now step).session.run between).2.obtained? step' = some (n, j)) :
    i = j ↔ m = n ∧ s.registry.hasFormat m = true ∧ ∀ x ∈ between, x.2.defined? ≠ some m := by
  obtain ⟨hlt, hentry⟩ := entry_of_obtained hs hi now
  have hs' : (s.step now step).session.registry.Distinct := hs.run [(now, step)]
  have hnew (hle : (s.step now step).session.registry.builders.length ≤ j) : i ≠ j :=
    Nat.ne_of_lt (Nat.lt_of_lt_of_le hlt hle)
  constructor
  · rintro rfl
    rcases obtained_eq_or_new hj with hn | ⟨he, -⟩
    · rcases entry_run between hn with ⟨hn, hx⟩ | hle
      · rcases hentry with ⟨hd, hm⟩ | ⟨-, hno⟩
        · obtain rfl := hs'.names hm hn
          exact ⟨rfl, hd, hx⟩
        · exact absurd hn (hno n)
      · exact absurd rfl (hnew hle)
    · exact absurd rfl (hnew (he ▸ length_builders_run between _))
  · rintro ⟨rfl, hd, hx⟩
    have hm := entry_after_obtained hs hi hd now hx
    rcases obtained_eq_or_new hj with hn | ⟨-, hno⟩
    · exact Format.builder.inj (Option.some.inj (hm.symm.trans hn))
    · exact absurd hm (hno i)

end Session

end AccessLine
