import AccessLine.Proofs.Registry.Identity
import AccessLine.Proofs.Session.Turn

/-!
# The logs that a session holds

A session holds the logs that have a name and those that an exchange was started with. Every log in
it was built by one of its steps, and its serial number tells it from every other one, be it held,
dropped or still to be built. Its line builder is there from the moment the log is built.
-/
namespace AccessLine

/-- The name that a step gives to a log. -/
def SessionStep.logName? : SessionStep → Option String
  | .log name _ | .clone name _ => some name
  | _ => none

namespace Session

variable {s : Session} {x : SessionStep} {log log' : AccessLog} {name : String} {now : Timestamp}

/-- A log that has a name or that an exchange uses. -/
inductive Holds (s : Session) (log : AccessLog) : Prop
  | named {name : String} (h : s.logs.get? name = some log)
  | used {name : String} {flight : Flight} (h : s.flights.get? name = some flight)
      (hl : flight.log = log)

/-- The log that a step builds. -/
def builds? (s : Session) : SessionStep → Option AccessLog
  | .log _ settings => (AccessLog.build settings s.built s.registry).toOption.map (·.value)
  | _ => none

/-- The name that a step gives, and the log that it gives it to. -/
def binds? (s : Session) : SessionStep → Option (String × AccessLog)
  | .log name settings => (s.builds? (.log name settings)).map (name, ·)
  | .clone name source => (s.logs.get? source).map (name, ·)
  | _ => none

theorem builds?_log (name : String) (settings : LogSettings) :
    s.builds? (.log name settings) = (s.registry.resolve settings.format).toOption.map fun found =>
      { serial := s.built
        builder := found.value
        immediate := settings.immediate
        skip := settings.skip
        sink := settings.sink } := by
  simp only [builds?, AccessLog.build]
  cases s.registry.resolve settings.format <;> rfl

/-- A log is built with the next serial number and the line builder that is obtained for it. -/
theorem obtained_of_builds (h : s.builds? x = some log) :
    log.serial = s.built ∧ ∃ text, s.obtained? x = some (text, log.builder) := by
  cases x with
  | log name settings =>
      rw [builds?_log] at h
      obtain ⟨found, hf, rfl⟩ := Option.map_eq_some_iff.mp h
      have hr : s.registry.resolve settings.format = .ok found := by
        cases hr : s.registry.resolve settings.format with
        | error e => simp [hr, Except.toOption] at hf
        | ok found' => simpa [hr, Except.toOption] using hf
      exact ⟨rfl, settings.format, obtained?_of_act rfl hr⟩
  | _ => cases h

theorem rest_register {α : Type} (s : Session) (result : Except FormatError (Registered α))
    (f : Session → α → SessionAnswer × Session)
    (hf : ∀ t a, (f t a).2.logs = t.logs ∧ (f t a).2.built = t.built) :
    (s.register result f).session.logs = s.logs ∧
      (s.register result f).session.built = s.built := by
  unfold register
  cases result with
  | error e => exact ⟨rfl, rfl⟩
  | ok r => exact hf _ _

theorem logs_step (s : Session) (now : Timestamp) (x : SessionStep) :
    (s.step now x).session.logs = (s.binds? x).elim s.logs fun e => s.logs.insert e.1 e.2 := by
  cases x with
  | token | format | resolve | renderFormat => exact (s.rest_register _ _ fun t a => ⟨rfl, rfl⟩).1
  | hasFormat | hasToken => rfl
  | renderBuilder n request response =>
      simp only [Session.step]
      split <;> rfl
  | log name settings =>
      simp only [binds?, builds?_log, Session.step, register, AccessLog.build]
      cases s.registry.resolve settings.format <;> rfl
  | clone name source =>
      simp only [binds?, Session.step]
      cases s.logs.get? source <;> rfl
  | start | host =>
      rw [step_eq_turn rfl]
      rfl

theorem logName?_of_binds {e : String × AccessLog} (h : s.binds? x = some e) :
    x.logName? = some e.1 := by
  cases x with
  | log | clone =>
      obtain ⟨log, -, rfl⟩ := Option.map_eq_some_iff.mp h
      rfl
  | _ => cases h

theorem get?_logs_step_of_ne (h : x.logName? ≠ some name) (now : Timestamp) :
    (s.step now x).session.logs.get? name = s.logs.get? name := by
  rw [logs_step]
  cases hb : s.binds? x with
  | none => rfl
  | some e =>
      have hne : name ≠ e.1 := fun he => h (he ▸ logName?_of_binds hb)
      exact Table.get?_insert_of_ne hne

theorem get?_logs_clone (s : Session) (now : Timestamp) (name source : String) :
    (s.step now (.clone name source)).session.logs.get? name =
      (s.logs.get? source).or (s.logs.get? name) := by
  rw [logs_step]
  cases hl : s.logs.get? source with
  | none => simp [binds?, hl]
  | some log => simp [binds?, hl]

theorem built_step (s : Session) (now : Timestamp) (x : SessionStep) :
    (s.step now x).session.built = s.built + (s.builds? x).toList.length := by
  cases x with
  | token | format | resolve | renderFormat => exact (s.rest_register _ _ fun t a => ⟨rfl, rfl⟩).2
  | hasFormat | hasToken => rfl
  | renderBuilder n request response =>
      simp only [Session.step]
      split <;> rfl
  | log name settings =>
      simp only [builds?_log, Session.step, register, AccessLog.build]
      cases s.registry.resolve settings.format <;> rfl
  | clone name source =>
      simp only [Session.step]
      cases s.logs.get? source <;> rfl
  | start | host =>
      rw [step_eq_turn rfl]
      rfl

/-- A log is held because it was held before or is built now. -/
theorem holds_step (h : (s.step now x).session.Holds log) :
    s.Holds log ∨ s.builds? x = some log := by
  obtain @⟨name, h⟩ | @⟨name, flight, h, rfl⟩ := h
  · rw [logs_step] at h
    cases hb : s.binds? x with
    | none => exact .inl (.named (by simpa [hb] using h))
    | some e =>
        simp only [hb, Option.elim_some] at h
        by_cases hn : name = e.1
        · rw [hn, Table.get?_insert_self] at h
          obtain rfl := Option.some.inj h
          cases x with
          | log n settings =>
              obtain ⟨built, hbuilt, rfl⟩ := Option.map_eq_some_iff.mp hb
              exact .inr hbuilt
          | clone n source =>
              obtain ⟨found, hf, rfl⟩ := Option.map_eq_some_iff.mp hb
              exact .inl (.named hf)
          | _ => cases hb
        · rw [Table.get?_insert_of_ne hn] at h
          exact .inl (.named h)
  · cases hx : x.exchange? with
    | none =>
        rw [flights_step hx] at h
        exact .inl (.used h rfl)
    | some a =>
        rw [step_eq_turn hx] at h
        by_cases hn : name = a
        · subst hn
          rw [take, Table.get?_put_self] at h
          obtain h | ⟨source, _, _, -, hl, -⟩ | ⟨earlier, k, he, rfl⟩ :=
            SessionStep.flight_of_turn h
          · exact .inl (.used h rfl)
          · exact .inl (.named hl)
          · exact .inl (.used he rfl)
        · rw [take, Table.get?_put_of_ne hn] at h
          exact .inl (.used h rfl)

/-- Each log has its line builder and a serial number of its own. -/
structure Numbered (s : Session) : Prop where
  builder : ∀ {log}, s.Holds log → log.builder < s.registry.builders.length
  serial : ∀ {log}, s.Holds log → log.serial < s.built
  unique : ∀ {log log'}, s.Holds log → s.Holds log' → log.serial = log'.serial → log = log'

theorem Numbered.step (hs : s.Numbered) (hr : s.registry.Distinct) (now : Timestamp)
    (x : SessionStep) : (s.step now x).session.Numbered where
  builder h := by
    obtain h | h := holds_step h
    · exact Nat.lt_of_lt_of_le (hs.builder h) (length_builders_run [(now, x)] s)
    · obtain ⟨-, text, ho⟩ := obtained_of_builds h
      exact (entry_of_obtained hr ho now).1
  serial h := by
    rw [built_step]
    obtain h | h := holds_step h
    · exact Nat.lt_add_right _ (hs.serial h)
    · rw [h, (obtained_of_builds h).1]
      exact Nat.lt_succ_self _
  unique h h' he := by
    have hnew {log log' : AccessLog} (h : s.Holds log) (h' : s.builds? x = some log') :
        log.serial ≠ log'.serial := by
      rw [(obtained_of_builds h').1]
      exact Nat.ne_of_lt (hs.serial h)
    obtain h | h := holds_step h <;> obtain h' | h' := holds_step h'
    · exact hs.unique h h' he
    · exact absurd he (hnew h h')
    · exact absurd he.symm (hnew h' h)
    · exact Option.some.inj (h.symm.trans h')

theorem not_holds_empty : ¬({} : Session).Holds log := by
  rintro (h | ⟨h, -⟩) <;> cases h

theorem numbered_run (l : Schedule) : (run {} l).2.Numbered := by
  have hall (l : Schedule) : ∀ s : Session, s.Numbered → s.registry.Distinct →
      (s.run l).2.Numbered := by
    induction l with
    | nil => exact fun s hs _ => hs
    | cons x l ih =>
        intro s hs hr
        exact ih _ (hs.step hr x.1 x.2) (hr.run [x])
  exact hall l {}
    ⟨fun h => absurd h not_holds_empty, fun h => absurd h not_holds_empty,
      fun h => absurd h not_holds_empty⟩ .standard

/-- A log is held later because it was held before or has been built since. -/
theorem holds_run (l : Schedule) (h : (s.run l).2.Holds log) :
    s.Holds log ∨ s.built ≤ log.serial := by
  induction l generalizing s with
  | nil => exact .inl h
  | cons x l ih =>
      obtain h | h := ih h
      · obtain h | h := holds_step h
        · exact .inl h
        · exact .inr (Nat.le_of_eq (obtained_of_builds h).1.symm)
      · rw [built_step] at h
        exact .inr (Nat.le_trans (Nat.le_add_right _ _) h)

/-- Every log that is held is of a kind. -/
def HoldsOnly (P : AccessLog → Prop) (s : Session) : Prop :=
  ∀ log, s.Holds log → P log

/-- Every log that a run builds is of a kind. -/
def BuildsOnly (P : AccessLog → Prop) (s : Session) : Schedule → Prop
  | [] => True
  | (now, x) :: l =>
      (∀ log, s.builds? x = some log → P log) ∧ BuildsOnly P (s.step now x).session l

section Kind

variable {P Q : AccessLog → Prop} {l : Schedule}

theorem holdsOnly_empty : ({} : Session).HoldsOnly P :=
  fun _ h => absurd h not_holds_empty

theorem HoldsOnly.of_told {a : String} {told : AccessLog × List Notice} (hs : s.HoldsOnly P)
    (h : (s.turn a now x).told = some told) : P told.1 := by
  obtain ⟨flight, k, hf, rfl⟩ := SessionStep.exists_of_told h
  exact hs _ (.used hf rfl)

theorem HoldsOnly.step (hs : s.HoldsOnly P) (hx : ∀ log, s.builds? x = some log → P log)
    (now : Timestamp) : (s.step now x).session.HoldsOnly P :=
  fun log h => (holds_step h).elim (hs log) (hx log)

theorem HoldsOnly.run (hs : s.HoldsOnly P) (hl : s.BuildsOnly P l) :
    (s.run l).2.HoldsOnly P := by
  induction l generalizing s with
  | nil => exact hs
  | cons x l ih => exact ih (hs.step hl.1 x.1) hl.2

theorem BuildsOnly.mono (hl : s.BuildsOnly P l) (h : ∀ log, P log → Q log) : s.BuildsOnly Q l := by
  induction l generalizing s with
  | nil => exact hl
  | cons x l ih => exact ⟨fun log hlog => h log (hl.1 log hlog), ih hl.2⟩

theorem BuildsOnly.append {m : Schedule} (hl : s.BuildsOnly P l)
    (hm : (s.run l).2.BuildsOnly P m) : s.BuildsOnly P (l ++ m) := by
  induction l generalizing s with
  | nil => exact hm
  | cons x l ih => exact ⟨hl.1, ih hl.2 hm⟩

theorem BuildsOnly.of_append {m : Schedule} (h : s.BuildsOnly P (l ++ m)) : s.BuildsOnly P l := by
  induction l generalizing s with
  | nil => trivial
  | cons x l ih => exact ⟨h.1, ih h.2⟩

theorem built_le_run (l : Schedule) (s : Session) : s.built ≤ (s.run l).2.built := by
  induction l generalizing s with
  | nil => exact Nat.le_refl _
  | cons x l ih =>
      refine Nat.le_trans ?_ (ih _)
      rw [built_step]
      exact Nat.le_add_right _ _

/-- The logs of a run are numbered from what was built before up to what is built after it. -/
theorem buildsOnly_serial (l : Schedule) (s : Session) :
    s.BuildsOnly (fun log => s.built ≤ log.serial ∧ log.serial < (s.run l).2.built) l := by
  induction l generalizing s with
  | nil => trivial
  | cons x l ih =>
      have hstep := built_step s x.1 x.2
      have hrun := built_le_run l (s.step x.1 x.2).session
      have hlast : (s.run (x :: l)).2.built = ((s.step x.1 x.2).session.run l).2.built := rfl
      rw [hlast]
      constructor
      · intro log hlog
        have hserial := (obtained_of_builds hlog).1
        simp only [hlog, Option.toList_some, List.length_singleton] at hstep
        omega
      · exact (ih _).mono fun log hlog => by omega

/-- No other log of a run gets the number of one that is built in it. -/
theorem buildsOnly_of_builds {before : Schedule} {x : SessionStep} {log : AccessLog}
    (h : (s.run before).2.builds? x = some log) (now : Timestamp) (after : Schedule) :
    s.BuildsOnly (fun l => l.serial = log.serial → l = log) (before ++ (now, x) :: after) := by
  have hserial := (obtained_of_builds h).1
  apply BuildsOnly.append
  · apply (buildsOnly_serial before s).mono
    intro l hl he
    omega
  · constructor
    · intro l hl _
      exact Option.some.inj (hl.symm.trans h)
    · apply (buildsOnly_serial after _).mono
      intro l hl he
      have hbuilt := built_step (s.run before).2 now x
      simp only [h, Option.toList_some, List.length_singleton] at hbuilt
      omega

end Kind

/-- A serial number is always that of the same log. -/
theorem Numbered.eq_of_serial (hs : s.Numbered) (h : s.Holds log) {l : Schedule}
    (h' : (s.run l).2.Holds log') (he : log'.serial = log.serial) : log' = log := by
  obtain h' | h' := holds_run l h'
  · exact hs.unique h' h he
  · have := hs.serial h
    omega

end Session

end AccessLine
