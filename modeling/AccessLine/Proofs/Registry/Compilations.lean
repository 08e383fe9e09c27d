import AccessLine.Proofs.Registry.Identity
import Mathlib.Data.List.Count

/-!
# Compiling once

As long as no format is defined under a name, what stands there changes at most once: a template
is compiled when a line builder is first obtained for it. Together with the identity of line
builders this says what any two steps of a session obtain.
-/
namespace AccessLine

namespace Session

variable {s : Session} {name text : String} {id : BuilderId}

/-- The line builders obtained for a text, in order. -/
def obtainedFor (s : Session) (text : String) : List (Timestamp × SessionStep) → List BuilderId
  | [] => []
  | (now, step) :: rest =>
      (((s.obtained? step).filter fun x => x.1 = text).map (·.2)).toList ++
        obtainedFor (s.step now step).session text rest

/-- How often a compiled format is put in the place of its template. -/
def compilations (s : Session) (name : String) (steps : List (Timestamp × SessionStep)) : Nat :=
  ((s.run steps).1.flatMap (·.effects)).count (.event (.formatCompiled name))

/-- Lines and what becomes of them are no compilations. -/
theorem count_notifyAll (log : AccessLog) (r : Registry) (ns : List Notice) (name : String) :
    (log.notifyAll r ns).1.count (.event (.formatCompiled name)) = 0 := by
  rw [AccessLog.notifyAll_eq, List.count_eq_zero, List.mem_flatMap]
  rintro ⟨n, -, hn⟩
  cases n <;> simp [AccessLog.effects] at hn

theorem count_events (es : List Event) (e : Event) :
    (es.map Effect.event).count (.event e) = es.count e :=
  List.count_map_of_injective es Effect.event (fun _ _ h => Effect.event.inj h) e

theorem count_compiled_of_ask {step : SessionStep} {found : Registered BuilderId}
    (ha : step.act? = some (.ask text)) (hf : s.registry.resolve text = .ok found)
    (now : Timestamp) (name : String) :
    (s.step now step).effects.count (.event (.formatCompiled name)) =
      found.events.count (.formatCompiled name) := by
  cases step with
  | resolve | renderFormat =>
      obtain rfl := RegistryAct.ask.inj (Option.some.inj ha)
      simp only [Session.step, register, hf, count_events]
  | log n settings =>
      obtain rfl := RegistryAct.ask.inj (Option.some.inj ha)
      simp [Session.step, register, AccessLog.build, hf, Except.map, count_events]
  | _ => cases ha

theorem count_compiled_of_obtained_none {step : SessionStep} (h : s.obtained? step = none)
    (now : Timestamp) (name : String) :
    (s.step now step).effects.count (.event (.formatCompiled name)) = 0 := by
  cases step with
  | token n t => by_cases hn : n = "" <;> simp [Session.step, register, Registry.token, hn, fail]
  | format n d => by_cases hn : n = "" <;> simp [Session.step, register, Registry.format, hn, fail]
  | resolve text | renderFormat text =>
      cases hr : s.registry.resolve text with
      | error e => simp [Session.step, register, hr, fail]
      | ok found => simp [obtained?, hr, Except.toOption] at h
  | log n settings =>
      cases hr : s.registry.resolve settings.format with
      | error e => simp [Session.step, register, AccessLog.build, hr, Except.map, fail]
      | ok found => simp [obtained?, AccessLog.build, hr, Except.toOption, Except.map] at h
  | hasFormat | hasToken => rfl
  | renderBuilder n request response => simp only [Session.step]; split <;> rfl
  | clone n source => simp only [Session.step]; split <;> rfl
  | start n log request handler =>
      simp only [Session.step]
      split
      · rfl
      · simp only [startFlight, dropNamed]
        split
        · rfl
        · exact count_notifyAll _ _ _ _
  | host n h =>
      simp only [Session.step]
      split
      · rfl
      · exact count_notifyAll _ _ _ _

theorem count_compiled_of_template {step : SessionStep} {src : String}
    (he : s.registry.formats.get? name = some (.template src))
    (h : s.obtained? step = some (name, id)) (now : Timestamp) :
    (s.step now step).effects.count (.event (.formatCompiled name)) = 1 ∧
      (s.step now step).session.registry.formats.get? name = some (.builder id) := by
  obtain ⟨ha, found, hf, rfl⟩ := act?_of_obtained h
  have hr : s.registry.actOf step = found.registry := by
    simp [Registry.actOf, ha, Registry.act, Registry.kept, hf]
  rw [count_compiled_of_ask ha hf, formats_step, hr]
  cases Registry.obtains_of_resolve hf with
  | kept entry | literal entry => simp [he] at entry
  | compiled => exact ⟨by simp, Table.get?_insert_self⟩

theorem count_compiled_eq_zero {step : SessionStep}
    (hc : ∀ src id, s.registry.formats.get? name = some (.template src) →
      s.obtained? step ≠ some (name, id)) (now : Timestamp) :
    (s.step now step).effects.count (.event (.formatCompiled name)) = 0 := by
  cases ho : s.obtained? step with
  | none => exact count_compiled_of_obtained_none ho now name
  | some x =>
      obtain ⟨text, id⟩ := x
      obtain ⟨ha, found, hf, rfl⟩ := act?_of_obtained ho
      rw [count_compiled_of_ask ha hf]
      cases Registry.obtains_of_resolve hf with
      | kept | literal => rfl
      | compiled entry =>
          have hne : text ≠ name := by
            rintro rfl
            exact hc _ _ entry ho
          simp [hne]

theorem compilations_cons (s : Session) (name : String) (now : Timestamp) (step : SessionStep)
    (rest : List (Timestamp × SessionStep)) :
    s.compilations name ((now, step) :: rest) =
      (s.step now step).effects.count (.event (.formatCompiled name)) +
        (s.step now step).session.compilations name rest := by
  simp [compilations, run_cons]

/-- Without a template under a name nothing is compiled for it. -/
theorem compilations_eq_zero (steps : List (Timestamp × SessionStep))
    (he : ∀ src, s.registry.formats.get? name ≠ some (.template src))
    (hd : ∀ x ∈ steps, x.2.defined? ≠ some name) : s.compilations name steps = 0 := by
  induction steps generalizing s with
  | nil => rfl
  | cons x steps ih =>
      obtain ⟨now, step⟩ := x
      have hc : ∀ src id, s.registry.formats.get? name = some (.template src) →
          s.obtained? step ≠ some (name, id) := fun src _ h => absurd h (he src)
      have hstay := get?_formats_step (hd (now, step) (by simp)) hc now
      rw [compilations_cons, count_compiled_eq_zero hc, Nat.zero_add]
      exact ih (fun src h => he src (hstay ▸ h)) fun y hy => hd y (by simp [hy])

/-- A template stands under its name until a line builder is obtained for it, and is compiled then
and not again. -/
theorem compilations_of_template (steps : List (Timestamp × SessionStep)) {src : String}
    (he : s.registry.formats.get? name = some (.template src))
    (hd : ∀ x ∈ steps, x.2.defined? ≠ some name) :
    match (s.obtainedFor name steps).head? with
    | none => s.compilations name steps = 0 ∧
        (s.run steps).2.registry.formats.get? name = some (.template src)
    | some id => s.compilations name steps = 1 ∧
        (s.run steps).2.registry.formats.get? name = some (.builder id) := by
  induction steps generalizing s with
  | nil => exact ⟨rfl, he⟩
  | cons x steps ih =>
      obtain ⟨now, step⟩ := x
      have hrest : ∀ y ∈ steps, y.2.defined? ≠ some name := fun y hy => hd y (by simp [hy])
      by_cases ho : ∃ id, s.obtained? step = some (name, id)
      · obtain ⟨id, ho⟩ := ho
        obtain ⟨hone, hid⟩ := count_compiled_of_template he ho now
        have hzero : (s.step now step).session.compilations name steps = 0 :=
          compilations_eq_zero steps (by simp [hid]) hrest
        have hids : (s.obtainedFor name ((now, step) :: steps)).head? = some id := by
          simp [obtainedFor, ho]
        rw [hids, compilations_cons, hone, hzero]
        exact ⟨rfl, entry_run_of_ne steps hid hrest⟩
      · have hc : ∀ src id, s.registry.formats.get? name = some (.template src) →
            s.obtained? step ≠ some (name, id) := fun _ id _ h => ho ⟨id, h⟩
        have hstay := get?_formats_step (hd (now, step) (by simp)) hc now
        have hids : s.obtainedFor name ((now, step) :: steps) =
            (s.step now step).session.obtainedFor name steps := by
          have hnone : (s.obtained? step).filter (fun x => x.1 = name) = none := by
            rw [Option.filter_eq_none_iff]
            rintro ⟨text, id⟩ hx
            simp only [decide_eq_true_eq]
            rintro rfl
            exact ho ⟨id, hx⟩
          simp [obtainedFor, hnone]
        rw [hids, compilations_cons, count_compiled_eq_zero hc, Nat.zero_add]
        exact ih (hstay.trans he) hrest

/-- Two steps obtain the same line builder exactly if both ask for one name, a format was defined
under it at the first of them, and none has been defined under it in between. So what is obtained
for a text that is no format's name is a line builder of its own. As long as no format is defined
under a name, its template is compiled at most once, when a line builder is first obtained for it,
and stands there until then. -/
theorem obtained_once (before between : List (Timestamp × SessionStep)) :
    let s := (Session.run {} before).2
    (∀ now step step' m n i j, s.obtained? step = some (m, i) →
      let t := ((s.step now step).session.run between).2
      t.obtained? step' = some (n, j) →
        (i = j ↔ m = n ∧ s.registry.hasFormat m = true ∧ ∀ x ∈ between, x.2.defined? ≠ some m) ∧
          (t.registry.hasFormat n = false → i ≠ j)) ∧
      ∀ name, (∀ x ∈ between, x.2.defined? ≠ some name) →
        s.compilations name between ≤ 1 ∧
          (s.obtainedFor name between = [] → s.compilations name between = 0) ∧
          ∀ src, s.registry.formats.get? name = some (.template src) →
            (s.run between).2.registry.formats.get? name =
              some ((s.obtainedFor name between).head?.elim (.template src) .builder) := by
  intro s
  have hs : s.registry.Distinct := distinct_run before
  constructor
  · intro now step step' m n i j hi t hj
    have hiff := obtained_eq_iff hs hi hj
    refine ⟨hiff, fun hn => ?_⟩
    rintro rfl
    obtain ⟨rfl, hd, hx⟩ := hiff.mp rfl
    have he : t.registry.formats.get? m = some (.builder i) :=
      entry_after_obtained hs hi hd now hx
    simp [Registry.hasFormat, Table.contains, he] at hn
  · intro name hd
    by_cases he : ∃ src, s.registry.formats.get? name = some (.template src)
    · obtain ⟨src, he⟩ := he
      have hc := compilations_of_template between he hd
      have hsrc : ∀ src', s.registry.formats.get? name = some (.template src') → src' = src :=
        fun src' h => Format.template.inj (Option.some.inj (h.symm.trans he))
      cases hids : s.obtainedFor name between with
      | nil =>
          simp only [hids, List.head?_nil] at hc ⊢
          refine ⟨by omega, fun _ => hc.1, fun src' h => ?_⟩
          rw [hsrc src' h]
          exact hc.2
      | cons id ids =>
          simp only [hids, List.head?_cons] at hc ⊢
          exact ⟨by omega, fun h => absurd h (List.cons_ne_nil _ _), fun _ _ => hc.2⟩
    · have hno : ∀ src, s.registry.formats.get? name ≠ some (.template src) :=
        fun src h => he ⟨src, h⟩
      have hzero := compilations_eq_zero between hno hd
      exact ⟨by omega, fun _ => hzero, fun src h => absurd h (hno src)⟩

end Session

end AccessLine
