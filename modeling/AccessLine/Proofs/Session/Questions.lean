import AccessLine.Proofs.Session.Binding

/-!
# Questions to a log

Whether a line is left out is a question to the predicate of its log. Here a session is run with
every such question put to an `ask` that can do more than answer, so that what is asked, and how
often, can be seen. With a record of the questions the session is the same as without, and a log
with a predicate is asked once for each of its emissions, about the two sides that the line is
written from.
-/
namespace AccessLine

/-- Is the line of an exchange left out? -/
structure Question where
  log : Nat
  request : RequestView
  response : ResponseView
deriving DecidableEq

def Emission.question (e : Emission) : Question where
  log := e.log
  request := e.request
  response := e.response

/-- The emission of the log with a serial number. -/
def Effect.emissionOf? (n : Nat) : Effect → Option Emission
  | .emission e => if e.log = n then some e else none
  | .event _ => none

/-- The emissions of the log with a serial number, in order. -/
def SessionOutcome.emissionsOf (n : Nat) (o : SessionOutcome) : List Emission :=
  o.effects.filterMap (Effect.emissionOf? n)

def Session.emissionsOf (n : Nat) (outcomes : List SessionOutcome) : List Emission :=
  outcomes.flatMap (SessionOutcome.emissionsOf n)

section Asking

variable {m : Type → Type} [Monad m] (ask : Skip → Question → m Bool)

namespace AccessLog

/-- `skips`, with the question put to `ask`. -/
def skipsBy (log : AccessLog) (request : RequestView) (response : ResponseView) : m Bool :=
  match log.skip with
  | none => pure false
  | some skip => ask skip { log := log.serial, request, response }

/-- `emit`, with the question put to `ask`. -/
def emitBy (log : AccessLog) (r : Registry) (request : RequestView) (response : ResponseView) :
    m (Emission × Registry) := do
  let emission := { log := log.serial, sink := log.sink, request, response, line := none }
  if ← log.skipsBy ask request response then return (emission, r)
  else
    let (line, r) := r.render log.builder request response
    return ({ emission with line := some line }, r)

def notifyBy (log : AccessLog) (r : Registry) : Notice → m (List Effect × Registry)
  | .emission request response => do
      let (emission, r) ← log.emitBy ask r request response
      return ([.emission emission], r)
  | n => return log.notify r n

def notifyAllBy (log : AccessLog) (r : Registry) : List Notice → m (List Effect × Registry)
  | [] => return ([], r)
  | n :: rest => do
      let (effects, r) ← log.notifyBy ask r n
      let (more, r) ← notifyAllBy log r rest
      return (effects ++ more, r)

end AccessLog

namespace Session

/-- `step`, with the questions put to `ask`. Only a turn of an exchange has any. -/
def stepBy (s : Session) (now : Timestamp) (x : SessionStep) : m SessionOutcome :=
  match x.exchange? with
  | none => return s.step now x
  | some a => do
      let t := s.turn a now x
      let (effects, r) ← t.told.elim (pure ([], s.registry)) fun told =>
        told.1.notifyAllBy ask s.registry told.2
      return {
        answer := t.answer
        session := { s with registry := r, flights := s.flights.put a t.flight? }
        effects }

/-- `run`, with the questions put to `ask`. -/
def runBy (s : Session) : Schedule → m (List SessionOutcome × Session)
  | [] => return ([], s)
  | (now, x) :: rest => do
      let o ← s.stepBy ask now x
      let (outcomes, s) ← runBy o.session rest
      return (o :: outcomes, s)

end Session

end Asking

/-- Answers as the predicate does, and keeps the question. -/
def record : Skip → Question → StateM (List Question) Bool := fun skip q asked =>
  (skip q.request q.response, asked ++ [q])

theorem run_pure_record {α : Type} (a : α) (asked : List Question) :
    (pure a : StateM (List Question) α).run asked = (a, asked ++ []) :=
  congrArg (Prod.mk a) (List.append_nil asked).symm

namespace AccessLog

variable (log : AccessLog)

/-- What a notice gives occasion to ask. -/
def questionsAt : Notice → List Question
  | .emission request response => log.skip.toList.map fun _ => ⟨log.serial, request, response⟩
  | _ => []

theorem skipsBy_record (request : RequestView) (response : ResponseView)
    (asked : List Question) :
    (log.skipsBy record request response).run asked =
      (log.skips request response, asked ++ log.questionsAt (.emission request response)) := by
  unfold skipsBy skips questionsAt
  cases log.skip with
  | none => exact run_pure_record _ _
  | some skip => rfl

theorem emitBy_record (r : Registry) (request : RequestView) (response : ResponseView)
    (asked : List Question) :
    (log.emitBy record r request response).run asked =
      (log.emit r request response, asked ++ log.questionsAt (.emission request response)) := by
  simp only [emitBy, StateT.run_bind, skipsBy_record, emit]
  cases log.skips request response <;> rfl

theorem notifyBy_record (r : Registry) (n : Notice) (asked : List Question) :
    (log.notifyBy record r n).run asked = (log.notify r n, asked ++ log.questionsAt n) := by
  cases n with
  | emission request response =>
      simp only [notifyBy, StateT.run_bind, emitBy_record]
      rfl
  | called | headReady | bodyFailed | droppedEarly => exact run_pure_record _ _

theorem notifyAllBy_record (r : Registry) (ns : List Notice) (asked : List Question) :
    (log.notifyAllBy record r ns).run asked =
      (log.notifyAll r ns, asked ++ ns.flatMap log.questionsAt) := by
  induction ns generalizing r asked with
  | nil => exact run_pure_record _ _
  | cons n ns ih =>
      simp only [notifyAllBy, StateT.run_bind, notifyBy_record, ih, notifyAll, List.flatMap_cons,
        ← List.append_assoc]
      rfl

/-- The log with a serial number has this predicate, or none. -/
def Follows (n : Nat) (skip : Option Skip) (log : AccessLog) : Prop :=
  log.serial = n → log.skip = skip

variable {log} {n : Nat} {p : Skip}

/-- A predicate is asked when its log emits, and only then. -/
theorem Follows.filter_questionsAt (h : log.Follows n (some p)) (r : Registry) (notice : Notice) :
    (log.questionsAt notice).filter (·.log = n) =
      ((log.effects r notice).filterMap (Effect.emissionOf? n)).map Emission.question := by
  cases notice with
  | called | headReady | bodyFailed | droppedEarly => rfl
  | emission request response =>
      by_cases hn : log.serial = n
      · simp [questionsAt, h hn, effects, Effect.emissionOf?, emission, Emission.question, hn]
      · cases hs : log.skip <;> simp [questionsAt, hs, effects, Effect.emissionOf?, emission, hn]

end AccessLog

/-- What the notices of a turn give occasion to ask. -/
def Turn.questionsAt (t : Turn) : List Question :=
  t.told.elim [] fun told => told.2.flatMap told.1.questionsAt

theorem Turn.filter_questionsAt {t : Turn} {n : Nat} {p : Skip} (r : Registry)
    (h : ∀ told, t.told = some told → told.1.Follows n (some p)) :
    t.questionsAt.filter (·.log = n) =
      ((t.effects r).filterMap (Effect.emissionOf? n)).map Emission.question := by
  unfold questionsAt effects
  cases ht : t.told with
  | none => rfl
  | some told =>
      simp only [Option.elim_some, List.filter_flatMap, List.filterMap_flatMap, List.map_flatMap,
        (h told ht).filter_questionsAt r]

namespace Session

variable {s : Session} {x : SessionStep} {l : Schedule} {n : Nat} {p : Skip}

/-- The questions of a step. -/
def questionsAt (s : Session) (now : Timestamp) (x : SessionStep) : List Question :=
  x.exchange?.elim [] fun a => (s.turn a now x).questionsAt

/-- The questions of a run, in order. -/
def questions (s : Session) : Schedule → List Question
  | [] => []
  | (now, x) :: l => s.questionsAt now x ++ (s.step now x).session.questions l

theorem stepBy_record (s : Session) (now : Timestamp) (x : SessionStep) (asked : List Question) :
    (s.stepBy record now x).run asked = (s.step now x, asked ++ s.questionsAt now x) := by
  unfold stepBy questionsAt
  cases hx : x.exchange? with
  | none => exact run_pure_record _ _
  | some a =>
      simp only [step_eq_turn hx, Option.elim_some, Turn.questionsAt, Turn.effects, take,
        Turn.noted]
      cases (s.turn a now x).told with
      | none => exact run_pure_record _ _
      | some told =>
          simp only [Option.elim_some, StateT.run_bind, AccessLog.notifyAllBy_record,
            AccessLog.notifyAll_eq]
          rfl

/-- A run that keeps its questions is the run itself. -/
theorem runBy_record (l : Schedule) (s : Session) (asked : List Question) :
    (s.runBy record l).run asked = (s.run l, asked ++ s.questions l) := by
  induction l generalizing s asked with
  | nil => exact run_pure_record _ _
  | cons x l ih =>
      simp only [runBy, StateT.run_bind, stepBy_record, ih, questions, ← List.append_assoc]
      rfl

theorem mem_emissionsOf {outcomes : List SessionOutcome} {e : Emission} :
    e ∈ emissionsOf n outcomes ↔ e.log = n ∧ ∃ o ∈ outcomes, .emission e ∈ o.effects := by
  have heffect (f : Effect) : Effect.emissionOf? n f = some e ↔ f = .emission e ∧ e.log = n := by
    cases f with
    | event e' => simp [Effect.emissionOf?]
    | emission e' =>
        simp only [Effect.emissionOf?, Option.ite_none_right_eq_some, Option.some.injEq,
          Effect.emission.injEq]
        constructor
        · rintro ⟨hn, rfl⟩
          exact ⟨rfl, hn⟩
        · rintro ⟨rfl, hn⟩
          exact ⟨hn, rfl⟩
  simp only [emissionsOf, SessionOutcome.emissionsOf, List.mem_flatMap, List.mem_filterMap, heffect]
  constructor
  · rintro ⟨o, ho, _, he, rfl, hn⟩
    exact ⟨hn, o, ho, he⟩
  · rintro ⟨hn, o, ho, he⟩
    exact ⟨o, ho, _, he, rfl, hn⟩

theorem emissionsOf_eq_nil (hx : x.exchange? = none) (now : Timestamp) :
    (s.step now x).emissionsOf n = [] := by
  rw [SessionOutcome.emissionsOf, List.filterMap_eq_nil_iff]
  intro f hf
  cases f with
  | event e => rfl
  | emission e => exact absurd hf (emission_not_mem_step hx now e)

theorem filter_questionsAt (hs : s.HoldsOnly (AccessLog.Follows n (some p))) (now : Timestamp)
    (x : SessionStep) :
    (s.questionsAt now x).filter (·.log = n) =
      ((s.step now x).emissionsOf n).map Emission.question := by
  cases hx : x.exchange? with
  | none => simp [questionsAt, hx, emissionsOf_eq_nil hx]
  | some a =>
      simp only [questionsAt, hx, Option.elim_some, SessionOutcome.emissionsOf, step_eq_turn hx]
      exact Turn.filter_questionsAt _ fun _ => hs.of_told

/-- A predicate is asked once for each emission of its log, about the sides of the exchange that the
emission is for. -/
theorem filter_questions (hs : s.HoldsOnly (AccessLog.Follows n (some p)))
    (hl : s.BuildsOnly (AccessLog.Follows n (some p)) l) :
    (s.questions l).filter (·.log = n) =
      (emissionsOf n (s.run l).1).map Emission.question := by
  induction l generalizing s with
  | nil => rfl
  | cons x l ih =>
      have hrest := ih (hs.step hl.1 x.1) hl.2
      have hrun : (s.run (x :: l)).1 = s.step x.1 x.2 :: ((s.step x.1 x.2).session.run l).1 := rfl
      rw [questions, List.filter_append, filter_questionsAt hs, hrest, hrun]
      simp only [emissionsOf, List.flatMap_cons, List.map_append]

end Session

end AccessLine
