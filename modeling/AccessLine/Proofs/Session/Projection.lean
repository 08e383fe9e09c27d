import AccessLine.Proofs.Exchange.Transparency
import AccessLine.Session.Basic

/-!
# One exchange of a session

Whatever else goes on in a session, an exchange takes part in it by the steps of its own host alone:
its answers and its state are those of its own run. So nothing that is logged, by its own log or by
another, comes back to its host.
-/
namespace AccessLine

def SessionStep.starts (name : String) : SessionStep → Bool
  | .start n _ _ _ => n = name
  | _ => false

/-- What a step asks of the exchange of a name, if it does. -/
def SessionStep.hostStep? (name : String) : SessionStep → Option HostStep
  | .host n h => if n = name then some h else none
  | _ => none

theorem SessionStep.hostStep?_eq_some_iff {name : String} {step : SessionStep} {h : HostStep} :
    step.hostStep? name = some h ↔ step = .host name h := by
  cases step <;> simp [hostStep?]

/-- What an exchange answers its host in a step. -/
def SessionOutcome.hostAnswer? (o : SessionOutcome) : Option HostAnswer :=
  match o.answer with
  | .ok (.host answer _) => some answer
  | _ => none

namespace Session

/-- The steps that a host takes with the exchange of a name. -/
def scriptOf (name : String) (steps : List (Timestamp × SessionStep)) : Script :=
  steps.filterMap fun x => (x.2.hostStep? name).map (x.1, ·)

/-- The answers to these steps. -/
def answersOf (name : String) (steps : List (Timestamp × SessionStep))
    (outcomes : List SessionOutcome) : List HostAnswer :=
  (steps.zip outcomes).filterMap fun x => (x.1.2.hostStep? name).bind fun _ => x.2.hostAnswer?

theorem flights_register {α : Type} (s : Session) (result : Except FormatError (Registered α))
    (f : Session → α → SessionAnswer × Session) (hf : ∀ t a, (f t a).2.flights = t.flights) :
    (s.register result f).session.flights = s.flights := by
  unfold register
  cases result with
  | error e => rfl
  | ok r => exact hf _ _

/-- A step that is not taken with an exchange leaves it as it is. -/
theorem get?_flights_step (s : Session) (now : Timestamp) (step : SessionStep) (name : String)
    (hs : step.starts name = false) (hh : ∀ h, step ≠ .host name h) :
    (s.step now step).session.flights.get? name = s.flights.get? name := by
  cases step with
  | token | format | resolve | renderFormat =>
      simp only [Session.step]
      rw [flights_register]
      intro t a
      rfl
  | hasFormat | hasToken => rfl
  | renderBuilder n request response =>
      simp only [Session.step]
      split <;> rfl
  | log n settings =>
      simp only [Session.step]
      rw [flights_register]
      intro t a
      rfl
  | clone n source =>
      simp only [Session.step]
      split <;> rfl
  | start n log request handler =>
      simp only [Session.step]
      split
      · rfl
      · have hn : name ≠ n := by simpa [SessionStep.starts, eq_comm] using hs
        exact Table.get?_insert_of_ne hn
  | host n h =>
      simp only [Session.step]
      split
      · rfl
      · have hn : name ≠ n := fun he => hh h (by rw [he])
        exact Table.get?_insert_of_ne hn

theorem step_host {s : Session} {name : String} {flight : Flight}
    (hf : s.flights.get? name = some flight) (now : Timestamp) (h : HostStep) :
    let o := flight.exchange.step flight.log.immediate now h
    (s.step now (.host name h)).answer = .ok (.host o.answer o.exchange.owes) ∧
      (s.step now (.host name h)).session.flights.get? name =
        some { flight with exchange := o.exchange } := by
  simp only [Session.step, hf]
  exact ⟨rfl, Table.get?_insert_self⟩

/-- An exchange goes its own way through a session. -/
theorem run_exchange (steps : List (Timestamp × SessionStep)) {s : Session} {name : String}
    {flight : Flight} (hf : s.flights.get? name = some flight)
    (hs : ∀ x ∈ steps, x.2.starts name = false) :
    let own := flight.exchange.run flight.log.immediate (scriptOf name steps)
    answersOf name steps (s.run steps).1 = own.1 ∧
      (s.run steps).2.flights.get? name = some { flight with exchange := own.2.1 } := by
  induction steps generalizing s flight with
  | nil => exact ⟨rfl, hf⟩
  | cons x steps ih =>
      obtain ⟨now, step⟩ := x
      have hrest : ∀ x ∈ steps, x.2.starts name = false := fun x hx => hs x (by simp [hx])
      cases hq : step.hostStep? name with
      | some h =>
          obtain rfl := SessionStep.hostStep?_eq_some_iff.mp hq
          obtain ⟨ha, hg⟩ := step_host hf now h
          obtain ⟨iha, ihg⟩ := ih hg hrest
          have hc : scriptOf name ((now, .host name h) :: steps) =
              (now, h) :: scriptOf name steps := by
            simp [scriptOf, hq]
          rw [hc, Exchange.run_cons]
          refine ⟨?_, ihg⟩
          rw [← iha]
          simp [run, answersOf, hq, SessionOutcome.hostAnswer?, ha]
      | none =>
          have hh : ∀ h, step ≠ .host name h := fun h he => by
            rw [SessionStep.hostStep?_eq_some_iff.mpr he] at hq
            contradiction
          have hg : (s.step now step).session.flights.get? name = some flight := by
            rw [get?_flights_step s now step name (hs (now, step) (by simp)) hh, hf]
          obtain ⟨iha, ihg⟩ := ih hg hrest
          have hc : scriptOf name ((now, step) :: steps) = scriptOf name steps := by
            simp [scriptOf, hq]
          rw [hc]
          refine ⟨?_, ihg⟩
          rw [← iha]
          simp [run, answersOf, hq]

/-- The log is invisible to the host. Through any session, and whatever is logged on the way, the
answers to the host are those of the handler and its body by themselves. The handler is called with
the request as it came and polled once for each poll of the host, and the body stands where it would
stand without the log. -/
theorem answersOf_eq_bare (steps : List (Timestamp × SessionStep)) (s : Session) (name : String)
    (log : AccessLog) (request : Request) (handler : Handler)
    (hf : s.flights.get? name = some { log, exchange := .waiting request handler })
    (hs : ∀ x ∈ steps, x.2.starts name = false) :
    let own := scriptOf name steps
    let logged := Exchange.run log.immediate (.waiting request handler) own
    let bare := BareExchange.run (.waiting request handler) (own.map (·.2))
    answersOf name steps (s.run steps).1 = bare.1 ∧
      (s.run steps).2.flights.get? name = some { log, exchange := logged.2.1 } ∧
      logged.2.1.bare = bare.2.1 ∧
      logged.2.2.filterMap Notice.called? = bare.2.2 ∧
      (bare.2.2 = [] ∨ bare.2.2 = [request]) ∧
      ∀ view reply left, logged.2.1 = .handling view reply left →
        left + (own.map (·.2)).count .poll = handler.delay request := by
  intro own logged bare
  obtain ⟨ha, hg⟩ := run_exchange steps hf hs
  obtain ⟨hb, he, hc⟩ := Exchange.run_bare log.immediate (.waiting request handler) own
  refine ⟨ha.trans hb, hg, he, hc, BareExchange.calls_run_waiting _ _ _, ?_⟩
  intro view reply left hl
  have hh : bare.2.1 = .handling reply left := by
    have hx : logged.2.1.bare = .handling reply left := by rw [hl]; rfl
    exact he.symm.trans hx
  exact BareExchange.left_add_polls hh

/-- A session with one exchange that is still to be polled. -/
def single (log : AccessLog) (handler : Handler) : Session where
  flights := (∅ : Table Flight).insert "a" { log, exchange := .waiting {} handler }

/-- A handler that answers at once, with a part, a pause and the trailers. -/
def trailing : Handler where
  delay _ := 0
  reply _ :=
    { head := { status := .ok },
      body := .scripted [.data [97], .pending, .trailers ∅] .exact {} }

/-- The host of the exchange at work, with steps of others in between. -/
def mixedSteps : List (Timestamp × SessionStep) :=
  [.host "a" .poll, .host "b" .poll, .host "a" .frame, .token "t" fun _ _ _ => none,
    .host "a" .info, .host "a" .frame, .hasToken "t", .host "a" .frame, .host "a" .drop].map
    (⟨0, 0⟩, ·)

theorem answersOf_trailing :
    answersOf "a" mixedSteps ((single { serial := 0, builder := 0 } trailing).run mixedSteps).1 =
      [.head .ok ∅, .body (.data [97]), .info false {}, .body .pending, .body (.trailers ∅),
        .dropped] :=
  (answersOf_eq_bare mixedSteps (single { serial := 0, builder := 0 } trailing) "a"
    { serial := 0, builder := 0 } {} trailing rfl (by decide)).1

end Session

end AccessLine
