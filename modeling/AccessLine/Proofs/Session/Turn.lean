import AccessLine.Proofs.Registry.Lines
import AccessLine.Proofs.Session.Projection

/-!
# Turns of an exchange

A step that is taken with an exchange looks at that exchange and at the logs, and changes that
exchange alone. Beside that it leaves notices at a log, and these do nothing to the registry but
fill in colored variants. So two steps that are taken with different exchanges can change places.
-/
namespace AccessLine

/-- Steps with the clock reading that each takes place at. -/
abbrev Schedule := List (Timestamp × SessionStep)

/-- The exchange that a step is taken with. -/
def SessionStep.exchange? : SessionStep → Option String
  | .start name _ _ _ | .host name _ => some name
  | _ => none

/-- The name of the log that a step starts an exchange with. -/
def SessionStep.source? : SessionStep → Option String
  | .start _ source _ _ => some source
  | _ => none

/-- What a host step leaves at the log of an exchange. -/
def Flight.told (flight : Flight) (now : Timestamp) (h : HostStep) : AccessLog × List Notice :=
  (flight.log, (flight.exchange.step flight.log.immediate now h).notices)

/-- The exchange after a host step. -/
def Flight.after (flight : Flight) (now : Timestamp) (h : HostStep) : Flight :=
  { flight with exchange := (flight.exchange.step flight.log.immediate now h).exchange }

/-- What a step is for its exchange: the answer, what is under way afterwards, and the notices that
a log is left. -/
structure Turn where
  answer : Except SessionError SessionAnswer
  flight? : Option Flight
  told : Option (AccessLog × List Notice) := none

/-- The turn of an exchange, from the logs there are and from what is under way. -/
def SessionStep.turn (logs : Table AccessLog) (flight? : Option Flight) (now : Timestamp) :
    SessionStep → Turn
  | .start _ source request handler =>
      match logs.get? source with
      | none => { answer := .error (.noLog source), flight? }
      | some found =>
          { answer := .ok .done
            flight? := some { log := found, exchange := .waiting request handler }
            told := flight?.map fun flight => flight.told now .drop }
  | .host name h =>
      match flight? with
      | none => { answer := .error (.noExchange name), flight? }
      | some flight =>
          let o := flight.exchange.step flight.log.immediate now h
          { answer := .ok (.host o.answer o.exchange.owes)
            flight? := some (flight.after now h)
            told := some (flight.told now h) }
  | _ => { answer := .ok .done, flight? }

namespace SessionStep

variable {logs : Table AccessLog} {flight? : Option Flight} {now : Timestamp} {x : SessionStep}

/-- Of the logs a turn reads the one that an exchange is started with. -/
theorem turn_congr {logs' : Table AccessLog}
    (h : ∀ source, x.source? = some source → logs'.get? source = logs.get? source) :
    x.turn logs' flight? now = x.turn logs flight? now := by
  cases x with
  | start name source request handler => simp only [turn, h source rfl]
  | _ => rfl

/-- What is under way after a turn: what was before, a new exchange, or the exchange one step
later. -/
theorem flight_of_turn {flight : Flight} (h : (x.turn logs flight? now).flight? = some flight) :
    flight? = some flight ∨
      (∃ source request handler, x.source? = some source ∧ logs.get? source = some flight.log ∧
        flight.exchange = .waiting request handler) ∨
      ∃ earlier k, flight? = some earlier ∧ flight = earlier.after now k := by
  cases x with
  | start name source request handler =>
      cases hl : logs.get? source with
      | none => exact .inl (by simpa [turn, hl] using h)
      | some log =>
          have hf : { log, exchange := .waiting request handler } = flight := by
            simpa [turn, hl] using h
          subst hf
          exact .inr (.inl ⟨source, request, handler, rfl, hl, rfl⟩)
  | host name k =>
      cases flight? with
      | none => cases h
      | some earlier =>
          obtain rfl := Option.some.inj h
          exact .inr (.inr ⟨earlier, k, rfl, rfl⟩)
  | _ => exact .inl h

/-- What a turn tells, it tells the log of the exchange that was under way. -/
theorem exists_of_told {told : AccessLog × List Notice}
    (h : (x.turn logs flight? now).told = some told) :
    ∃ flight k, flight? = some flight ∧ told = flight.told now k := by
  cases x with
  | start name source request handler =>
      cases hl : logs.get? source with
      | none => simp [turn, hl] at h
      | some log =>
          have ht : flight?.map (·.told now .drop) = some told := by simpa [turn, hl] using h
          obtain ⟨flight, hf, rfl⟩ := Option.map_eq_some_iff.mp ht
          exact ⟨flight, .drop, hf, rfl⟩
  | host name k =>
      cases flight? with
      | none => cases h
      | some flight =>
          obtain rfl := Option.some.inj h
          exact ⟨flight, k, rfl, rfl⟩
  | _ => cases h

end SessionStep

namespace Turn

def effects (t : Turn) (r : Registry) : List Effect :=
  t.told.elim [] fun x => x.2.flatMap (x.1.effects r)

def noted (t : Turn) : Registry → Registry :=
  t.told.elim id fun x => x.1.notedAll x.2

theorem sameLines_noted (t : Turn) (r : Registry) : r.SameLines (t.noted r) := by
  unfold noted
  cases t.told with
  | none => exact .rfl
  | some x => exact (x.1.writes_notedAll x.2 r).sameLines

theorem effects_congr (t : Turn) {r r' : Registry} (h : r.SameLines r') :
    t.effects r' = t.effects r := by
  simp only [effects, AccessLog.effects_congr _ h]

theorem noted_comm (t t' : Turn) : Function.Commute t.noted t'.noted := by
  unfold noted
  cases t.told with
  | none => exact .id_left
  | some x =>
      cases t'.told with
      | none => exact .id_right
      | some x' => exact AccessLog.notedAll_comm _ _ _ _

end Turn

/-- What is seen of a step: its answer and its effects. -/
abbrev Seen := Except SessionError SessionAnswer × List Effect

def SessionOutcome.seen (o : SessionOutcome) : Seen :=
  (o.answer, o.effects)

namespace Session

variable {s : Session} {x y : SessionStep} {a b : String}

/-- The turn that a step is for the exchange of a name. -/
def turn (s : Session) (name : String) (now : Timestamp) (x : SessionStep) : Turn :=
  x.turn s.logs (s.flights.get? name) now

/-- A session after a turn of the exchange of a name. -/
def take (s : Session) (name : String) (t : Turn) : Session :=
  { s with registry := t.noted s.registry, flights := s.flights.put name t.flight? }

theorem step_eq_turn (hx : x.exchange? = some a) (now : Timestamp) :
    s.step now x =
      { answer := (s.turn a now x).answer
        session := s.take a (s.turn a now x)
        effects := (s.turn a now x).effects s.registry } := by
  cases x with
  | start name log request handler =>
      obtain rfl := Option.some.inj hx
      cases hl : s.logs.get? log with
      | none =>
          simp [Session.step, turn, SessionStep.turn, take, hl, fail, Turn.effects, Turn.noted]
      | some log =>
          cases hf : s.flights.get? name <;>
            simp [Session.step, turn, SessionStep.turn, take, hl, hf, startFlight, dropNamed,
              Turn.effects, Turn.noted, Flight.told, AccessLog.notifyAll_eq, Table.insert_eq_put]
  | host name h =>
      obtain rfl := Option.some.inj hx
      cases hf : s.flights.get? name with
      | none =>
          have hp : s.flights.put name none = s.flights := hf ▸ Table.put_get?
          simp [Session.step, turn, SessionStep.turn, take, hf, hp, fail, Turn.effects, Turn.noted]
      | some flight =>
          simp [Session.step, turn, SessionStep.turn, take, hf, stepHost, Turn.effects, Turn.noted,
            Flight.told, Flight.after, AccessLog.notifyAll_eq, Table.insert_eq_put]
  | _ => cases hx

/-- Steps that are taken with no exchange leave all of them as they are. -/
theorem flights_step (hx : x.exchange? = none) (now : Timestamp) :
    (s.step now x).session.flights = s.flights := by
  ext1
  funext name
  apply get?_flights_step
  · cases x with
    | start => cases hx
    | _ => rfl
  · rintro h rfl
    cases hx

/-- An exchange is left alone by the steps of others. -/
theorem get?_flights_of_ne (hx : x.exchange? ≠ some a) (now : Timestamp) :
    (s.step now x).session.flights.get? a = s.flights.get? a := by
  cases he : x.exchange? with
  | none => rw [flights_step he]
  | some b =>
      have hb : a ≠ b := fun e => hx (e ▸ he)
      rw [step_eq_turn he, take, Table.get?_put_of_ne hb]

/-- A turn of one exchange leaves the turns of another as they are. -/
theorem turn_take (hab : b ≠ a) (t : Turn) (now : Timestamp) :
    (s.take a t).turn b now y = s.turn b now y := by
  simp only [turn, take, Table.get?_put_of_ne hab]

theorem take_comm (hab : a ≠ b) (t t' : Turn) :
    (s.take a t).take b t' = (s.take b t').take a t := by
  have hr : t'.noted (t.noted s.registry) = t.noted (t'.noted s.registry) :=
    (t'.noted_comm t s.registry)
  simp only [take, hr, Table.put_comm hab]

/-- Two steps that are taken with different exchanges, in both orders. -/
theorem step_swap (hx : x.exchange? = some a) (hy : y.exchange? = some b) (hab : a ≠ b)
    (t u : Timestamp) :
    ((s.step u y).session.step t x).seen = (s.step t x).seen ∧
      (s.step u y).seen = ((s.step t x).session.step u y).seen ∧
      ((s.step u y).session.step t x).session = ((s.step t x).session.step u y).session := by
  have effects_take (n : String) (v w : Turn) :
      v.effects (s.take n w).registry = v.effects s.registry :=
    v.effects_congr (w.sameLines_noted s.registry)
  simp only [step_eq_turn hx, step_eq_turn hy, turn_take hab, turn_take hab.symm,
    SessionOutcome.seen, effects_take, true_and]
  exact take_comm hab.symm _ _

end Session

end AccessLine
