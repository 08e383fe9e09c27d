import AccessLine.Log.Basic

/-!
# Sessions

One registry with any number of logs over it and any number of exchanges under way. A session is
driven step by step, and each step says what it answers and what can be seen from outside. A step
that fails changes nothing. An exchange that starts under a name in use takes the place of the
earlier one, which is dropped.
-/
namespace AccessLine

/-- The number of an item among those seen so far, and the items seen afterwards. A new item gets
the next number. -/
def numberOf {α : Type} [BEq α] (seen : List α) (x : α) : Nat × List α :=
  match seen.idxOf? x with
  | some n => (n, seen)
  | none => (seen.length, seen ++ [x])

/-- A step of a session. Logs and exchanges are known by names that the host chooses. -/
inductive SessionStep
  | token (name : String) (token : Evaluator)
  | format (name : String) (definition : Definition)
  | resolve (name : String)
  | hasFormat (name : String)
  | hasToken (name : String)
  | renderBuilder (shown : Nat) (request : RequestView) (response : ResponseView)
  | renderFormat (name : String) (request : RequestView) (response : ResponseView)
  | log (name : String) (settings : LogSettings)
  | clone (name source : String)
  | start (exchange log : String) (request : Request) (handler : Handler)
  | host (exchange : String) (step : HostStep)

/-- What a step answers. Line builders are numbered in the order in which answers first showed
them. -/
inductive SessionAnswer
  | done
  | flag (value : Bool)
  | builder (shown : Nat)
  | line (text : String)
  | host (answer : HostAnswer) (owed : Bool)
deriving DecidableEq

inductive SessionError
  | format (e : FormatError)
  | noBuilder (shown : Nat)
  | noLog (name : String)
  | noExchange (name : String)
deriving DecidableEq, Repr

def SessionError.message : SessionError → String
  | .format e => e.message
  | .noBuilder shown => "no line builder has the number " ++ toString shown
  | .noLog name => "no log is named " ++ name
  | .noExchange name => "no exchange is named " ++ name

/-- An exchange with the log that was there when it started. -/
structure Flight where
  log : AccessLog
  exchange : Exchange

structure Session where
  registry : Registry := .standard
  logs : Table AccessLog := ∅
  /-- The number of logs built so far. -/
  built : Nat := 0
  flights : Table Flight := ∅
  /-- The line builders that answers have shown, in order. -/
  shown : List BuilderId := []

structure SessionOutcome where
  answer : Except SessionError SessionAnswer
  session : Session
  effects : List Effect := []

namespace Session

def fail (s : Session) (e : SessionError) : SessionOutcome :=
  { answer := .error e, session := s }

/-- A step that only asks. -/
def reply (s : Session) (a : SessionAnswer) : SessionOutcome :=
  { answer := .ok a, session := s }

/-- What an operation of the registry leads to, once its answer is taken up by `f`. -/
def register {α : Type} (s : Session) (result : Except FormatError (Registered α))
    (f : Session → α → SessionAnswer × Session) : SessionOutcome :=
  match result with
  | .error e => s.fail (.format e)
  | .ok r =>
      let (answer, s) := f { s with registry := r.registry } r.value
      { answer := .ok answer, session := s, effects := r.events.map .event }

/-- Shows a line builder by its number, which is given out now if it has none. -/
def showBuilder (s : Session) (id : BuilderId) : SessionAnswer × Session :=
  let (n, shown) := numberOf s.shown id
  (.builder n, { s with shown })

def renderWith (s : Session) (id : BuilderId) (request : RequestView) (response : ResponseView) :
    SessionAnswer × Session :=
  let (line, r) := s.registry.render id request response
  (.line line, { s with registry := r })

/-- One step of a host in an exchange that is under way. -/
def stepHost (s : Session) (now : Timestamp) (name : String) (flight : Flight) (step : HostStep) :
    SessionOutcome :=
  let o := flight.exchange.step flight.log.immediate now step
  let (effects, r) := flight.log.notifyAll s.registry o.notices
  { answer := .ok (.host o.answer o.exchange.owes)
    session :=
      { s with
        registry := r
        flights := s.flights.insert name { flight with exchange := o.exchange } }
    effects }

/-- What dropping the exchange of a name leads to, if there is one. -/
def dropNamed (s : Session) (now : Timestamp) (name : String) : List Effect × Registry :=
  match s.flights.get? name with
  | none => ([], s.registry)
  | some flight =>
      let o := flight.exchange.step flight.log.immediate now .drop
      flight.log.notifyAll s.registry o.notices

/-- Starts an exchange in the place of the one that had its name. -/
def startFlight (s : Session) (now : Timestamp) (name : String) (flight : Flight) :
    SessionOutcome :=
  let (effects, r) := s.dropNamed now name
  { answer := .ok .done
    session := { s with registry := r, flights := s.flights.insert name flight }
    effects }

/-- One step. `now` is what the clock shows during it. -/
def step (s : Session) (now : Timestamp) : SessionStep → SessionOutcome
  | .token name token => s.register (s.registry.token name token) fun s _ => (.done, s)
  | .format name d => s.register (s.registry.format name d) fun s _ => (.done, s)
  | .resolve name => s.register (s.registry.resolve name) showBuilder
  | .hasFormat name => s.reply (.flag (s.registry.hasFormat name))
  | .hasToken name => s.reply (.flag (s.registry.hasToken name))
  | .renderBuilder n request response =>
      match s.shown[n]? with
      | none => s.fail (.noBuilder n)
      | some id =>
          let (answer, s) := s.renderWith id request response
          s.reply answer
  | .renderFormat name request response =>
      s.register (s.registry.resolve name) fun s id => s.renderWith id request response
  | .log name settings =>
      s.register (AccessLog.build settings s.built s.registry) fun s log =>
        showBuilder { s with logs := s.logs.insert name log, built := s.built + 1 } log.builder
  | .clone name source =>
      match s.logs.get? source with
      | none => s.fail (.noLog source)
      | some log =>
          let (answer, s) := showBuilder { s with logs := s.logs.insert name log } log.builder
          s.reply answer
  | .start exchange log request handler =>
      match s.logs.get? log with
      | none => s.fail (.noLog log)
      | some log => s.startFlight now exchange { log, exchange := .waiting request handler }
  | .host exchange step =>
      match s.flights.get? exchange with
      | none => s.fail (.noExchange exchange)
      | some flight => s.stepHost now exchange flight step

def run (s : Session) : List (Timestamp × SessionStep) → List SessionOutcome × Session
  | [] => ([], s)
  | (now, step) :: rest =>
      let o := s.step now step
      let (outcomes, s) := run o.session rest
      (o :: outcomes, s)

end Session

end AccessLine
