import AccessLine.Exchange.Basic
import AccessLine.Registry.Basic

/-!
# Access logs

A log is built once: its format is resolved then and not again. When a line is due the log first
asks whether to leave it out. Otherwise its line builder writes the line, with the tokens that are
registered at that moment, and the line goes to the log's sink. Which lines are left out is chosen
by both sides of the exchange as they are when the line is due.
-/
namespace AccessLine

/-- Whether the line of an exchange is left out. -/
abbrev Skip :=
  RequestView → ResponseView → Bool

namespace Skip

def always : Skip := fun _ _ => true

def path (path : String) : Skip := fun request _ => request.uri.path = path

def statusBelow (limit : Nat) : Skip := fun _ response =>
  response.status?.any (·.code < limit)

def pending : Skip := fun _ response => response.status?.isNone

def unfinished : Skip := fun _ response => response.finished.isNone

def requestHeader (name : String) : Skip := fun request _ => (request.header? name).isSome

def responseHeader (name : String) : Skip := fun _ response => (response.header? name).isSome

end Skip

/-- Where lines go: to a collector of the host's own, or among the events. -/
inductive Sink
  | collector
  | events
deriving DecidableEq, Repr

structure LogSettings where
  format : String := Registry.defaultFormat
  immediate : Bool := false
  skip : Option Skip := none
  sink : Sink := .events

/-- A log. The serial number tells it from every other log. -/
structure AccessLog where
  serial : Nat
  builder : BuilderId
  immediate : Bool := false
  skip : Option Skip := none
  sink : Sink := .events

/-- A line that was due at a log. There is none if it was left out. -/
structure Emission where
  log : Nat
  sink : Sink
  request : RequestView
  response : ResponseView
  line : Option String
deriving DecidableEq

/-- What can be seen from outside. -/
inductive Effect
  | event (e : Event)
  | emission (e : Emission)
deriving DecidableEq

namespace Effect

def line? : Effect → Option String
  | .emission { sink := .collector, line, .. } => line
  | _ => none

def event? : Effect → Option Event
  | .event e => some e
  | .emission { sink := .events, line, .. } => line.map .line
  | _ => none

end Effect

namespace AccessLog

/-- Resolves the format and builds the log. -/
def build (settings : LogSettings) (serial : Nat) (r : Registry) :
    Except FormatError (Registered AccessLog) :=
  (r.resolve settings.format).map fun found =>
    { value :=
        { serial, builder := found.value, immediate := settings.immediate, skip := settings.skip,
          sink := settings.sink }
      registry := found.registry
      events := found.events ++ [.logReady settings.format settings.immediate] }

def skips (log : AccessLog) (request : RequestView) (response : ResponseView) : Bool :=
  log.skip.any fun skip => skip request response

def emit (log : AccessLog) (r : Registry) (request : RequestView) (response : ResponseView) :
    Emission × Registry :=
  let emission := { log := log.serial, sink := log.sink, request, response, line := none }
  if log.skips request response then (emission, r)
  else
    let (line, r) := r.render log.builder request response
    ({ emission with line := some line }, r)

/-- What one notice of an exchange leads to. -/
def notify (log : AccessLog) (r : Registry) : Notice → List Effect × Registry
  | .called _ => ([], r)
  | .headReady request status => ([.event (.headReady request.method request.uri status)], r)
  | .emission request response =>
      let (emission, r) := log.emit r request response
      ([.emission emission], r)
  | .bodyFailed request => ([.event (.bodyFailed request.method request.uri)], r)
  | .droppedEarly request => ([.event (.droppedEarly request.method request.uri)], r)

def notifyAll (log : AccessLog) (r : Registry) : List Notice → List Effect × Registry
  | [] => ([], r)
  | n :: rest =>
      let (effects, r) := log.notify r n
      let (more, r) := notifyAll log r rest
      (effects ++ more, r)

end AccessLog

end AccessLine
