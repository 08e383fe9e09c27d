import AccessLine.Log.Basic
import AccessLine.Server.Listen

/-!
# Servers

A server accepts connections and serves each in a task of its own, which puts every request through
the log. The accept loop runs in turns. A turn looks for the shutdown signal first, then for a
connection that waits, then for a task that has finished. A connection that cannot be accepted is
passed over. Once it has seen the signal the server accepts nothing any more: it drains, and stops
when no task is left.

Who drives the exchanges is not said here. A library may keep them inside the task of their
connection or give each a task of its own, so an exchange can go on when the task of its connection
has finished, and even when the server has stopped.
-/
namespace AccessLine

open Net

/-- How far the task of a connection has come. The accept loop reaps a finished task, once. -/
inductive TaskStatus
  | running
  | finished
  | reaped
deriving DecidableEq, Repr

/-- An accepted connection, with the exchanges on it in the order of their requests. -/
structure Connection where
  peer : SocketAddress
  exchanges : List Exchange := []
  task : TaskStatus := .running

namespace Connection

/-- A request arrives. The server sets its peer, whatever it was before. -/
def receive (c : Connection) (request : Request) (handler : Handler) : Connection :=
  let exchange := Exchange.waiting { request with peer := some c.peer } handler
  { c with exchanges := c.exchanges ++ [exchange] }

/-- The task finishes. It takes no more requests. -/
def finish (c : Connection) : Connection :=
  { c with task := .finished }

/-- Reaps the first finished task. -/
def reapFirst : List Connection → List Connection
  | [] => []
  | c :: rest =>
      if c.task = .finished then { c with task := .reaped } :: rest else c :: reapFirst rest

end Connection

/-- What the accept loop is at. -/
inductive Phase
  | accepting
  | draining
  | stopped
deriving DecidableEq, Repr

structure Server where
  log : AccessLog
  registry : Registry
  phase : Phase := .accepting
  /-- The shutdown signal has been given, though the loop need not have seen it. -/
  signalled : Bool := false
  /-- What waits to be accepted: the peer of a connection, or nothing where accepting fails. -/
  waiting : List (Option SocketAddress) := []
  /-- The connections that were accepted, in order. -/
  connections : List Connection := []

/-- What happens around a server. Connections and the exchanges on each are counted from zero. A
fault makes accepting fail once. -/
inductive Happening
  | connect (peer : SocketAddress)
  | fault
  | request (connection : Nat) (request : Request) (handler : Handler)
  | host (connection exchange : Nat) (step : HostStep)
  | finish (connection : Nat)
  | signal
  | turn

/-- What a happening leads to. There is an answer to the step of a host only. -/
structure ServerOutcome where
  server : Server
  answer : Option HostAnswer := none
  notices : List Notice := []
  effects : List Effect := []

namespace Server

def start (n : Network) (a : SocketAddress) (log : AccessLog) (registry : Registry) :
    Except ServerError Server :=
  match n.listen a with
  | .ok _ => .ok { log, registry }
  | .error e => .error (.io e)

/-- The number of tasks that were not reaped. -/
def inFlight (s : Server) : Nat :=
  s.connections.countP (·.task ≠ .reaped)

/-- The connection whose task is at work. -/
def running? (s : Server) (i : Nat) : Option Connection :=
  (s.connections[i]?).filter (·.task = .running)

def accept (s : Server) (peer : SocketAddress) : Server :=
  { s with connections := s.connections ++ [{ peer }] }

def reap (s : Server) : Server :=
  { s with connections := Connection.reapFirst s.connections }

/-- One turn of the accept loop. -/
def turn (s : Server) : Server :=
  match s.phase with
  | .accepting =>
      if s.signalled then { s with phase := .draining }
      else
        match s.waiting with
        | some peer :: rest => { s with waiting := rest }.accept peer
        | none :: rest => { s with waiting := rest }
        | [] => s.reap
  | .draining => if s.inFlight = 0 then { s with phase := .stopped } else s.reap
  | .stopped => s

/-- Has the log act on notices, and puts a connection in its place. -/
def logging (s : Server) (i : Nat) (c : Connection) (notices : List Notice) : ServerOutcome :=
  let (effects, registry) := s.log.notifyAll s.registry notices
  { server := { s with registry, connections := s.connections.set i c }, notices, effects }

/-- A step of a host in one exchange of a connection. -/
def stepHost (s : Server) (now : Timestamp) (i : Nat) (c : Connection) (k : Nat)
    (step : HostStep) : ServerOutcome :=
  match c.exchanges[k]? with
  | none => { server := s, answer := some .misplaced }
  | some e =>
      let o := e.step s.log.immediate now step
      { s.logging i { c with exchanges := c.exchanges.set k o.exchange } o.notices with
        answer := some o.answer }

/-- What one happening leads to. `now` is what the clock shows. Requests come in while the task of
the connection is at work. -/
def step (s : Server) (now : Timestamp) : Happening → ServerOutcome
  | .connect peer => { server := { s with waiting := s.waiting ++ [some peer] } }
  | .fault => { server := { s with waiting := s.waiting ++ [none] } }
  | .signal => { server := { s with signalled := true } }
  | .turn => { server := s.turn }
  | .request i request handler =>
      match s.running? i with
      | none => { server := s }
      | some c => s.logging i (c.receive request handler) []
  | .host i k step =>
      match s.connections[i]? with
      | none => { server := s, answer := some .misplaced }
      | some c => s.stepHost now i c k step
  | .finish i =>
      match s.running? i with
      | none => { server := s }
      | some c => s.logging i c.finish []

def run (s : Server) : List (Timestamp × Happening) → List ServerOutcome × Server
  | [] => ([], s)
  | (now, h) :: rest =>
      let o := s.step now h
      let (outcomes, s) := run o.server rest
      (o :: outcomes, s)

end Server

end AccessLine
