import AccessLine.Server.Basic

/-!
# Clients

A client opens one connection after another and sends its requests on each one after another. It
reads every response to its end, or hangs up in the middle of it. When it has left, the server is
shut down and drained.
-/
namespace AccessLine

open Http Net

namespace Body

/-- A body of one chunk, or an empty one. -/
def chunk (bytes : List UInt8) : Body :=
  .scripted (if bytes = [] then [] else [.data bytes]) .exact
    { lower := bytes.length, upper := some bytes.length }

/-- A body that hands over one chunk and never comes to its end. -/
def endless (bytes : List UInt8) : Body where
  answer past := if .polled ∈ past then .pending else .data bytes
  atEnd _ := false
  sizeHint _ := {}

end Body

/-- One request of a client and what becomes of it. -/
structure Call where
  request : Request
  head : ResponseHead
  chunk : List UInt8 := []
  /-- The server is told to shut down while the exchange is under way. -/
  stops : Bool := false
  /-- The response does not end, and the client hangs up after the first chunk. -/
  hangs : Bool := false

namespace Call

def body (c : Call) : Body :=
  if c.hangs then .endless c.chunk else .chunk c.chunk

def handler (c : Call) : Handler where
  delay _ := 0
  reply _ := { head := c.head, body := c.body }

/-- What the host does with the exchange. One chunk is all there is to send, if a body is sent. -/
def hostSteps (c : Call) : List HostStep :=
  if sendsBody c.request.method c.head.status && !c.body.atEnd [] then [.poll, .frame, .drop]
  else [.poll, .drop]

/-- What happens when the call is the `k`-th on the `i`-th connection. -/
def happenings (i k : Nat) (c : Call) : List Happening :=
  .request i c.request c.handler ::
    ((if c.stops then [.signal, .turn] else []) ++ c.hostSteps.map (.host i k))

end Call

namespace Client

/-- The calls on the `i`-th connection, up to the one at which the client hangs up. -/
def talk (i k : Nat) : List Call → List Happening
  | [] => []
  | c :: rest => c.happenings i k ++ if c.hangs then [] else talk i (k + 1) rest

/-- The connections from the `i`-th on, and the shutdown after the last. -/
def visits (peer : SocketAddress) (i : Nat) : List (List Call) → List Happening
  | [] => [.signal, .turn, .turn]
  | calls :: rest =>
      [.connect peer, .turn] ++ talk i 0 calls ++ [.finish i, .turn] ++ visits peer (i + 1) rest

/-- The responses that reach the client, from what the hosts were answered. -/
def received : List HostAnswer → List (Status × List UInt8)
  | [] => []
  | .head status _ :: .body (.data bytes) :: rest => (status, bytes) :: received rest
  | .head status _ :: rest => (status, []) :: received rest
  | _ :: rest => received rest

/-- What a client gets, and the lines that the log writes meanwhile. -/
structure Visit where
  responses : List (Status × List UInt8)
  lines : List String
deriving DecidableEq

/-- A client with the address `peer` calls on a server, whose clock shows the given times. -/
def visit (s : Server) (clock : Nat → Timestamp) (peer : SocketAddress)
    (plan : List (List Call)) : Visit :=
  let happenings := visits peer 0 plan
  let (outcomes, _) := s.run (happenings.zipIdx.map fun h => (clock h.2, h.1))
  { responses := received (outcomes.filterMap (·.answer))
    lines := outcomes.flatMap fun o => o.effects.filterMap Effect.line? }

/-- A client calls on a server on its own machine. It gets nowhere if the network has no way to its
own address. -/
def visitOn (n : Network) (s : Server) (clock : Nat → Timestamp) (peer : SocketAddress)
    (plan : List (List Call)) : Except OsError Visit :=
  if plan = [] then .ok (visit s clock peer plan)
  else (n.connect peer.ip).map fun _ => visit s clock peer plan

end Client

end AccessLine
