import AccessLine.Exchange.Basic

/-!
# Exchanges without a log

The same handler and the same body, driven by a host directly.
-/
namespace AccessLine

inductive BareExchange
  | waiting (request : Request) (handler : Handler)
  | handling (reply : Reply) (delay : Nat)
  | answered (body : Body) (past : BodyPast)
  | gone

namespace BareExchange

def handle (reply : Reply) : Nat → HostAnswer × BareExchange
  | delay + 1 => (.pending, .handling reply delay)
  | 0 => (.head reply.head.status reply.head.headers, .answered reply.body [])

/-- One step of the host, with the request that the handler is called with in it, if it is. -/
def step : BareExchange → HostStep → HostAnswer × BareExchange × Option Request
  | .waiting request handler, .poll =>
      let (answer, e) := handle (handler.reply request) (handler.delay request)
      (answer, e, some request)
  | .handling reply delay, .poll =>
      let (answer, e) := handle reply delay
      (answer, e, none)
  | .answered b past, .frame => (.body (b.answer past), .answered b (.polled :: past), none)
  | .answered b past, .info =>
      (.info (b.atEnd past) (b.sizeHint past), .answered b past, none)
  | .answered b past, .wait => (.pending, .answered b (.fed :: past), none)
  | .gone, .drop => (.misplaced, .gone, none)
  | _, .drop => (.dropped, .gone, none)
  | e, _ => (.misplaced, e, none)

/-- Several steps of a host. -/
def run (e : BareExchange) : List HostStep → List HostAnswer × BareExchange × List Request
  | [] => ([], e, [])
  | s :: rest =>
      let (answer, e, called) := e.step s
      let (answers, e, requests) := run e rest
      (answer :: answers, e, called.toList ++ requests)

end BareExchange

end AccessLine
