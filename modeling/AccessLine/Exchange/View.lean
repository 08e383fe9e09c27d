import AccessLine.Http.Header
import AccessLine.Http.Method
import AccessLine.Http.Uri
import AccessLine.Net.Address
import AccessLine.Timestamp

/-!
# Both sides of an exchange

A request with what its host knows about the connection, and the two read-only views from which a
log line is written: the request with the time of its arrival, and the response as far as it has
come.
-/
namespace AccessLine

open Http Net

/-- A request. A host that changes URIs on their way records the one that the client sent. A
connection layer or a trusted proxy can name the client; the peer is the other end of the
connection. -/
structure Request where
  method : Method := .get
  uri : Uri := default
  version : Version := .http11
  headers : Headers := ∅
  clientUri : Option Uri := none
  clientIp : Option IpAddress := none
  proxiedIp : Option IpAddress := none
  peer : Option SocketAddress := none
deriving DecidableEq

/-- A request as a log line sees it. -/
structure RequestView extends Request where
  received : Option Timestamp := none
deriving DecidableEq

def Request.viewAt (r : Request) (now : Timestamp) : RequestView :=
  { r with received := some now }

namespace Request

/-- The best known address of the client: from the connection layer, else from the proxy, else the
peer's. -/
def remoteIp (r : Request) : Option IpAddress :=
  (r.clientIp.or r.proxiedIp).or (r.peer.map SocketAddress.ip)

/-- The URI that the client sent. -/
def loggedUri (r : Request) : Uri :=
  r.clientUri.getD r.uri

/-- All values of a header as one text. -/
def header? (r : Request) (name : String) : Option String :=
  r.headers.joined? name

end Request

structure ResponseHead where
  status : Status
  headers : Headers := ∅
deriving DecidableEq

/-- A response as a log line sees it. It is pending until its head is final. -/
structure ResponseView where
  head : Option ResponseHead := none
  finished : Option Timestamp := none
deriving DecidableEq

namespace ResponseView

/-- Nothing is known of the response. -/
def pending : ResponseView := {}

def finishedAt (r : ResponseView) (now : Timestamp) : ResponseView :=
  { r with finished := some now }

def status? (r : ResponseView) : Option Status :=
  r.head.map (·.status)

/-- All values of a header as one text. A pending response has none. -/
def header? (r : ResponseView) (name : String) : Option String :=
  r.head.bind (·.headers.joined? name)

end ResponseView

end AccessLine
