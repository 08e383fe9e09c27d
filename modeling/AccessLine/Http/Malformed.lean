import AccessLine.Http.Header
import AccessLine.Http.Method
import AccessLine.Http.Uri
import AccessLine.Net.Address

/-!
# Malformed messages

Why a part of a message or an address cannot be read, and the readers that say so.
-/
namespace AccessLine.Http

inductive Malformed
  | method
  | status
  | headerName
  | headerValue
  | uri (e : UriError)
  | ipAddress
  | socketAddress
deriving DecidableEq, Repr

def Malformed.message : Malformed → String
  | .method => "invalid HTTP method"
  | .status => "invalid status code"
  | .headerName => "invalid HTTP header name"
  | .headerValue => "failed to parse header value"
  | .uri e => e.message
  | .ipAddress => "invalid IP address syntax"
  | .socketAddress => "invalid socket address syntax"

/-- The value of a reader, or the given complaint. -/
def orElse {α : Type} (e : Malformed) : Option α → Except Malformed α
  | some x => .ok x
  | none => .error e

def readMethod (text : String) : Except Malformed Method :=
  orElse .method (Method.ofString? text)

def readStatus (code : Nat) : Except Malformed Status :=
  orElse .status (Status.ofNat? code)

def readUri (text : String) : Except Malformed Uri :=
  (Uri.parse text).mapError .uri

def readIpAddress (text : String) : Except Malformed Net.IpAddress :=
  orElse .ipAddress (Net.IpAddress.ofString? text)

def readSocketAddress (text : String) : Except Malformed Net.SocketAddress :=
  orElse .socketAddress (Net.SocketAddress.ofString? text)

/-- Appends fields in order. Of each field the name is read first. -/
def readHeaders : Headers → List (List UInt8 × List UInt8) → Except Malformed Headers
  | h, [] => .ok h
  | h, (name, value) :: rest => do
      let name ← orElse .headerName (HeaderName.ofBytes? name)
      let value ← orElse .headerValue (HeaderValue.ofBytes? value)
      readHeaders (h.append name value) rest

end AccessLine.Http
