import AccessLine.Net.Address

/-!
# Listening

A server is told an address as text. The text is read at once, but the address is listened on only
when the server starts, and can still be refused then.
-/
namespace AccessLine

open Net

inductive OsError
  | noSuchDevice
  | invalidArgument
  | addressInUse
  | addressNotAvailable
  | networkUnreachable
deriving DecidableEq, Repr

namespace OsError

def code : OsError → Nat
  | .noSuchDevice => 19
  | .invalidArgument => 22
  | .addressInUse => 98
  | .addressNotAvailable => 99
  | .networkUnreachable => 101

def text : OsError → String
  | .noSuchDevice => "No such device"
  | .invalidArgument => "Invalid argument"
  | .addressInUse => "Address already in use"
  | .addressNotAvailable => "Cannot assign requested address"
  | .networkUnreachable => "Network is unreachable"

def message (e : OsError) : String :=
  e.text ++ " (os error " ++ decimal e.code ++ ")"

end OsError

inductive ServerError
  | notAnAddress
  | io (e : OsError)
deriving DecidableEq, Repr

def ServerError.message : ServerError → String
  | .notAnAddress => "invalid socket address: AddrParseError(Socket)"
  | .io e => "io: " ++ e.message

/-- Reads the address that a server is to listen on. -/
def readListenAddress (text : String) : Except ServerError SocketAddress :=
  match SocketAddress.ofString? text with
  | some a => .ok a
  | none => .error .notAnAddress

/-- The network as one machine sees it. -/
structure Network where
  /-- The addresses that the machine was given. -/
  own : List IpAddress := []
  /-- The numbers of its links. -/
  links : List UInt32 := []
  /-- The addresses that there is a way to. -/
  reachable : List IpAddress := []
  /-- The addresses that are listened on already. -/
  held : List SocketAddress := []
deriving DecidableEq, Repr

namespace Network

def hasIpv4 (n : Network) : Bool :=
  n.own.any fun
    | .v4 _ => true
    | .v6 _ => false

/-- A machine takes its own version 4 addresses, and all of them if it was given none. -/
def checkIpv4 (n : Network) (ip : Ipv4) : Except OsError Unit :=
  if ip = .unspecified ∨ .v4 ip ∈ n.own ∨ !n.hasIpv4 then .ok () else .error .addressNotAvailable

/-- A machine takes its own version 6 addresses. One that is bound to a link has to name it. -/
def checkIpv6 (n : Network) (ip : Ipv6) (scope : UInt32) : Except OsError Unit :=
  if ip.isMulticast ∨ (ip.isLinkLocal ∧ scope = 0) then .error .invalidArgument
  else if ip.isLinkLocal ∧ scope ∉ n.links then .error .noSuchDevice
  else if ip = .unspecified ∨ .v6 ip ∈ n.own then .ok ()
  else .error .addressNotAvailable

/-- Whether a machine takes an address. An embedded version 4 address counts as such. -/
def check (n : Network) : SocketAddress → Except OsError Unit
  | .v4 ip _ => n.checkIpv4 ip
  | .v6 ip _ scope =>
      match ip.embedded? with
      | some v4 => n.checkIpv4 v4
      | none => n.checkIpv6 ip scope

/-- Listens on an address that the machine takes and nobody holds. Port zero stands for any free
port. -/
def listen (n : Network) (a : SocketAddress) : Except OsError Network :=
  match n.check a with
  | .error e => .error e
  | .ok _ =>
      if a.port ≠ 0 ∧ a ∈ n.held then .error .addressInUse
      else .ok { n with held := a :: n.held }

def connect (n : Network) (ip : IpAddress) : Except OsError Unit :=
  if ip ∈ n.reachable then .ok () else .error .networkUnreachable

end Network

end AccessLine
