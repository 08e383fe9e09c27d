/-!
# Addresses

Addresses of version 4 and 6, and socket addresses, which add a port. A reader takes what it can
from the front of a text and returns the rest; a whole text is an address if nothing is left.

Version 6 is written with lower-case digits and without leading zeros. The first longest run of at
least two zero groups is left out, and an embedded version 4 address is written as such.
-/
namespace AccessLine.Net

structure Ipv4 where
  a : UInt8
  b : UInt8
  c : UInt8
  d : UInt8
deriving DecidableEq, Repr

structure Ipv6 where
  groups : List UInt16
  length_groups : groups.length = 8
deriving DecidableEq, Repr

inductive IpAddress
  | v4 (ip : Ipv4)
  | v6 (ip : Ipv6)
deriving DecidableEq, Repr

/-- An address with a port. A version 6 address can have a scope; zero is none. -/
inductive SocketAddress
  | v4 (ip : Ipv4) (port : UInt16)
  | v6 (ip : Ipv6) (port : UInt16) (scope : UInt32)
deriving DecidableEq, Repr

def SocketAddress.ip : SocketAddress → IpAddress
  | .v4 ip _ => .v4 ip
  | .v6 ip _ _ => .v6 ip

def SocketAddress.port : SocketAddress → UInt16
  | .v4 _ port => port
  | .v6 _ port _ => port

/-- The address of this host that only it can reach. -/
def Ipv4.loopback : Ipv4 := ⟨127, 0, 0, 1⟩

/-- The address that stands for every address of this host. -/
def Ipv4.unspecified : Ipv4 := ⟨0, 0, 0, 0⟩

/-- The same in version 6. -/
def Ipv6.unspecified : Ipv6 := ⟨List.replicate 8 0, rfl⟩

/-- An address of a group of hosts has all of its first eight bits set. -/
def Ipv6.isMulticast (ip : Ipv6) : Bool :=
  ip.groups.headD 0 &&& 0xFF00 = 0xFF00

/-- An address that only means something on one link, which its scope names. -/
def Ipv6.isLinkLocal (ip : Ipv6) : Bool :=
  ip.groups.headD 0 &&& 0xFFC0 = 0xFE80

/-! ### Reading -/

/-- The value of a digit in a base of up to 16. -/
def digit? (base : Nat) (c : Char) : Option Nat :=
  let n :=
    if '0' ≤ c ∧ c ≤ '9' then some (c.toNat - '0'.toNat)
    else if 'a' ≤ c ∧ c ≤ 'f' then some (c.toNat - 'a'.toNat + 10)
    else if 'A' ≤ c ∧ c ≤ 'F' then some (c.toNat - 'A'.toNat + 10)
    else none
  n.filter (· < base)

def isDigit (base : Nat) (c : Char) : Bool :=
  (digit? base c).isSome

def ofDigits (base : Nat) (cs : List Char) : Nat :=
  cs.foldl (fun n c => base * n + (digit? base c).getD 0) 0

/-- A number with at least one digit, not above `limit`. All digits in front belong to it. -/
def readNumber? (base limit : Nat) (cs : List Char) : Option (Nat × List Char) :=
  let ds := cs.takeWhile (isDigit base)
  if ds ≠ [] ∧ ofDigits base ds ≤ limit then some (ofDigits base ds, cs.dropWhile (isDigit base))
  else none

/-- An octet has one to three digits and no leading zero. -/
def readOctet? (cs : List Char) : Option (UInt8 × List Char) :=
  let ds := cs.takeWhile (isDigit 10)
  if 3 < ds.length ∨ (1 < ds.length ∧ ds.head? = some '0') then none
  else (readNumber? 10 255 cs).map fun r => (UInt8.ofNat r.1, r.2)

/-- A group has one to four hexadecimal digits. -/
def readGroup? (cs : List Char) : Option (UInt16 × List Char) :=
  if 4 < (cs.takeWhile (isDigit 16)).length then none
  else (readNumber? 16 0xFFFF cs).map fun r => (UInt16.ofNat r.1, r.2)

def readChar? (c : Char) : List Char → Option (List Char)
  | [] => none
  | x :: cs => if x = c then some cs else none

def readIpv4? (cs : List Char) : Option (Ipv4 × List Char) := do
  let (a, cs) ← readOctet? cs
  let (b, cs) ← readOctet? (← readChar? '.' cs)
  let (c, cs) ← readOctet? (← readChar? '.' cs)
  let (d, cs) ← readOctet? (← readChar? '.' cs)
  some (⟨a, b, c, d⟩, cs)

/-- The two groups that a version 4 address fills. -/
def Ipv4.toGroups (ip : Ipv4) : List UInt16 :=
  [ip.a.toUInt16 * 256 + ip.b.toUInt16, ip.c.toUInt16 * 256 + ip.d.toUInt16]

/-- Groups read from the front of a text. -/
structure GroupRun where
  groups : List UInt16
  endsInIpv4 : Bool := false
  rest : List Char

/-- Up to the given number of groups between colons. A version 4 address fills the last two; it
needs room for both. -/
def readGroups (first : Bool) : Nat → List Char → GroupRun
  | 0, cs => { groups := [], rest := cs }
  | n + 1, cs =>
      match if first then some cs else readChar? ':' cs with
      | none => { groups := [], rest := cs }
      | some body =>
        match if n = 0 then none else readIpv4? body with
        | some (ip, rest) => { groups := ip.toGroups, endsInIpv4 := true, rest }
        | none =>
          match readGroup? body with
          | none => { groups := [], rest := cs }
          | some (g, rest) =>
              let run := readGroups false n rest
              { run with groups := g :: run.groups }

def Ipv6.ofGroups? (groups : List UInt16) : Option Ipv6 :=
  if h : groups.length = 8 then some ⟨groups, h⟩ else none

/-- Eight groups, or fewer with two colons in the place of at least one zero group. A version 4
address can only stand at the very end. -/
def readIpv6? (cs : List Char) : Option (Ipv6 × List Char) := do
  let front := readGroups true 8 cs
  match Ipv6.ofGroups? front.groups with
  | some ip => some (ip, front.rest)
  | none =>
    if front.endsInIpv4 then none
    else
      let rest ← readChar? ':' (← readChar? ':' front.rest)
      let back := readGroups true (7 - front.groups.length) rest
      let zeros := List.replicate (8 - front.groups.length - back.groups.length) 0
      let ip ← Ipv6.ofGroups? (front.groups ++ zeros ++ back.groups)
      some (ip, back.rest)

/-- The value of a reader that has used up the text. -/
def whole {α : Type} : Option (α × List Char) → Option α
  | some (x, []) => some x
  | _ => none

def readIp? (cs : List Char) : Option (IpAddress × List Char) :=
  match readIpv4? cs with
  | some (ip, rest) => some (.v4 ip, rest)
  | none => (readIpv6? cs).map fun r => (.v6 r.1, r.2)

def IpAddress.ofString? (text : String) : Option IpAddress :=
  whole (readIp? text.toList)

/-- A colon and a port. -/
def readPort? (cs : List Char) : Option (UInt16 × List Char) := do
  let (n, rest) ← readNumber? 10 0xFFFF (← readChar? ':' cs)
  some (UInt16.ofNat n, rest)

/-- A percent sign and a number, or nothing. -/
def readScope (cs : List Char) : UInt32 × List Char :=
  match (readChar? '%' cs).bind (readNumber? 10 0xFFFFFFFF) with
  | some (n, rest) => (UInt32.ofNat n, rest)
  | none => (0, cs)

def readSocketV4? (cs : List Char) : Option (SocketAddress × List Char) := do
  let (ip, cs) ← readIpv4? cs
  let (port, cs) ← readPort? cs
  some (.v4 ip port, cs)

/-- Brackets stand around the address and its scope. -/
def readSocketV6? (cs : List Char) : Option (SocketAddress × List Char) := do
  let (ip, cs) ← readIpv6? (← readChar? '[' cs)
  let (scope, cs) := readScope cs
  let (port, cs) ← readPort? (← readChar? ']' cs)
  some (.v6 ip port scope, cs)

def SocketAddress.ofString? (text : String) : Option SocketAddress :=
  whole ((readSocketV4? text.toList).or (readSocketV6? text.toList))

/-! ### Writing -/

def decimal (n : Nat) : String :=
  String.ofList (Nat.toDigits 10 n)

def hexadecimal (n : Nat) : String :=
  String.ofList (Nat.toDigits 16 n)

def Ipv4.text (ip : Ipv4) : String :=
  ".".intercalate ([ip.a, ip.b, ip.c, ip.d].map fun o => decimal o.toNat)

/-- The version 4 address that a version 6 address embeds. -/
def Ipv6.embedded? (ip : Ipv6) : Option Ipv4 :=
  match ip.groups with
  | [0, 0, 0, 0, 0, 0xFFFF, x, y] =>
      some ⟨(x / 256).toUInt8, (x % 256).toUInt8, (y / 256).toUInt8, (y % 256).toUInt8⟩
  | _ => none

/-- Where the first longest run of zero groups starts, and how long it is. -/
def longestZeroRun (groups : List UInt16) : Nat × Nat :=
  (List.range groups.length).foldl
    (fun best i =>
      let n := ((groups.drop i).takeWhile (· = 0)).length
      if best.2 < n then (i, n) else best)
    (0, 0)

def groupsText (groups : List UInt16) : String :=
  ":".intercalate (groups.map fun g => hexadecimal g.toNat)

def Ipv6.text (ip : Ipv6) : String :=
  match ip.embedded? with
  | some v4 => "::ffff:" ++ v4.text
  | none =>
    let (start, length) := longestZeroRun ip.groups
    if length < 2 then groupsText ip.groups
    else groupsText (ip.groups.take start) ++ "::" ++ groupsText (ip.groups.drop (start + length))

def IpAddress.text : IpAddress → String
  | .v4 ip => ip.text
  | .v6 ip => ip.text

def SocketAddress.text : SocketAddress → String
  | .v4 ip port => ip.text ++ ":" ++ decimal port.toNat
  | .v6 ip port scope =>
      let zone := if scope = 0 then "" else "%" ++ decimal scope.toNat
      "[" ++ ip.text ++ zone ++ "]:" ++ decimal port.toNat

end AccessLine.Net
