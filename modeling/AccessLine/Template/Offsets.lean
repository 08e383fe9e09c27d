import AccessLine.Template.Parser
import AccessLine.Text.Utf8

/-!
# Templates by byte offsets

The same reading of a template over its UTF-8 bytes: a cursor goes once over them, and the start of
the literal in front of it is remembered until a token ends it. Every access is checked. An offset
beyond the bytes, or a text that would be cut out in the middle of a character, leaves no result.
-/
namespace AccessLine.Template.Offsets

/-- A half-open range of byte offsets. -/
structure Span where
  start : Nat
  stop : Nat
deriving DecidableEq, Repr

/-- The offsets of a token, which goes on to `stop`. -/
structure Extent where
  name : Span
  arg : Option Span
  stop : Nat
deriving DecidableEq, Repr

/-- The nodes so far, the start of the literal that no node holds yet, and the next byte to look
at. -/
structure State where
  nodes : List Node := []
  literalStart : Nat := 0
  cursor : Nat := 0
deriving DecidableEq, Repr

/-! ### Checked accesses -/

/-- The bytes from an offset on. -/
def from? (bytes : List UInt8) (i : Nat) : Option (List UInt8) :=
  if i ≤ bytes.length then some (bytes.drop i) else none

/-- Whether a character can start at the offset, or the bytes end there: `0x80` to `0xBF` are the
bytes within characters. -/
def isBoundary (bytes : List UInt8) (i : Nat) : Bool :=
  match bytes[i]? with
  | some b => b < 0x80 || 0xC0 ≤ b
  | none => i == bytes.length

/-- The text between two offsets. -/
def Span.text? (bytes : List UInt8) (s : Span) : Option String :=
  if s.start ≤ s.stop ∧ isBoundary bytes s.start = true ∧ isBoundary bytes s.stop = true then
    Text.Utf8.decode? ((bytes.drop s.start).take (s.stop - s.start))
  else none

/-! ### Tokens -/

def isNameByte (b : UInt8) : Bool :=
  (0x61 ≤ b && b ≤ 0x7A) || (0x41 ≤ b && b ≤ 0x5A) || (0x30 ≤ b && b ≤ 0x39) || b == 0x5F || b == 0x2D

/-- The argument whose bracket would open at `i`: at least one byte, up to the first closing
bracket. -/
def argument? (bytes : List UInt8) (i : Nat) : Option (Option Span) :=
  if bytes[i]? = some 0x5B then
    (from? bytes (i + 1)).map fun rest =>
      match rest.findIdx? (· == 0x5D) with
      | some (n + 1) => some ⟨i + 1, i + 1 + (n + 1)⟩
      | _ => none
  else some none

/-- A token ends with its name, or behind the bracket that closes its argument. -/
def Extent.of (name : Span) (arg : Option Span) : Extent :=
  ⟨name, arg, arg.elim name.stop fun a => a.stop + 1⟩

/-- The token whose colon would stand at `i`. -/
def token? (bytes : List UInt8) (i : Nat) : Option (Option Extent) := do
  let b ← bytes[i]?
  if b = 0x3A then
    let rest ← from? bytes (i + 1)
    let length := (rest.takeWhile isNameByte).length
    if length < 2 then some none
    else
      let name : Span := ⟨i + 1, i + 1 + length⟩
      let arg ← argument? bytes name.stop
      some (some (.of name arg))
  else some none

/-! ### The loop -/

/-- The literal between two offsets, if there is anything between them. -/
def literal? (bytes : List UInt8) (start stop : Nat) : Option (List Node) :=
  if start < stop then (Span.text? bytes ⟨start, stop⟩).map fun text => [.literal text]
  else some []

/-- The argument's text is cut out first, then the literal in front of the token, then the name. -/
def takeToken? (bytes : List UInt8) (s : State) (token : Extent) : Option State := do
  let arg ← token.arg.mapM (Span.text? bytes)
  let before ← literal? bytes s.literalStart s.cursor
  let name ← token.name.text? bytes
  some ⟨s.nodes ++ before ++ [.token name arg], token.stop, token.stop⟩

/-- One turn: a byte that starts no token is passed by, a token is taken with the literal in front of
it. -/
def turn? (bytes : List UInt8) (s : State) : Option State := do
  match ← token? bytes s.cursor with
  | none => some { s with cursor := s.cursor + 1 }
  | some token => takeToken? bytes s token

theorem lt_stop_of_argument? {bytes : List UInt8} {i : Nat} {s : Span}
    (h : argument? bytes i = some (some s)) : i < s.stop := by
  unfold argument? at h
  split at h
  · obtain ⟨rest, -, h⟩ := Option.map_eq_some_iff.mp h
    split at h
    · rw [← Option.some.inj h]
      dsimp only
      omega
    · cases h
  · cases h

theorem lt_stop_of_token? {bytes : List UInt8} {i : Nat} {token : Extent}
    (h : token? bytes i = some (some token)) : i < token.stop := by
  obtain ⟨b, -, h⟩ := Option.bind_eq_some_iff.mp h
  split at h
  · obtain ⟨rest, -, h⟩ := Option.bind_eq_some_iff.mp h
    dsimp only at h
    split at h
    · cases h
    · obtain ⟨arg, harg, h⟩ := Option.bind_eq_some_iff.mp h
      rw [← Option.some.inj (Option.some.inj h)]
      cases arg with
      | none =>
          simp only [Extent.of, Option.elim]
          omega
      | some a =>
          have := lt_stop_of_argument? harg
          simp only [Extent.of, Option.elim]
          omega
  · cases h

/-- Every turn moves the cursor on. -/
theorem cursor_lt_of_turn? {bytes : List UInt8} {s t : State} (h : turn? bytes s = some t) :
    s.cursor < t.cursor := by
  obtain ⟨token, htoken, h⟩ := Option.bind_eq_some_iff.mp h
  cases token with
  | none =>
      rw [← Option.some.inj h]
      exact Nat.lt_succ_self _
  | some token =>
      obtain ⟨arg, -, h⟩ := Option.bind_eq_some_iff.mp h
      obtain ⟨before, -, h⟩ := Option.bind_eq_some_iff.mp h
      obtain ⟨name, -, h⟩ := Option.bind_eq_some_iff.mp h
      rw [← Option.some.inj h]
      exact lt_stop_of_token? htoken

/-- Turns until the cursor has reached the end of the bytes. -/
def loop? (bytes : List UInt8) (s : State) : Option State :=
  if s.cursor < bytes.length then
    match _h : turn? bytes s with
    | some t => loop? bytes t
    | none => none
  else some s
termination_by bytes.length - s.cursor
decreasing_by
  have := cursor_lt_of_turn? _h
  omega

/-- The nodes of a template, with the literal that is left at the end. -/
def nodes? (src : String) : Option (List Node) := do
  let bytes := Text.Utf8.encode src
  let s ← loop? bytes {}
  let rest ← literal? bytes s.literalStart bytes.length
  some (s.nodes ++ rest)

end AccessLine.Template.Offsets
