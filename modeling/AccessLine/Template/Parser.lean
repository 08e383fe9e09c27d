import AccessLine.Template.Basic

/-!
# Reading templates

A text is cut into single characters and tokens, from left to right and with names as long as they
can be; runs of characters then become literals. Brackets that hold nothing or are never closed are
no argument, and a colon without a name is a character like any other.
-/
namespace AccessLine

/-- A character that belongs to no token, or a token. -/
inductive Piece
  | char (c : Char)
  | token (name : List Char) (arg : Option (List Char))
deriving DecidableEq, Repr

namespace Piece

/-- The argument in front of a text, and what follows its closing bracket. -/
def argument? : List Char → Option (List Char × List Char)
  | '[' :: cs =>
      let arg := cs.takeWhile (· != ']')
      match cs.dropWhile (· != ']') with
      | _ :: rest => if arg = [] then none else some (arg, rest)
      | [] => none
  | _ => none

/-- The token whose colon has just been read, and what follows it. -/
def token? (cs : List Char) : Option (Piece × List Char) :=
  let name := cs.takeWhile isNameChar
  let rest := cs.dropWhile isNameChar
  if name.length < 2 then none
  else
    match argument? rest with
    | some (arg, rest) => some (.token name (some arg), rest)
    | none => some (.token name none, rest)

theorem length_dropWhile_le (p : Char → Bool) (cs : List Char) :
    (cs.dropWhile p).length ≤ cs.length :=
  (List.dropWhile_sublist p).length_le

theorem length_argument?_lt {cs arg rest : List Char} (h : argument? cs = some (arg, rest)) :
    rest.length < cs.length := by
  unfold argument? at h
  split at h
  · rename_i ds
    have hd := length_dropWhile_le (· != ']') ds
    split at h
    · rename_i x tail heq
      rw [heq] at hd
      dsimp only at h
      split at h
      · simp at h
      · simp only [Option.some.injEq, Prod.mk.injEq] at h
        rw [← h.2]
        simp only [List.length_cons] at hd ⊢
        omega
    · simp at h
  · simp at h

theorem length_token?_le {cs rest : List Char} {p : Piece} (h : token? cs = some (p, rest)) :
    rest.length ≤ cs.length := by
  have hd := length_dropWhile_le isNameChar cs
  simp only [token?] at h
  split at h
  · simp at h
  · split at h
    · rename_i arg tail heq
      have := length_argument?_lt heq
      simp only [Option.some.injEq, Prod.mk.injEq] at h
      rw [← h.2]
      omega
    · simp only [Option.some.injEq, Prod.mk.injEq] at h
      rw [← h.2]
      exact hd

def ofChars : List Char → List Piece
  | [] => []
  | c :: cs =>
      if c = ':' then
        match _h : token? cs with
        | some (p, rest) => p :: ofChars rest
        | none => .char c :: ofChars cs
      else .char c :: ofChars cs
termination_by cs => cs.length
decreasing_by
  · have := length_token?_le ‹_›
    simp only [List.length_cons]
    omega
  · simp
  · simp

end Piece

namespace Node

/-- Puts a character in front of a list of nodes, into its first literal if it starts with one. -/
def consChar (c : Char) : List Node → List Node
  | .literal text :: rest => .literal (String.singleton c ++ text) :: rest
  | nodes => .literal (String.singleton c) :: nodes

/-- Runs of characters become literals. -/
def ofPieces : List Piece → List Node
  | [] => []
  | .char c :: rest => consChar c (ofPieces rest)
  | .token name arg :: rest =>
      .token (String.ofList name) (arg.map String.ofList) :: ofPieces rest

end Node

/-- Reads a template. Every text is one. -/
def Template.parse (src : String) : Template :=
  ⟨Node.ofPieces (Piece.ofChars src.toList)⟩

end AccessLine
