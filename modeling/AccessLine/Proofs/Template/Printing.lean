import AccessLine.Template.Parser

/-!
# Reading loses nothing

The pieces of a text put together again are the text, and so are the nodes.
-/
namespace AccessLine

namespace Piece

/-- A piece as it is written. -/
def chars : Piece → List Char
  | .char c => [c]
  | .token name none => ':' :: name
  | .token name (some arg) => ':' :: name ++ '[' :: arg ++ [']']

theorem eq_of_argument? {cs arg rest : List Char} (h : argument? cs = some (arg, rest)) :
    cs = '[' :: arg ++ ']' :: rest := by
  unfold argument? at h
  split at h
  · rename_i ds
    have hsplit := List.takeWhile_append_dropWhile (p := (· != ']')) (l := ds)
    split at h
    · rename_i x tail heq
      have hx : x = ']' := by
        have hhead := List.head?_dropWhile_not (· != ']') ds
        simpa [heq] using hhead
      dsimp only at h
      split at h
      · cases h
      · obtain ⟨rfl, rfl⟩ := Prod.mk.inj (Option.some.inj h)
        rw [heq, hx] at hsplit
        simp [hsplit]
    · cases h
  · cases h

theorem chars_of_token? {cs rest : List Char} {p : Piece} (h : token? cs = some (p, rest)) :
    p.chars ++ rest = ':' :: cs := by
  have hsplit := List.takeWhile_append_dropWhile (p := isNameChar) (l := cs)
  simp only [token?] at h
  split at h
  · cases h
  · split at h
    · rename_i arg tail heq
      obtain ⟨rfl, rfl⟩ := Prod.mk.inj (Option.some.inj h)
      rw [eq_of_argument? heq] at hsplit
      simpa [chars] using hsplit
    · obtain ⟨rfl, rfl⟩ := Prod.mk.inj (Option.some.inj h)
      exact congrArg (':' :: ·) hsplit

theorem flatMap_chars_ofChars (cs : List Char) : (ofChars cs).flatMap chars = cs := by
  fun_induction ofChars cs with
  | case1 => rfl
  | case2 cs p rest h ih => rw [List.flatMap_cons, ih, chars_of_token? h]
  | case3 cs h ih => rw [List.flatMap_cons, ih]; rfl
  | case4 c cs hc ih => rw [List.flatMap_cons, ih]; rfl

end Piece

namespace Node

theorem flatMap_text_consChar (c : Char) (nodes : List Node) :
    (consChar c nodes).flatMap (·.text.toList) = c :: nodes.flatMap (·.text.toList) := by
  unfold consChar
  split <;> simp [text]

theorem toList_text_token (name : List Char) (arg : Option (List Char)) :
    (token (String.ofList name) (arg.map String.ofList)).text.toList =
      (Piece.token name arg).chars := by
  cases arg <;> simp [text, Piece.chars]

theorem flatMap_text_ofPieces (ps : List Piece) :
    (ofPieces ps).flatMap (·.text.toList) = ps.flatMap Piece.chars := by
  induction ps with
  | nil => rfl
  | cons p ps ih =>
      cases p with
      | char c => simp [ofPieces, flatMap_text_consChar, ih, Piece.chars]
      | token name arg => simp only [ofPieces, List.flatMap_cons, toList_text_token, ih]

end Node

theorem Template.unparse_parse (src : String) : unparse (parse src).nodes = src := by
  apply String.toList_injective
  simp only [unparse, parse, String.toList_join, List.flatMap_map, Node.flatMap_text_ofPieces,
    Piece.flatMap_chars_ofChars]

end AccessLine
