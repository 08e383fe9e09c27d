import AccessLine.Proofs.Template.Reading
import AccessLine.Template.Compile
import Mathlib.Data.List.Basic

/-!
# Templates in two parts

A text that closes no bracket and does not start with a name character is read as if it stood alone,
whatever stands in front of it: no token goes on into it, and no argument is closed by it. So a
template that is cut in front of such a text is the template of both parts.
-/
namespace AccessLine

/-- Whether no token that stands in front of a text goes on into it. -/
def Template.Detached (text : List Char) : Prop :=
  ']' ∉ text ∧ ∀ c, text.head? = some c → isNameChar c = false

namespace Piece

open Template

variable {back : List Char}

theorem takeWhile_of_detached (h : Detached back) : back.takeWhile isNameChar = [] := by
  cases back with
  | nil => rfl
  | cons c cs => simp [h.2 c rfl]

theorem dropWhile_append_of_detached (h : Detached back) (cs : List Char) :
    (cs ++ back).dropWhile isNameChar = cs.dropWhile isNameChar ++ back := by
  have hback : back.dropWhile isNameChar = back := by
    have hsplit := List.takeWhile_append_dropWhile (p := isNameChar) (l := back)
    rwa [takeWhile_of_detached h] at hsplit
  rw [List.dropWhile_append, hback]
  split
  · rename_i hempty
    rw [List.isEmpty_iff.mp hempty, List.nil_append]
  · rfl

/-- An argument is closed by what stands in front, or not at all. -/
theorem argument?_append (h : Detached back) (cs : List Char) :
    argument? (cs ++ back) = (argument? cs).map fun r => (r.1, r.2 ++ back) := by
  cases hcs : argument? cs with
  | some r =>
      obtain ⟨hvalid, htext⟩ := argument?_eq_some_iff.mp hcs
      rw [Option.map_some, argument?_eq_some_iff]
      exact ⟨hvalid, by simp [htext]⟩
  | none =>
      rw [Option.map_none, Option.eq_none_iff_forall_ne_some]
      rintro ⟨arg, rest⟩ hsome
      obtain ⟨hvalid, htext⟩ := argument?_eq_some_iff.mp hsome
      obtain ⟨mid, -, hback⟩ | ⟨mid, hfront, hclose⟩ := List.append_eq_append_iff.mp htext
      · apply h.1
        simp [hback]
      · cases mid with
        | nil =>
            apply h.1
            rw [List.nil_append] at hclose
            simp [← hclose]
        | cons c mid =>
            obtain ⟨rfl, -⟩ := List.cons.inj hclose
            have hread := argument?_eq_some_iff.mpr ⟨hvalid, hfront⟩
            rw [hcs] at hread
            cases hread

theorem token?_append_detached (h : Detached back) (cs : List Char) :
    token? (cs ++ back) = (token? cs).map fun r => (r.1, r.2 ++ back) := by
  simp only [token?, takeWhile_isNameChar_append (takeWhile_of_detached h),
    dropWhile_append_of_detached h, argument?_append h]
  split
  · rfl
  · cases argument? (cs.dropWhile isNameChar) <;> rfl

theorem ofChars_append_detached (h : Detached back) (cs : List Char) :
    ofChars (cs ++ back) = ofChars cs ++ ofChars back := by
  fun_induction ofChars cs with
  | case1 => rfl
  | case2 cs p rest htoken ih =>
      have happend : token? (cs ++ back) = some (p, rest ++ back) := by
        rw [token?_append_detached h, htoken, Option.map_some]
      rw [List.cons_append, ofChars_cons_of_token? happend, ih, List.cons_append]
  | case3 cs htoken ih =>
      have hstart : ¬StartsToken (':' :: (cs ++ back)) := by
        rintro ⟨-, hl⟩
        rw [takeWhile_isNameChar_append (takeWhile_of_detached h)] at hl
        exact absurd (token?_eq_none_iff.mp htoken) (Nat.not_lt.mpr hl)
      rw [List.cons_append, ofChars_cons_of_not_startsToken hstart, ih, List.cons_append]
  | case4 c cs hc ih =>
      have hstart : ¬StartsToken (c :: (cs ++ back)) := fun hs => hc hs.1
      rw [List.cons_append, ofChars_cons_of_not_startsToken hstart, ih, List.cons_append]

end Piece

namespace Node

/-- Nodes one after the other. Two literals that meet become one. -/
def meet (ns ms : List Node) : List Node :=
  match ns.getLast?, ms with
  | some (.literal s), .literal t :: rest => ns.dropLast ++ .literal (s ++ t) :: rest
  | _, _ => ns ++ ms

variable {ns ms : List Node}

theorem meet_cons_of_ne_nil (n : Node) (h : ns ≠ []) : meet (n :: ns) ms = n :: meet ns ms := by
  obtain ⟨m, ns, rfl⟩ := List.exists_cons_of_ne_nil h
  unfold meet
  rw [List.getLast?_cons_cons, List.dropLast_cons_cons]
  split
  · rfl
  · rfl

theorem meet_token (name : String) (arg : Option String) (ns ms : List Node) :
    meet (.token name arg :: ns) ms = .token name arg :: meet ns ms := by
  cases ns with
  | nil => rfl
  | cons n ns => exact meet_cons_of_ne_nil _ (List.cons_ne_nil _ _)

theorem meet_literal (c : Char) (ms : List Node) :
    meet [.literal (String.singleton c)] ms = consChar c ms := by
  cases ms with
  | nil => rfl
  | cons m ms => cases m <;> rfl

theorem meet_consChar (c : Char) (ns ms : List Node) :
    meet (consChar c ns) ms = consChar c (meet ns ms) := by
  cases ns with
  | nil => exact meet_literal c ms
  | cons n ns =>
      cases n with
      | token name arg =>
          rw [meet_token]
          exact (meet_cons_of_ne_nil _ (List.cons_ne_nil _ _)).trans
            (congrArg _ (meet_token name arg ns ms))
      | literal s =>
          cases ns with
          | nil =>
              cases ms with
              | nil => rfl
              | cons m ms =>
                  cases m with
                  | token name arg => rfl
                  | literal t => simp [consChar, meet, String.append_assoc]
          | cons n ns =>
              have hne : n :: ns ≠ [] := List.cons_ne_nil _ _
              rw [meet_cons_of_ne_nil _ hne]
              exact meet_cons_of_ne_nil _ hne

theorem ofPieces_append_meet (ps qs : List Piece) :
    ofPieces (ps ++ qs) = meet (ofPieces ps) (ofPieces qs) := by
  induction ps with
  | nil => rfl
  | cons p ps ih =>
      cases p with
      | char c => rw [List.cons_append, ofPieces, ih, ofPieces, meet_consChar]
      | token name arg => rw [List.cons_append, ofPieces, ih, ofPieces, meet_token]

/-- What nodes amount to is not changed by putting literals together, if literals amount to their
texts. -/
theorem flatMap_meet {α : Type} {f : Node → List α}
    (hf : ∀ s t, f (.literal (s ++ t)) = f (.literal s) ++ f (.literal t)) (ns ms : List Node) :
    (meet ns ms).flatMap f = ns.flatMap f ++ ms.flatMap f := by
  unfold meet
  split
  · rename_i s t rest hlast
    obtain ⟨front, rfl⟩ := List.getLast?_eq_some_iff.mp hlast
    simp [hf]
  · rw [List.flatMap_append]

end Node

namespace Template

variable {a b : String}

theorem nodes_parse_append (hb : Detached b.toList) (a : String) :
    (parse (a ++ b)).nodes = Node.meet (parse a).nodes (parse b).nodes := by
  simp only [parse, String.toList_append, Piece.ofChars_append_detached hb,
    Node.ofPieces_append_meet]

theorem render_parse_append (hb : Detached b.toList) (a : String) (tokens : TokenTable)
    (request : RequestView) (response : ResponseView) :
    (parse (a ++ b)).render tokens request response =
      (parse a).render tokens request response ++ (parse b).render tokens request response := by
  apply String.toList_injective
  have hmeet := Node.flatMap_meet (f := fun n => (n.render tokens request response).toList)
    (fun s t => by simp [Node.render]) (parse a).nodes (parse b).nodes
  simpa [render, nodes_parse_append hb, List.flatMap_map] using hmeet

theorem tokenNames_parse_append (hb : Detached b.toList) (a : String) :
    (parse (a ++ b)).tokenNames = (parse a).tokenNames ++ (parse b).tokenNames := by
  have hmeet := Node.flatMap_meet (f := fun n => n.tokenName?.toList) (fun _ _ => rfl)
    (parse a).nodes (parse b).nodes
  simpa [tokenNames, nodes_parse_append hb, List.filterMap_eq_flatMap_toList] using hmeet

theorem firstUnknown?_parse_append (hb : Detached b.toList) (a : String) (tokens : TokenTable) :
    (parse (a ++ b)).firstUnknown? tokens =
      ((parse a).firstUnknown? tokens).or ((parse b).firstUnknown? tokens) := by
  rw [firstUnknown?, tokenNames_parse_append hb, List.find?_append]
  rfl

theorem exists_compile_eq_ok {src : String} {tokens : TokenTable} :
    (∃ t, compile src tokens = .ok t) ↔ (parse src).firstUnknown? tokens = none := by
  unfold compile
  split
  · rename_i name h
    simp [h]
  · rename_i h
    simp [h]

theorem compile_eq_unknownToken_iff {src : String} {tokens : TokenTable} {name : String} :
    compile src tokens = .error (.unknownToken name src) ↔
      (parse src).firstUnknown? tokens = some name := by
  rw [compile_eq_error_iff_firstUnknown?]
  constructor
  · rintro ⟨name', hname, he⟩
    obtain ⟨rfl, -⟩ := FormatError.unknownToken.inj he
    exact hname
  · intro hname
    exact ⟨name, hname, rfl⟩

/-- A template that goes on with a detached text is both parts in turn: its nodes, the lines that it
renders, and whether it compiles. It compiles exactly if the names of both parts are registered. Else
the first name that is not is reported, and one of the first part before one of the second. -/
theorem parts_of_detached (hb : Detached b.toList) (a : String) :
    (parse (a ++ b)).nodes = Node.meet (parse a).nodes (parse b).nodes ∧
      (∀ tokens request response, (parse (a ++ b)).render tokens request response =
        (parse a).render tokens request response ++ (parse b).render tokens request response) ∧
      ∀ tokens,
        ((∃ t, compile (a ++ b) tokens = .ok t) ↔
          (∃ t, compile a tokens = .ok t) ∧ ∃ t, compile b tokens = .ok t) ∧
        (∀ e, compile (a ++ b) tokens = .error e ↔ ∃ name, e = .unknownToken name (a ++ b) ∧
          (compile a tokens = .error (.unknownToken name a) ∨
            (∃ t, compile a tokens = .ok t) ∧
              compile b tokens = .error (.unknownToken name b))) ∧
        ((∃ t, compile (a ++ b) tokens = .ok t) ↔
          ∀ name ∈ (parse a).tokenNames ++ (parse b).tokenNames, tokens.contains name = true) ∧
        ∀ name, compile (a ++ b) tokens = .error (.unknownToken name (a ++ b)) ↔
          ((parse a).tokenNames ++ (parse b).tokenNames).find?
            (fun name => !tokens.contains name) = some name := by
  refine ⟨nodes_parse_append hb a, render_parse_append hb a, fun tokens => ⟨?_, fun e => ?_, ?_,
    fun name => ?_⟩⟩
  · simp only [exists_compile_eq_ok, firstUnknown?_parse_append hb, Option.or_eq_none_iff]
  · rw [compile_eq_error_iff_firstUnknown?]
    simp only [compile_eq_unknownToken_iff, exists_compile_eq_ok, firstUnknown?_parse_append hb,
      Option.or_eq_some_iff]
    exact ⟨fun ⟨name, h, he⟩ => ⟨name, he, h⟩, fun ⟨name, he, h⟩ => ⟨name, h, he⟩⟩
  · rw [exists_compile_eq_ok, firstUnknown?_eq_none_iff, tokenNames_parse_append hb]
  · rw [compile_eq_unknownToken_iff, firstUnknown?, tokenNames_parse_append hb]

/-- A bracket that stays open and a colon that stays alone, at the end of the first part. Of the two
names the second is not registered. -/
theorem parts_of_detached_open :
    Detached "[:url :".toList ∧ (parse (":status[a:" ++ "[:url :")).nodes =
      [.token "status" none, .literal "[a:[", .token "url" none, .literal " :"] ∧
    compile (":status[a:" ++ "[:url :") (Table.insert ∅ "status" Evaluator.status) =
      .error (.unknownToken "url" (":status[a:" ++ "[:url :")) := by
  have hb : Detached "[:url :".toList := ⟨by decide, by rintro c ⟨⟩; decide⟩
  obtain ⟨hnodes, -, hcompile⟩ := parts_of_detached hb ":status[a:"
  exact ⟨hb, hnodes.trans (by decide +kernel), ((hcompile _).2.2.2 _).mpr (by decide +kernel)⟩

/-- A closing bracket makes an argument of what stands in front. -/
example : (parse (":status[a" ++ "]")).nodes ≠
    Node.meet (parse ":status[a").nodes (parse "]").nodes := by
  decide +kernel

end Template

end AccessLine
