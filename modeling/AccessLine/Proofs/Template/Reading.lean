import AccessLine.Proofs.Template.Printing

/-!
# Reading and printing are inverse

Reading a text gives a canonical list of nodes, and reading what a canonical list prints gives that
list again. So a text has exactly one canonical reading.
-/
namespace AccessLine

open Template

/-- A text that does not go on with name characters does not lengthen a name in front of it. -/
theorem takeWhile_isNameChar_append {rest : List Char} (hr : rest.takeWhile isNameChar = [])
    (cs : List Char) : (cs ++ rest).takeWhile isNameChar = cs.takeWhile isNameChar := by
  rw [List.takeWhile_append, hr, List.append_nil]
  split
  · rename_i h
    exact ((List.takeWhile_prefix isNameChar).eq_of_length h).symm
  · rfl

namespace Piece

theorem argument?_eq_some_iff {cs arg rest : List Char} :
    argument? cs = some (arg, rest) ↔ (arg ≠ [] ∧ ']' ∉ arg) ∧ cs = '[' :: arg ++ ']' :: rest := by
  constructor
  · intro h
    refine ⟨?_, eq_of_argument? h⟩
    unfold argument? at h
    split at h
    · split at h
      · dsimp only at h
        split at h
        · cases h
        · rename_i hne
          obtain ⟨rfl, rfl⟩ := Prod.mk.inj (Option.some.inj h)
          refine ⟨hne, fun hmem => ?_⟩
          have hall := List.all_eq_true.mp List.all_takeWhile _ hmem
          simp at hall
      · cases h
    · cases h
  · rintro ⟨⟨hne, hclose⟩, rfl⟩
    have hall : ∀ c ∈ arg, (c != ']') = true := fun c hc => by
      simpa using fun he : c = ']' => hclose (he ▸ hc)
    simp [argument?, List.takeWhile_append_of_pos hall, List.dropWhile_append_of_pos hall, hne]

theorem token?_eq_none_iff {cs : List Char} :
    token? cs = none ↔ (cs.takeWhile isNameChar).length < 2 := by
  simp only [token?]
  split
  · rename_i h
    simp [h]
  · rename_i h
    split <;> simp [h]

/-- A name is read up to its last character, and then an argument if there is one. -/
theorem token?_append {name rest : List Char} (hl : 2 ≤ name.length)
    (hn : name.all isNameChar = true) (hr : rest.takeWhile isNameChar = []) :
    token? (name ++ rest) = some
      (match argument? rest with
      | some (arg, after) => (.token name (some arg), after)
      | none => (.token name none, rest)) := by
  have hall : ∀ c ∈ name, isNameChar c = true := List.all_eq_true.mp hn
  have htake : (name ++ rest).takeWhile isNameChar = name := by
    rw [List.takeWhile_append_of_pos hall, hr, List.append_nil]
  have hdrop : (name ++ rest).dropWhile isNameChar = rest := by
    have hsplit := List.takeWhile_append_dropWhile (p := isNameChar) (l := name ++ rest)
    rw [htake] at hsplit
    exact List.append_cancel_left hsplit
  simp only [token?, htake, hdrop, if_neg (Nat.not_lt.mpr hl)]
  cases argument? rest <;> rfl

/-- A token that is read has a name, and an argument unless none follows. -/
theorem exists_of_token? {cs rest : List Char} {p : Piece} (h : token? cs = some (p, rest)) :
    ∃ name, (2 ≤ name.length ∧ name.all isNameChar = true) ∧
      ((∃ arg, p = .token name (some arg) ∧ arg ≠ [] ∧ ']' ∉ arg) ∨
        p = .token name none ∧ rest.takeWhile isNameChar = [] ∧ argument? rest = none) := by
  simp only [token?] at h
  split at h
  · cases h
  · rename_i hl
    refine ⟨cs.takeWhile isNameChar, ⟨Nat.not_lt.mp hl, List.all_takeWhile⟩, ?_⟩
    split at h
    · rename_i arg tail harg
      obtain ⟨rfl, rfl⟩ := Prod.mk.inj (Option.some.inj h)
      exact .inl ⟨arg, rfl, (argument?_eq_some_iff.mp harg).1⟩
    · rename_i harg
      obtain ⟨rfl, rfl⟩ := Prod.mk.inj (Option.some.inj h)
      refine .inr ⟨rfl, ?_, harg⟩
      have hhead := List.head?_dropWhile_not isNameChar cs
      cases hdrop : cs.dropWhile isNameChar with
      | nil => rfl
      | cons c tail =>
          have hc : isNameChar c = false := by simpa [hdrop] using hhead
          simp [hc]

theorem ofChars_cons_of_token? {cs rest : List Char} {p : Piece}
    (h : token? cs = some (p, rest)) : ofChars (':' :: cs) = p :: ofChars rest := by
  rw [ofChars, if_pos rfl]
  split
  · rename_i h'
    rw [h] at h'
    obtain ⟨rfl, rfl⟩ := Prod.mk.inj (Option.some.inj h')
    rfl
  · rename_i h'
    rw [h] at h'
    cases h'

theorem ofChars_cons_of_not_startsToken {c : Char} {cs : List Char} (h : ¬StartsToken (c :: cs)) :
    ofChars (c :: cs) = .char c :: ofChars cs := by
  rw [ofChars]
  split
  · rename_i hc
    have hnone : token? cs = none :=
      token?_eq_none_iff.mpr (Nat.lt_of_not_le fun hl => h ⟨hc, hl⟩)
    split
    · rename_i h'
      rw [hnone] at h'
      cases h'
    · rw [hc]
  · rfl

/-- A text in which no token starts is read character by character, up to the next token. -/
theorem ofChars_append {cs rest : List Char} (hc : ∀ ds, ds <:+ cs → ¬StartsToken ds)
    (hr : rest.takeWhile isNameChar = []) :
    ofChars (cs ++ rest) = cs.map .char ++ ofChars rest := by
  induction cs with
  | nil => rfl
  | cons c cs ih =>
      have hstart : ¬StartsToken (c :: (cs ++ rest)) := by
        rintro ⟨rfl, hl⟩
        rw [takeWhile_isNameChar_append hr] at hl
        exact hc _ List.suffix_rfl ⟨rfl, hl⟩
      rw [List.cons_append, ofChars_cons_of_not_startsToken hstart,
        ih fun ds hds => hc ds (hds.trans (List.suffix_cons c cs))]
      rfl

end Piece

namespace Node

/-- Characters become one literal if what follows them does not start with another. -/
theorem ofPieces_append {cs : List Char} {ps : List Piece} (hne : cs ≠ [])
    (hps : ∀ text rest, ofPieces ps ≠ .literal text :: rest) :
    ofPieces (cs.map .char ++ ps) = .literal (String.ofList cs) :: ofPieces ps := by
  have hfirst (c : Char) :
      consChar c (ofPieces ps) = .literal (String.singleton c) :: ofPieces ps := by
    unfold consChar
    split
    · rename_i text rest h
      exact absurd h (hps text rest)
    · rfl
  induction cs with
  | nil => exact absurd rfl hne
  | cons c cs ih =>
      rw [List.map_cons, List.cons_append, ofPieces]
      cases cs with
      | nil => exact hfirst c
      | cons d ds =>
          rw [ih (by simp)]
          simp [consChar]

end Node

namespace Template

@[simp] theorem unparse_nil : unparse [] = "" := rfl

@[simp] theorem unparse_cons (n : Node) (ns : List Node) :
    unparse (n :: ns) = n.text ++ unparse ns := by
  simp [unparse]

theorem unparse_nodes_ofChars (cs : List Char) :
    unparse (Node.ofPieces (Piece.ofChars cs)) = String.ofList cs := by
  simpa [parse] using unparse_parse (String.ofList cs)

theorem isArgument_ofList {arg : List Char} :
    IsArgument (String.ofList arg) ↔ arg ≠ [] ∧ ']' ∉ arg := by
  simp [IsArgument]

/-- What would lengthen a token is what its reading would take in. -/
theorem lengthens_iff {text : String} :
    Lengthens text ↔
      text.toList.takeWhile isNameChar ≠ [] ∨ Piece.argument? text.toList ≠ none := by
  constructor
  · rintro (⟨c, cs, htext, hc⟩ | ⟨arg, rest, ⟨hne, hclose⟩, rfl⟩)
    · left
      simp [htext, hc]
    · right
      have harg : Piece.argument? ("[" ++ arg ++ "]" ++ rest).toList =
          some (arg.toList, rest.toList) :=
        Piece.argument?_eq_some_iff.mpr ⟨⟨by simpa using hne, hclose⟩, by simp⟩
      rw [harg]
      exact Option.some_ne_none _
  · rintro (h | h)
    · left
      cases htext : text.toList with
      | nil => simp [htext] at h
      | cons c cs =>
          rw [htext, List.takeWhile_cons] at h
          split at h
          · rename_i hc
            exact ⟨c, cs, rfl, hc⟩
          · exact absurd rfl h
    · right
      obtain ⟨⟨arg, rest⟩, harg⟩ := Option.ne_none_iff_exists'.mp h
      obtain ⟨hvalid, htext⟩ := Piece.argument?_eq_some_iff.mp harg
      refine ⟨String.ofList arg, String.ofList rest, isArgument_ofList.mpr hvalid, ?_⟩
      apply String.toList_injective
      simp [htext]

theorem not_lengthens_iff {text : String} :
    ¬Lengthens text ↔
      text.toList.takeWhile isNameChar = [] ∧ Piece.argument? text.toList = none := by
  rw [lengthens_iff]
  simp only [not_or, ne_eq, Classical.not_not]

/-- A text that starts a token still does so when more text follows. -/
theorem StartsToken.append {cs : List Char} (h : StartsToken cs) (rest : List Char) :
    StartsToken (cs ++ rest) := by
  cases cs with
  | nil => exact h.elim
  | cons c cs =>
      have hle : (cs.takeWhile isNameChar).length ≤ ((cs ++ rest).takeWhile isNameChar).length := by
        rw [List.takeWhile_append]
        split
        · rw [List.length_append]
          omega
        · exact Nat.le_refl _
      exact ⟨h.1, Nat.le_trans h.2 hle⟩

theorem Canonical.consChar {c : Char} {ns : List Node} (h : Canonical ns)
    (hc : ¬StartsToken (c :: (unparse ns).toList)) : Canonical (Node.consChar c ns) := by
  unfold Node.consChar
  split
  · rename_i text rest
    cases h with
    | cons node next tail =>
        have hnext : MayPrecede (.literal (String.singleton c ++ text)) rest := by
          cases rest with
          | nil => trivial
          | cons n rest => cases n <;> exact next
        refine .cons ⟨by simp, ?_⟩ hnext tail
        intro ds hds
        rw [String.toList_append, String.toList_singleton, List.singleton_append,
          List.suffix_cons_iff] at hds
        obtain rfl | hds := hds
        · intro hstart
          apply hc
          simpa [Node.text] using hstart.append (unparse rest).toList
        · exact node.2 ds hds
  · rename_i hns
    refine .cons ⟨by simp, ?_⟩ ?_ h
    · intro ds hds
      rw [String.toList_singleton, List.suffix_cons_iff, List.suffix_nil] at hds
      obtain rfl | rfl := hds
      · rintro ⟨-, hl⟩
        simp at hl
      · exact id
    · cases ns with
      | nil => trivial
      | cons n rest =>
          cases n with
          | literal text => exact (hns text rest rfl).elim
          | token name arg => trivial

/-- Every text is read canonically, whichever characters it holds. -/
theorem canonical_ofChars (cs : List Char) : Canonical (Node.ofPieces (Piece.ofChars cs)) := by
  fun_induction Piece.ofChars cs with
  | case1 => exact .nil
  | case2 cs p rest h ih =>
      obtain ⟨name, ⟨hl, hn⟩, ⟨arg, rfl, harg⟩ | ⟨rfl, hr, ha⟩⟩ := Piece.exists_of_token? h
      · exact .cons ⟨⟨by simpa using hl, by simpa using hn⟩, isArgument_ofList.mpr harg⟩ trivial ih
      · refine .cons ⟨by simpa using hl, by simpa using hn⟩ ?_ ih
        have hnext : ¬Lengthens (String.ofList rest) := by
          rw [not_lengthens_iff, String.toList_ofList]
          exact ⟨hr, ha⟩
        rwa [← unparse_nodes_ofChars] at hnext
  | case3 cs h ih =>
      apply ih.consChar
      rintro ⟨-, hl⟩
      rw [unparse_nodes_ofChars, String.toList_ofList] at hl
      exact absurd (Piece.token?_eq_none_iff.mp h) (Nat.not_lt.mpr hl)
  | case4 c cs hc ih => exact ih.consChar fun hstart => hc hstart.1

theorem takeWhile_isNameChar_unparse {ns : List Node}
    (h : ∀ text rest, ns ≠ .literal text :: rest) :
    (unparse ns).toList.takeWhile isNameChar = [] := by
  cases ns with
  | nil => rfl
  | cons n rest =>
      cases n with
      | literal text => exact (h text rest rfl).elim
      | token name arg => cases arg <;> simp [Node.text, isNameChar]

/-- Reading what a canonical list prints gives the list again. -/
theorem nodes_parse_unparse {ns : List Node} (h : Canonical ns) :
    (parse (unparse ns)).nodes = ns := by
  induction h with
  | nil => simp [parse, Piece.ofChars, Node.ofPieces]
  | @cons n rest node next tail ih =>
      simp only [parse] at ih ⊢
      cases n with
      | literal text =>
          have hrest : ∀ t ns, rest ≠ .literal t :: ns := by
            rintro t ns rfl
            exact next
          rw [unparse_cons, Node.text, String.toList_append,
            Piece.ofChars_append node.2 (takeWhile_isNameChar_unparse hrest),
            Node.ofPieces_append (by simpa using node.1) (by rwa [ih]), ih, String.ofList_toList]
      | token name arg =>
          cases arg with
          | none =>
              obtain ⟨hr, ha⟩ := not_lengthens_iff.mp next
              have htoken := Piece.token?_append node.1 node.2 hr
              rw [ha] at htoken
              have hchars := Piece.ofChars_cons_of_token? htoken
              simp [Node.text, hchars, Node.ofPieces, ih]
          | some arg =>
              have harg : Piece.argument? ('[' :: arg.toList ++ ']' :: (unparse rest).toList) =
                  some (arg.toList, (unparse rest).toList) :=
                Piece.argument?_eq_some_iff.mpr ⟨⟨by simpa using node.2.1, node.2.2⟩, rfl⟩
              have hr : ('[' :: arg.toList ++ ']' :: (unparse rest).toList).takeWhile
                  isNameChar = [] := rfl
              have htoken := Piece.token?_append node.1.1 node.1.2 hr
              rw [harg, List.cons_append] at htoken
              have hchars := Piece.ofChars_cons_of_token? htoken
              simp [Node.text, hchars, Node.ofPieces, ih]

theorem canonical_iff {ns : List Node} : Canonical ns ↔ (parse (unparse ns)).nodes = ns :=
  ⟨nodes_parse_unparse, fun h => h ▸ canonical_ofChars _⟩

instance : DecidablePred Canonical := fun _ =>
  decidable_of_iff _ canonical_iff.symm

/-- Reading loses nothing, and what it gives is canonical. -/
theorem parse_lossless_canonical (src : String) :
    unparse (parse src).nodes = src ∧ Canonical (parse src).nodes :=
  ⟨unparse_parse src, canonical_ofChars src.toList⟩

/-- A canonical list is the reading of what it prints. So no other canonical list prints the same,
and it is the reading of that text alone. -/
theorem canonical_reading_unique {ns : List Node} (h : Canonical ns) :
    (parse (unparse ns)).nodes = ns ∧
      (∀ ms, Canonical ms → unparse ms = unparse ns → ms = ns) ∧
      ∀ src, unparse ns = src ↔ (parse src).nodes = ns := by
  have hself := nodes_parse_unparse h
  refine ⟨hself, ?_, ?_⟩
  · intro ms hms htext
    rw [← nodes_parse_unparse hms, htext, hself]
  · intro src
    constructor
    · rintro rfl
      exact hself
    · rintro rfl
      exact unparse_parse src

/-- Colons, short names and brackets in all places where they are literal or part of an argument. -/
def nestedNodes : List Node :=
  [.literal ":a[", .token "ab" (some "x:cd["), .token "ef" none, .literal "[]:é:", .token "-_" none,
    .literal "[ij"]

theorem canonical_reading_unique_nested :
    Canonical nestedNodes ∧ (parse ":a[:ab[x:cd[]:ef[]:é::-_[ij").nodes = nestedNodes := by
  have h : Canonical nestedNodes := by decide +kernel
  exact ⟨h, ((canonical_reading_unique h).2.2 _).mp (by decide)⟩

/-- A bracket that is literal right after a token is closed by that of a later argument. -/
example : ¬Canonical [.token "ab" none, .literal "[", .token "cd" (some "x")] := by
  decide +kernel

end Template

end AccessLine
