import AccessLine.Proofs.Template.Reading
import AccessLine.Proofs.Text.Boundaries
import AccessLine.Template.Offsets

/-!
# Offsets keep to characters

What the cursor has passed is always whole characters of the text, up to the start of the literal
and up to every token, however many bytes they have. So every cut is clean, and the nodes are those
that are read from the characters.
-/
namespace AccessLine.Template.Offsets

open Text Text.Utf8

/-! ### Accesses between characters -/

/-- The bytes that characters take. -/
def size (cs : List Char) : Nat :=
  (encodeChars cs).length

@[simp] theorem size_nil : size [] = 0 := rfl

@[simp] theorem size_cons (c : Char) (cs : List Char) :
    size (c :: cs) = (String.utf8EncodeChar c).length + size cs := by
  simp [size]

@[simp] theorem size_append (cs ds : List Char) : size (cs ++ ds) = size cs + size ds := by
  simp [size]

theorem size_eq_zero_iff {cs : List Char} : size cs = 0 ↔ cs = [] := by
  rw [size, List.length_eq_zero_iff, encodeChars_eq_nil_iff]

theorem size_append_ascii (cs : List Char) {c : Char} (h : c.toNat < 0x80) :
    size (cs ++ [c]) = size cs + 1 := by
  simp only [size_append, size_cons, size_nil, utf8EncodeChar_of_lt h, List.length_singleton]

/-- The offsets of characters that follow others. -/
def Span.after (front mid : List Char) : Span :=
  ⟨size front, size (front ++ mid)⟩

section
variable (front back : List Char)

theorem from?_after : from? (encodeChars (front ++ back)) (size front) = some (encodeChars back) := by
  rw [from?, encodeChars_append, if_pos (by simp [size]), size, List.drop_left]

theorem getElem?_after (k : Nat) :
    (encodeChars (front ++ back))[size front + k]? = (encodeChars back)[k]? := by
  rw [encodeChars_append, size, List.getElem?_append_right (Nat.le_add_right _ _),
    Nat.add_sub_cancel_left]

theorem isBoundary_after : isBoundary (encodeChars (front ++ back)) (size front) = true := by
  have hget := getElem?_after front back 0
  unfold isBoundary
  rw [Nat.add_zero] at hget
  rw [hget]
  cases back with
  | nil => simp [size]
  | cons c back =>
      obtain ⟨b, bs, hbytes, hb⟩ := exists_utf8EncodeChar_cons c
      simpa [hbytes, UInt8.lt_iff_toNat_lt, UInt8.le_iff_toNat_le] using hb

end

/-- The offsets cut out the characters. -/
def Cuts (cs : List Char) (s : Span) (mid : List Char) : Prop :=
  ∃ front back, cs = front ++ (mid ++ back) ∧ s = Span.after front mid

theorem Cuts.text? {cs mid : List Char} {s : Span} (h : Cuts cs s mid) :
    s.text? (encodeChars cs) = some (String.ofList mid) := by
  obtain ⟨front, back, rfl, rfl⟩ := h
  have hstart := isBoundary_after front (mid ++ back)
  have hstop := isBoundary_after (front ++ mid) back
  rw [List.append_assoc] at hstop
  have hcut : ((encodeChars (front ++ (mid ++ back))).drop (size front)).take (size mid) =
      encodeChars mid := by
    simp [size]
  rw [Span.text?, if_pos ⟨by simp [Span.after], hstart, hstop⟩]
  simp only [Span.after, size_append, Nat.add_sub_cancel_left]
  rw [hcut, decode?_encodeChars]

/-- The offsets are in order, lie within the text, and stand between characters or at its ends. -/
structure Clean (src : String) (s : Span) : Prop where
  start_le_stop : s.start ≤ s.stop
  start_isValid : (⟨s.start⟩ : String.Pos.Raw).IsValid src
  stop_isValid : (⟨s.stop⟩ : String.Pos.Raw).IsValid src

theorem Cuts.clean {src : String} {s : Span} {mid : List Char} (h : Cuts src.toList s mid) :
    Clean src s := by
  obtain ⟨front, back, htext, rfl⟩ := h
  have hstop : src.toList = front ++ mid ++ back := by rw [htext, List.append_assoc]
  exact ⟨by simp [Span.after], isValid_of_toList_eq htext, isValid_of_toList_eq hstop⟩

/-! ### Tokens among bytes -/

/-- A name has ASCII characters only. -/
theorem isNameChar_of_le {c : Char} (h : 0x80 ≤ c.toNat) : isNameChar c = false := by
  have hle (d : Char) (hd : d.toNat < 0x80) : ¬c ≤ d := fun hcd =>
    absurd (Nat.le_trans h (Char.le_def.mp hcd)) (Nat.not_le.mpr hd)
  have hne (d : Char) (hd : d.toNat < 0x80) : c ≠ d := by
    rintro rfl
    exact absurd h (Nat.not_le.mpr hd)
  simp [isNameChar, hle 'z' (by decide), hle 'Z' (by decide), hle '9' (by decide),
    hne '_' (by decide), hne '-' (by decide)]

theorem isNameByte_of_le {b : UInt8} (h : 0x80 ≤ b.toNat) : isNameByte b = false := by
  have hle (d : UInt8) (hd : d.toNat < 0x80) : ¬b ≤ d := fun hbd =>
    absurd (Nat.le_trans h hbd) (Nat.not_le.mpr hd)
  have hne (d : UInt8) (hd : d.toNat < 0x80) : b ≠ d := by
    rintro rfl
    exact absurd h (Nat.not_le.mpr hd)
  simp [isNameByte, hle 0x7A (by decide), hle 0x5A (by decide), hle 0x39 (by decide),
    hne 0x5F (by decide), hne 0x2D (by decide)]

theorem alike_name : Alike isNameByte isNameChar :=
  .of_ascii (by decide +kernel) (fun _ => isNameByte_of_le) (fun _ => isNameChar_of_le)

theorem alike_colon : Alike (· == 0x3A) (· == ':') :=
  alike_beq (n := 0x3A) (by decide)

theorem alike_close : Alike (· == 0x5D) (· == ']') :=
  alike_beq (n := 0x5D) (by decide)

section
variable (front : List Char)

/-- The first closing bracket ends an argument, unless it comes at once. -/
theorem findIdx?_close (cs : List Char) :
    (match (encodeChars cs).findIdx? (· == 0x5D) with
      | some (n + 1) => some (⟨size front, size front + (n + 1)⟩ : Span)
      | _ => none) =
      (Piece.argument? ('[' :: cs)).map fun r => Span.after front r.1 := by
  by_cases hclose : ']' ∈ cs
  · obtain ⟨arg, rest, rfl, hfirst⟩ := List.eq_append_cons_of_mem hclose
    have hreject : ∀ c ∈ arg, (c == ']') = false := fun c hc =>
      beq_false_of_ne fun he => hfirst (he ▸ hc)
    rw [alike_close.findIdx?_append hreject (by decide)]
    cases arg with
    | nil => simp [Piece.argument?]
    | cons c arg =>
        have harg : Piece.argument? ('[' :: (c :: arg ++ ']' :: rest)) = some (c :: arg, rest) :=
          Piece.argument?_eq_some_iff.mpr ⟨⟨by simp, hfirst⟩, rfl⟩
        have hsize : size (c :: arg) ≠ 0 := fun h => List.cons_ne_nil c arg (size_eq_zero_iff.mp h)
        obtain ⟨n, hn⟩ := Nat.exists_eq_succ_of_ne_zero hsize
        rw [harg, Option.map_some, Span.after, size_append, ← size, hn]
  · have hreject : ∀ c ∈ cs, (c == ']') = false := fun c hc =>
      beq_false_of_ne fun he => hclose (he ▸ hc)
    have harg : Piece.argument? ('[' :: cs) = none := by
      rw [Option.eq_none_iff_forall_ne_some]
      rintro ⟨arg, rest⟩ harg
      obtain ⟨-, hcs⟩ := Piece.argument?_eq_some_iff.mp harg
      apply hclose
      rw [List.cons.inj hcs |>.2]
      simp
    rw [alike_close.findIdx?_eq_none hreject, harg, Option.map_none]

/-- An argument is found where the characters have it. -/
theorem argument?_after (cs : List Char) :
    argument? (encodeChars (front ++ cs)) (size front) =
      some ((Piece.argument? cs).map fun r => Span.after (front ++ ['[']) r.1) := by
  have hget := getElem?_after front cs 0
  rw [Nat.add_zero, ← List.head?_eq_getElem?] at hget
  have hopen : (encodeChars cs).head? = some 0x5B ↔ cs.head? = some '[' :=
    head?_encodeChars_eq_iff (n := 0x5B) (by decide) cs
  unfold argument?
  rw [hget]
  split
  next h =>
    obtain ⟨cs, rfl⟩ := List.head?_eq_some_iff.mp (hopen.mp h)
    have hsize : size (front ++ ['[']) = size front + 1 := size_append_ascii front (by decide)
    have hrest := from?_after (front ++ ['[']) cs
    rw [List.append_assoc, List.singleton_append, hsize] at hrest
    rw [hrest, Option.map_some, ← hsize]
    exact congrArg some (findIdx?_close (front ++ ['[']) cs)
  next h =>
    rw [hopen] at h
    unfold Piece.argument?
    split
    · exact absurd rfl h
    · rfl

/-- The offsets of a token that is written after other characters. -/
def Extent.after (name : List Char) (arg : Option (List Char)) : Extent :=
  .of (Span.after (front ++ [':']) name) (arg.map (Span.after (front ++ ':' :: name ++ ['['])))

theorem Extent.stop_after (name : List Char) (arg : Option (List Char)) :
    (Extent.after front name arg).stop = size (front ++ (Piece.token name arg).chars) := by
  cases arg with
  | none => simp [Extent.after, Extent.of, Span.after, Piece.chars]
  | some arg =>
      have h := size_append_ascii (front ++ ':' :: name ++ ['['] ++ arg) (c := ']') (by decide)
      simpa [Extent.after, Extent.of, Span.after, Piece.chars] using h.symm

theorem cuts_name (name : List Char) (arg : Option (List Char)) (back : List Char) :
    Cuts (front ++ ((Piece.token name arg).chars ++ back)) (Extent.after front name arg).name name := by
  cases arg with
  | none => exact ⟨front ++ [':'], back, by simp [Piece.chars], rfl⟩
  | some arg => exact ⟨front ++ [':'], '[' :: arg ++ ']' :: back, by simp [Piece.chars], rfl⟩

theorem cuts_arg (name arg back : List Char) :
    Cuts (front ++ ((Piece.token name (some arg)).chars ++ back))
      (Span.after (front ++ ':' :: name ++ ['[']) arg) arg :=
  ⟨front ++ ':' :: name ++ ['['], ']' :: back, by simp [Piece.chars], rfl⟩

/-- No byte of another character is a colon. -/
theorem token?_of_ne {c : Char} (hc : c ≠ ':') {k : Nat} (hk : k < (String.utf8EncodeChar c).length)
    (back : List Char) :
    token? (encodeChars (front ++ c :: back)) (size front + k) = some none := by
  have hget := getElem?_after front (c :: back) k
  rw [encodeChars_cons, List.getElem?_append_left hk, List.getElem?_eq_getElem hk] at hget
  have hcolon : (String.utf8EncodeChar c)[k] ≠ 0x3A :=
    ne_of_beq_false ((alike_colon c _ (List.getElem_mem hk)).trans (beq_false_of_ne hc))
  rw [token?, hget]
  exact if_neg hcolon

theorem size_name (cs : List Char) :
    size (cs.takeWhile isNameChar) = (cs.takeWhile isNameChar).length := by
  have hascii (c : Char) (hc : isNameChar c = true) : (String.utf8EncodeChar c).length = 1 := by
    have hlt : c.toNat < 0x80 := Nat.lt_of_not_le fun hle => by
      rw [isNameChar_of_le hle] at hc
      cases hc
    rw [utf8EncodeChar_of_lt hlt, List.length_singleton]
  have hall := List.all_eq_true.mp (List.all_takeWhile (p := isNameChar) (l := cs))
  generalize cs.takeWhile isNameChar = name at hall ⊢
  induction name with
  | nil => rfl
  | cons c name ih =>
      rw [size_cons, hascii c (hall c (by simp)), ih fun d hd => hall d (by simp [hd]),
        List.length_cons, Nat.add_comm]

/-- A token is found where the characters have it. -/
theorem token?_colon (cs : List Char) :
    token? (encodeChars (front ++ ':' :: cs)) (size front) =
      if (cs.takeWhile isNameChar).length < 2 then some none
      else some (some (Extent.after front (cs.takeWhile isNameChar)
        ((Piece.argument? (cs.dropWhile isNameChar)).map Prod.fst))) := by
  have hcolon : (encodeChars (front ++ ':' :: cs))[size front]? = some 0x3A :=
    getElem?_after front (':' :: cs) 0
  have hsize : size (front ++ [':']) = size front + 1 := size_append_ascii front (by decide)
  have hrest := from?_after (front ++ [':']) cs
  rw [List.append_assoc, List.singleton_append, hsize] at hrest
  have hname := congrArg List.length (alike_name.takeWhile cs)
  have harg := argument?_after (front ++ ':' :: cs.takeWhile isNameChar) (cs.dropWhile isNameChar)
  rw [List.append_assoc, List.cons_append, List.takeWhile_append_dropWhile] at harg
  rw [← size, size_name] at hname
  unfold token?
  rw [hcolon]
  simp only [Option.bind_eq_bind, Option.bind_some, if_true, hrest, hname]
  have hstop : size front + 1 + (cs.takeWhile isNameChar).length =
      size (front ++ ':' :: cs.takeWhile isNameChar) := by
    rw [← size_name, ← hsize, ← size_append, List.append_assoc, List.singleton_append]
  split
  · rfl
  · have hspan : Span.after (front ++ [':']) (cs.takeWhile isNameChar) =
        ⟨size front + 1, size (front ++ ':' :: cs.takeWhile isNameChar)⟩ := by
      rw [Span.after, hsize, List.append_assoc, List.singleton_append]
    rw [hstop, harg, Option.bind_some, Extent.after, Option.map_map, hspan]
    rfl

theorem token?_of_none {cs : List Char} (h : Piece.token? cs = none) :
    token? (encodeChars (front ++ ':' :: cs)) (size front) = some none := by
  rw [token?_colon, if_pos (Piece.token?_eq_none_iff.mp h)]

theorem token?_of_some {cs rest : List Char} {p : Piece} (h : Piece.token? cs = some (p, rest)) :
    ∃ name arg, p = .token name arg ∧
      token? (encodeChars (front ++ ':' :: cs)) (size front) =
        some (some (Extent.after front name arg)) := by
  simp only [Piece.token?] at h
  split at h
  · cases h
  next hlength =>
    rw [token?_colon, if_neg hlength]
    split at h
    next arg after harg =>
      obtain ⟨rfl, rfl⟩ := Prod.mk.inj (Option.some.inj h)
      exact ⟨_, some arg, rfl, by rw [harg]; rfl⟩
    next harg =>
      obtain ⟨rfl, rfl⟩ := Prod.mk.inj (Option.some.inj h)
      exact ⟨_, none, rfl, by rw [harg]; rfl⟩

end

/-! ### Nodes -/

/-- The literal that characters make up, if there are any. -/
def literals (cs : List Char) : List Node :=
  if cs = [] then [] else [.literal (String.ofList cs)]

theorem ofPieces_append_token (cs name : List Char) (arg : Option (List Char)) (ps : List Piece) :
    Node.ofPieces (cs.map .char ++ .token name arg :: ps) =
      literals cs ++ .token (String.ofList name) (arg.map String.ofList) :: Node.ofPieces ps := by
  by_cases hcs : cs = []
  · simp [hcs, literals, Node.ofPieces]
  · rw [Node.ofPieces_append hcs (by simp [Node.ofPieces]), literals, if_neg hcs]
    rfl

theorem ofPieces_map_char (cs : List Char) : Node.ofPieces (cs.map .char) = literals cs := by
  by_cases hcs : cs = []
  · simp [hcs, literals, Node.ofPieces]
  · have h : Node.ofPieces (cs.map .char ++ []) = .literal (String.ofList cs) :: Node.ofPieces [] :=
      Node.ofPieces_append hcs (by simp [Node.ofPieces])
    rw [List.append_nil] at h
    rw [h, literals, if_neg hcs]
    rfl

theorem literal?_after (front lit back : List Char) :
    literal? (encodeChars (front ++ (lit ++ back))) (size front) (size (front ++ lit)) =
      some (literals lit) := by
  have htext : (Span.after front lit).text? (encodeChars (front ++ (lit ++ back))) = _ :=
    Cuts.text? ⟨front, back, rfl, rfl⟩
  rw [Span.after] at htext
  unfold literal? literals
  rw [htext, size_append]
  by_cases hlit : lit = []
  · simp [hlit]
  · have : size lit ≠ 0 := fun h => hlit (size_eq_zero_iff.mp h)
    rw [if_pos (by omega), if_neg hlit]
    rfl

theorem arg_text?_after (front name : List Char) (arg : Option (List Char)) (back : List Char) :
    (Extent.after front name arg).arg.mapM
        (Span.text? (encodeChars (front ++ ((Piece.token name arg).chars ++ back)))) =
      some (arg.map String.ofList) := by
  cases arg with
  | none => rfl
  | some arg =>
      have harg := (cuts_arg front name arg back).text?
      simp only [Extent.after, Extent.of, Option.map_some, Option.mapM_some]
      rw [harg]
      rfl

theorem takeToken?_after (nodes : List Node) (front lit name : List Char) (arg : Option (List Char))
    (back : List Char) :
    takeToken? (encodeChars (front ++ (lit ++ ((Piece.token name arg).chars ++ back))))
        ⟨nodes, size front, size (front ++ lit)⟩ (Extent.after (front ++ lit) name arg) =
      some ⟨nodes ++ literals lit ++ [.token (String.ofList name) (arg.map String.ofList)],
        size (front ++ lit ++ (Piece.token name arg).chars),
        size (front ++ lit ++ (Piece.token name arg).chars)⟩ := by
  have hliteral := literal?_after front lit ((Piece.token name arg).chars ++ back)
  have hname := (cuts_name (front ++ lit) name arg back).text?
  have harg := arg_text?_after (front ++ lit) name arg back
  rw [List.append_assoc] at hname harg
  unfold takeToken?
  rw [harg, hliteral, hname, Extent.stop_after]
  rfl

/-! ### Turns -/

theorem turn?_of_none {bytes : List UInt8} {s : State} (h : token? bytes s.cursor = some none) :
    turn? bytes s = some { s with cursor := s.cursor + 1 } := by
  rw [turn?, h]
  rfl

theorem turn?_of_some {bytes : List UInt8} {s : State} {token : Extent}
    (h : token? bytes s.cursor = some (some token)) : turn? bytes s = takeToken? bytes s token := by
  rw [turn?, h]
  rfl

/-- The state between two turns. The nodes hold all characters in front of the literal, which holds
those up to the one that the cursor is at or in. That character starts no token if the cursor is in
it, for a colon is one byte. -/
inductive At (src : String) : State → Prop
  | inside {nodes : List Node} {front lit back : List Char} {c : Char} {k : Nat}
      (text : src.toList = front ++ (lit ++ c :: back))
      (within : k < (String.utf8EncodeChar c).length)
      (parsed : (parse src).nodes =
        nodes ++ Node.ofPieces (lit.map .char ++ Piece.ofChars (c :: back))) :
      At src ⟨nodes, size front, size (front ++ lit) + k⟩
  | finished {nodes : List Node} {front lit : List Char} (text : src.toList = front ++ lit)
      (parsed : (parse src).nodes = nodes ++ Node.ofPieces (lit.map .char)) :
      At src ⟨nodes, size front, size (front ++ lit)⟩

/-- The offsets that taking a token uses. -/
structure Fits (src : String) (s : State) (token : Extent) : Prop where
  literal : Clean src ⟨s.literalStart, s.cursor⟩
  name : Clean src token.name
  arg : ∀ arg ∈ token.arg, Clean src arg
  stop : (⟨token.stop⟩ : String.Pos.Raw).IsValid src

section
variable {src : String} {nodes : List Node} {front lit back : List Char}

theorem At.between (text : src.toList = front ++ (lit ++ back))
    (parsed : (parse src).nodes = nodes ++ Node.ofPieces (lit.map .char ++ Piece.ofChars back)) :
    At src ⟨nodes, size front, size (front ++ lit)⟩ := by
  cases back with
  | nil =>
      refine .finished (by rw [text, List.append_nil]) ?_
      rw [parsed, Piece.ofChars, List.append_nil]
  | cons c back =>
      obtain ⟨b, bs, hbytes, -⟩ := exists_utf8EncodeChar_cons c
      exact .inside (k := 0) text (by simp [hbytes]) parsed

/-- Where no literal has begun. -/
theorem At.fresh (text : src.toList = front ++ back)
    (parsed : (parse src).nodes = nodes ++ Node.ofPieces (Piece.ofChars back)) :
    At src ⟨nodes, size front, size front⟩ := by
  have h : At src ⟨nodes, size front, size (front ++ [])⟩ := .between text parsed
  rwa [List.append_nil] at h

theorem At.start (src : String) : At src {} :=
  .fresh (List.nil_append src.toList).symm rfl

/-- A byte of a character that starts no token is passed by. -/
theorem At.pass {c : Char} {k : Nat} (text : src.toList = front ++ (lit ++ c :: back))
    (within : k < (String.utf8EncodeChar c).length)
    (parsed : (parse src).nodes =
      nodes ++ Node.ofPieces (lit.map .char ++ Piece.ofChars (c :: back)))
    (hc : Piece.ofChars (c :: back) = .char c :: Piece.ofChars back) :
    At src ⟨nodes, size front, size (front ++ lit) + k + 1⟩ := by
  by_cases hlast : k + 1 < (String.utf8EncodeChar c).length
  · exact .inside text hlast parsed
  · have hsize : size (front ++ lit) + k + 1 = size (front ++ (lit ++ [c])) := by
      simp only [size_append, size_cons, size_nil]
      omega
    have hnext : src.toList = front ++ (lit ++ [c] ++ back) := by simp [text]
    rw [hsize]
    refine .between hnext ?_
    rw [parsed, hc]
    simp

/-- The token at the cursor is taken, up to the character after it. -/
theorem At.take {cs : List Char} {p : Piece} (text : src.toList = front ++ (lit ++ ':' :: cs))
    (parsed : (parse src).nodes =
      nodes ++ Node.ofPieces (lit.map .char ++ Piece.ofChars (':' :: cs)))
    (hp : Piece.token? cs = some (p, back)) :
    ∃ token t, token? (encode src) (size (front ++ lit)) = some (some token) ∧
      Fits src ⟨nodes, size front, size (front ++ lit)⟩ token ∧
      takeToken? (encode src) ⟨nodes, size front, size (front ++ lit)⟩ token = some t ∧
      At src t := by
  obtain ⟨name, arg, rfl, htoken⟩ := token?_of_some (front ++ lit) hp
  have hchars := Piece.chars_of_token? hp
  rw [List.append_assoc, ← text, ← encode_eq_encodeChars] at htoken
  rw [← hchars] at text
  have htake := takeToken?_after nodes front lit name arg back
  rw [← text, ← encode_eq_encodeChars] at htake
  have htext : src.toList = front ++ lit ++ ((Piece.token name arg).chars ++ back) := by
    rw [text, List.append_assoc]
  have hstop : src.toList = front ++ lit ++ (Piece.token name arg).chars ++ back := by
    rw [htext, List.append_assoc (front ++ lit)]
  refine ⟨_, _, htoken, ⟨?_, ?_, ?_, ?_⟩, htake, ?_⟩
  · have hcut : Cuts src.toList (Span.after front lit) lit := ⟨front, _, text, rfl⟩
    exact hcut.clean
  · have hcut := cuts_name (front ++ lit) name arg back
    exact (htext ▸ hcut).clean
  · cases arg with
    | none => exact fun _ h => nomatch h
    | some arg =>
        intro a ha
        obtain rfl := Option.some.inj ha
        have hcut := cuts_arg (front ++ lit) name arg back
        exact (htext ▸ hcut).clean
  · rw [Extent.stop_after]
    exact isValid_of_toList_eq hstop
  · refine .fresh hstop ?_
    rw [parsed, Piece.ofChars_cons_of_token? hp, ofPieces_append_token]
    simp

end

section
variable {src : String} {s : State}

theorem At.bounds (h : At src s) : s.literalStart ≤ s.cursor ∧ s.cursor ≤ (encode src).length ∧
    (⟨s.literalStart⟩ : String.Pos.Raw).IsValid src := by
  rw [encode_eq_encodeChars, ← size]
  cases h with
  | inside text within =>
      refine ⟨?_, ?_, isValid_of_toList_eq text⟩
      · simp only [size_append]
        omega
      · simp only [text, size_append, size_cons]
        omega
  | finished text =>
      refine ⟨?_, ?_, isValid_of_toList_eq text⟩
      · simp
      · simp [text]

/-- A turn has all its accesses within bounds, and its cuts are clean. -/
theorem At.exists_turn (h : At src s) (hs : s.cursor < (encode src).length) :
    ∃ found t, token? (encode src) s.cursor = some found ∧ (∀ token ∈ found, Fits src s token) ∧
      turn? (encode src) s = some t ∧ At src t := by
  cases h with
  | @inside nodes front lit back c k text within parsed =>
      have hpass (htoken : token? (encode src) (size (front ++ lit) + k) = some none)
          (hc : Piece.ofChars (c :: back) = .char c :: Piece.ofChars back) :
          ∃ found t, token? (encode src) (size (front ++ lit) + k) = some found ∧
            (∀ token ∈ found, Fits src ⟨nodes, size front, size (front ++ lit) + k⟩ token) ∧
            turn? (encode src) ⟨nodes, size front, size (front ++ lit) + k⟩ = some t ∧ At src t :=
        ⟨none, _, htoken, by simp, turn?_of_none htoken, At.pass text within parsed hc⟩
      have htext : encode src = encodeChars (front ++ lit ++ c :: back) := by
        rw [encode_eq_encodeChars, text, List.append_assoc]
      by_cases hc : c = ':'
      · subst hc
        -- The colon is one byte, so the cursor stands at it.
        obtain rfl : k = 0 := Nat.lt_one_iff.mp within
        cases hp : Piece.token? back with
        | none =>
            refine hpass (htext ▸ token?_of_none (front ++ lit) hp) ?_
            apply Piece.ofChars_cons_of_not_startsToken
            rintro ⟨-, hl⟩
            exact absurd (Piece.token?_eq_none_iff.mp hp) (Nat.not_lt.mpr hl)
        | some r =>
            obtain ⟨token, t, htoken, hfits, htake, ht⟩ := At.take text parsed hp
            exact ⟨some token, t, htoken, by simpa using hfits,
              (turn?_of_some htoken).trans htake, ht⟩
      · refine hpass (htext ▸ token?_of_ne (front ++ lit) hc within back) ?_
        exact Piece.ofChars_cons_of_not_startsToken fun hstart => hc hstart.1
  | finished text =>
      rw [encode_eq_encodeChars, text, ← size] at hs
      exact absurd hs (Nat.lt_irrefl _)

/-! ### The whole loop -/

theorem At.exists_loop (h : At src s) :
    ∃ t, loop? (encode src) s = some t ∧ At src t ∧ (encode src).length ≤ t.cursor := by
  induction hn : (encode src).length - s.cursor using Nat.strongRecOn generalizing s with
  | ind n ih =>
      by_cases hs : s.cursor < (encode src).length
      · obtain ⟨-, t, -, -, hturn, ht⟩ := h.exists_turn hs
        have hlt := cursor_lt_of_turn? hturn
        obtain ⟨u, hloop, hu⟩ := ih _ (by omega) ht rfl
        refine ⟨u, ?_, hu⟩
        rw [loop?, if_pos hs]
        split
        next t' ht' =>
          obtain rfl := Option.some.inj (ht'.symm.trans hturn)
          exact hloop
        next hnone => cases hnone.symm.trans hturn
      · refine ⟨s, ?_, h, Nat.not_lt.mp hs⟩
        rw [loop?, if_neg hs]

/-- The literal that is left ends the nodes. -/
theorem At.nodes_eq (h : At src s) (hs : (encode src).length ≤ s.cursor) :
    (literal? (encode src) s.literalStart (encode src).length).map (s.nodes ++ ·) =
      some (parse src).nodes := by
  cases h with
  | inside text within =>
      rw [encode_eq_encodeChars, text, ← size] at hs
      simp only [size_append, size_cons] at hs
      omega
  | @finished nodes front lit text parsed =>
      have hliteral := literal?_after front lit []
      rw [List.append_nil, ← text] at hliteral
      rw [encode_eq_encodeChars, ← size, hliteral, Option.map_some, parsed, ofPieces_map_char]

theorem nodes?_eq (src : String) : nodes? src = some (parse src).nodes := by
  obtain ⟨s, hloop, hs, hend⟩ := (At.start src).exists_loop
  rw [← hs.nodes_eq hend, nodes?, hloop, Option.map_eq_bind]
  rfl

end

/-- Characters of one, two and three bytes. -/
example : nodes? "é:ab[ü]–:" = some [.literal "é", .token "ab" (some "ü"), .literal "–:"] := by
  rw [nodes?_eq]
  decide +kernel

/-- The states that the loop goes through. -/
inductive Reachable (bytes : List UInt8) : State → Prop
  | start : Reachable bytes {}
  | turn {s t : State} (reached : Reachable bytes s) (inside : s.cursor < bytes.length)
      (turned : turn? bytes s = some t) : Reachable bytes t

theorem Reachable.at {src : String} {s : State} (h : Reachable (encode src) s) : At src s := by
  induction h with
  | start => exact At.start src
  | turn _ inside turned ih =>
      obtain ⟨-, t, -, -, hturn, ht⟩ := ih.exists_turn inside
      obtain rfl := Option.some.inj (turned.symm.trans hturn)
      exact ht

/-- No access fails, whichever characters the text has, and the nodes are those that are read from
its characters, of which none beyond ASCII belongs to a name. Between two turns the literal starts
at a character and not behind the cursor. Each turn moves the cursor on, at most to the end, and a
token found there has all its offsets between characters. -/
theorem nodes?_eq_and_clean (src : String) :
    nodes? src = some (parse src).nodes ∧
      (∀ c : Char, 0x80 ≤ c.toNat → isNameChar c = false) ∧
      ∀ s, Reachable (encode src) s →
        s.literalStart ≤ s.cursor ∧ s.cursor ≤ (encode src).length ∧
          (⟨s.literalStart⟩ : String.Pos.Raw).IsValid src ∧
          (s.cursor < (encode src).length → ∃ found t, token? (encode src) s.cursor = some found ∧
            (∀ token ∈ found, Fits src s token) ∧ turn? (encode src) s = some t ∧
            s.cursor < t.cursor ∧ t.cursor ≤ (encode src).length) := by
  refine ⟨nodes?_eq src, fun _ => isNameChar_of_le, fun s hs => ?_⟩
  obtain ⟨hle, hend, hvalid⟩ := hs.at.bounds
  refine ⟨hle, hend, hvalid, fun hlt => ?_⟩
  obtain ⟨found, t, hfound, hfits, hturn, ht⟩ := hs.at.exists_turn hlt
  exact ⟨found, t, hfound, hfits, hturn, cursor_lt_of_turn? hturn, ht.bounds.2.1⟩

end AccessLine.Template.Offsets
