import AccessLine.Text.Cut

/-!
# Texts taken apart

Reading a list item by item, cutting a text at its first separator and stripping it at both ends:
what each finds in a text put together from its parts, and that it finds nothing else.
-/
namespace AccessLine.Text

universe u v

theorem mapM_eq_some_iff {α : Type u} {β : Type v} {f : α → Option β} {xs : List α} {ys : List β} :
    xs.mapM f = some ys ↔ xs.map f = ys.map some := by
  induction xs generalizing ys with
  | nil => cases ys <;> simp
  | cons x xs ih =>
      rw [List.mapM_cons]
      cases ys with
      | nil => cases f x <;> cases xs.mapM f <;> simp
      | cons y ys =>
          cases hx : f x with
          | none => simp [hx]
          | some z => cases hxs : xs.mapM f <;> simp [hx, ← ih, hxs]

/-- What stands before the first separator and after it. -/
theorem cutFirst?_append {sep : Char} {cs : List Char} (h : sep ∉ cs) (rest : List Char) :
    cutFirst? sep (cs ++ sep :: rest) = some (cs, rest) := by
  have hall : ∀ c ∈ cs, (c != sep) = true := fun c hc => by
    simpa using fun he : c = sep => h (he ▸ hc)
  simp [cutFirst?, List.takeWhile_append_of_pos hall, List.dropWhile_append_of_pos hall]

/-- A text is cut only into the parts that it was put together from. -/
theorem of_cutFirst? {sep : Char} {cs front back : List Char}
    (h : cutFirst? sep cs = some (front, back)) : cs = front ++ sep :: back ∧ sep ∉ front := by
  unfold cutFirst? at h
  split at h
  · cases h
  · rename_i c rest hdrop
    obtain ⟨rfl, rfl⟩ := Prod.mk.inj (Option.some.inj h)
    have hc : c = sep := by
      have hhead := List.head?_dropWhile_not (· != sep) cs
      simpa [hdrop] using hhead
    constructor
    · rw [← congrArg (· :: rest) hc, ← hdrop, List.takeWhile_append_dropWhile]
    · intro hmem
      simpa using List.all_eq_true.mp List.all_takeWhile sep hmem

theorem takeWhile_append_of_head? {p : Char → Bool} {before cs : List Char}
    (hb : ∀ c ∈ before, p c = true) (hh : ∀ c, cs.head? = some c → p c = false) :
    (before ++ cs).takeWhile p = before := by
  rw [List.takeWhile_append_of_pos hb]
  cases cs with
  | nil => simp
  | cons c cs => simp [hh c rfl]

theorem dropWhile_append_of_head? {p : Char → Bool} {before cs : List Char}
    (hb : ∀ c ∈ before, p c = true) (hh : ∀ c, cs.head? = some c → p c = false) :
    (before ++ cs).dropWhile p = cs := by
  rw [List.dropWhile_append_of_pos hb]
  cases cs with
  | nil => rfl
  | cons c cs => simp [hh c rfl]

/-- A text that neither starts nor ends with a character to be stripped is left as it is between
such characters. -/
theorem strip_append {p : Char → Bool} {before cs after : List Char}
    (hb : ∀ c ∈ before, p c = true) (ha : ∀ c ∈ after, p c = true) (hne : cs ≠ [])
    (hh : ∀ c, cs.head? = some c → p c = false) (hl : ∀ c, cs.getLast? = some c → p c = false) :
    strip p (before ++ cs ++ after) = cs := by
  have hhead : ∀ c, (cs ++ after).head? = some c → p c = false := by
    intro c hc
    obtain ⟨d, ds, rfl⟩ := List.exists_cons_of_ne_nil hne
    exact hh c hc
  have hlast : ∀ c, cs.reverse.head? = some c → p c = false := by
    intro c hc
    exact hl c (List.head?_reverse ▸ hc)
  have hafter : ∀ c ∈ after.reverse, p c = true := fun c hc => ha c (List.mem_reverse.mp hc)
  rw [strip, List.append_assoc, dropWhile_append_of_head? hb hhead, List.reverse_append,
    dropWhile_append_of_head? hafter hlast, List.reverse_reverse]

/-- What is stripped from a text stood at its ends. -/
theorem exists_append_strip (p : Char → Bool) (cs : List Char) :
    ∃ before after, cs = before ++ strip p cs ++ after ∧ (∀ c ∈ before, p c = true) ∧
      ∀ c ∈ after, p c = true := by
  let inner := cs.dropWhile p
  refine ⟨cs.takeWhile p, (inner.reverse.takeWhile p).reverse, ?_, ?_, ?_⟩
  · have hinner : strip p cs ++ (inner.reverse.takeWhile p).reverse = inner := by
      rw [strip, ← List.reverse_append, List.takeWhile_append_dropWhile, List.reverse_reverse]
    rw [List.append_assoc, hinner, List.takeWhile_append_dropWhile]
  · exact fun c hc => List.all_eq_true.mp List.all_takeWhile c hc
  · exact fun c hc => List.all_eq_true.mp List.all_takeWhile c (List.mem_reverse.mp hc)

end AccessLine.Text
