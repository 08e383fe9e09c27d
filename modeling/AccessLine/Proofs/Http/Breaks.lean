import AccessLine.Http.Header
import AccessLine.Http.Method
import AccessLine.Http.Uri
import AccessLine.Proofs.Text.Breaks

/-!
# Messages without line breaks

What a message head is read into holds no line break: not the method, not the target of a URI, and
not the values of a header, however they are decoded.
-/
namespace AccessLine.Http

open Text

theorem isBreak_of_isWordChar {c : Char} (h : isWordChar c = true) : isBreak c = false :=
  isBreak_eq_false_of (by decide) (by decide) h

theorem Method.hasBreak_text (m : Method) : hasBreak m.text = false := by
  have hall := List.all_eq_true.mp m.isWord.2
  exact hasBreak_eq_false_iff.mpr fun c hc => isBreak_of_isWordChar (hall c hc)

theorem Status.hasBreak_text (s : Status) : hasBreak s.text = false :=
  hasBreak_ofList_eq_false_iff.mpr fun _ hc => isBreak_of_mem_toDigits (by decide) hc

theorem Version.hasBreak_number (v : Version) : hasBreak v.number = false := by
  cases v <;> decide

theorem HeaderValue.hasBreak_lossyText (v : HeaderValue) : hasBreak v.lossyText = false := by
  apply Utf8.hasBreak_decodeLossy
  intro b hb
  have hvalue : isValueByte b = true := List.all_eq_true.mp v.all_valueByte b hb
  constructor
  · intro h
    have hb : b = 0x0A := UInt8.toNat_inj.mp h
    rw [hb] at hvalue
    exact absurd hvalue (by decide)
  · intro h
    have hb : b = 0x0D := UInt8.toNat_inj.mp h
    rw [hb] at hvalue
    exact absurd hvalue (by decide)

theorem Headers.hasBreak_of_joined {h : Headers} {name text : String}
    (ht : h.joined? name = some text) : hasBreak text = false := by
  unfold joined? at ht
  split at ht
  · cases ht
  · split at ht
    · cases ht
    · obtain rfl := Option.some.inj ht
      apply hasBreak_intercalate (by decide)
      intro t hmem
      obtain ⟨v, -, rfl⟩ := List.mem_map.mp hmem
      exact v.hasBreak_lossyText

namespace Uri

theorem isBreak_of_isPathChar {c : Char} (h : isPathChar c = true) : isBreak c = false :=
  isBreak_eq_false_of (by decide) (by decide) h

theorem isBreak_of_isQueryChar {c : Char} (h : isQueryChar c = true) : isBreak c = false :=
  isBreak_eq_false_of (by decide) (by decide) h

theorem map_eq_ok {ε α β : Type} {f : α → β} {x : Except ε α} {y : β} (h : f <$> x = .ok y) :
    ∃ a, x = .ok a ∧ f a = y := by
  cases x with
  | error e => cases h
  | ok a => exact ⟨a, rfl, Except.ok.inj h⟩

theorem isBreak_of_parseQuery {cs q : List Char} (h : parseQuery cs = .ok q) :
    ∀ c ∈ q, isBreak c = false := by
  induction cs generalizing q with
  | nil =>
      obtain rfl := Except.ok.inj h
      simp
  | cons c cs ih =>
      unfold parseQuery at h
      split at h
      · obtain rfl := Except.ok.inj h
        simp
      · split at h
        · rename_i hc
          obtain ⟨q', hq', rfl⟩ := map_eq_ok h
          exact List.forall_mem_cons.mpr ⟨isBreak_of_isQueryChar hc, ih hq'⟩
        · cases h

theorem isBreak_of_parsePath {cs : List Char} {r : List Char × Option (List Char)}
    (h : parsePath cs = .ok r) :
    (∀ c ∈ r.1, isBreak c = false) ∧ ∀ q, r.2 = some q → ∀ c ∈ q, isBreak c = false := by
  induction cs generalizing r with
  | nil =>
      obtain rfl := Except.ok.inj h
      simp
  | cons c cs ih =>
      unfold parsePath at h
      split at h
      · obtain rfl := Except.ok.inj h
        simp
      · split at h
        · obtain ⟨q, hq, rfl⟩ := map_eq_ok h
          exact ⟨by simp, fun q' he => Option.some.inj he ▸ isBreak_of_parseQuery hq⟩
        · split at h
          · rename_i hc
            obtain ⟨r', hr', rfl⟩ := map_eq_ok h
            obtain ⟨hpath, hquery⟩ := ih hr'
            exact ⟨List.forall_mem_cons.mpr ⟨isBreak_of_isPathChar hc, hpath⟩, hquery⟩
          · cases h

theorem hasBreak_of_parseTarget {cs : List Char} {t : Target} (h : parseTarget cs = .ok t) :
    hasBreak t.text = false := by
  unfold parseTarget at h
  split at h
  · obtain rfl := Except.ok.inj h
    decide
  · obtain rfl := Except.ok.inj h
    decide
  · split at h
    · obtain ⟨r, hr, rfl⟩ := map_eq_ok h
      obtain ⟨hpath, hquery⟩ := isBreak_of_parsePath hr
      have hp := hasBreak_ofList_eq_false_iff.mpr hpath
      cases hq : r.2 with
      | none =>
          simp only [Target.text, Option.map_none]
          split
          · decide
          · exact hp
      | some q =>
          have hq' := hasBreak_ofList_eq_false_iff.mpr (hquery q hq)
          have hmark : hasBreak "?" = false := by decide
          simp [Target.text, hp, hq', hmark]
    · cases h

theorem isBreak_of_next {s s' : AuthorityScan} {c : Char} (h : s.next c = .ok s') :
    isBreak c = false := by
  unfold AuthorityScan.next at h
  by_cases hc : isBreak c = true
  · have hb : c = '\n' ∨ c = '\r' := by simpa [isBreak] using hc
    obtain rfl | rfl := hb <;> cases h
  · simpa using hc

theorem isBreak_of_scanAuthority {s : AuthorityScan} {cs : List Char} {r : List Char × List Char}
    (h : scanAuthority s cs = .ok r) : ∀ c ∈ r.1, isBreak c = false := by
  induction cs generalizing s r with
  | nil =>
      unfold scanAuthority at h
      split at h
      · obtain rfl := Except.ok.inj h
        simp
      · cases h
  | cons c cs ih =>
      unfold scanAuthority at h
      split at h
      · split at h
        · obtain rfl := Except.ok.inj h
          simp
        · cases h
      · split at h
        · cases h
        · rename_i s' hs'
          obtain ⟨r', hr', rfl⟩ := map_eq_ok h
          exact List.forall_mem_cons.mpr ⟨isBreak_of_next hs', ih hr'⟩

theorem isBreak_of_splitAuthority {cs : List Char} {r : List Char × List Char}
    (h : splitAuthority cs = .ok r) : ∀ c ∈ r.1, isBreak c = false := by
  unfold splitAuthority at h
  split at h
  · cases h
  · exact isBreak_of_scanAuthority h

/-- A URI that a text writes. -/
def Read (u : Uri) : Prop :=
  ∃ text, parse text = .ok u

/-- The part of a URI that is logged: its target, or the whole if it is an authority alone. -/
def logged (u : Uri) : String :=
  u.target?.elim u.text Target.text

theorem hasBreak_logged_authority {cs : List Char} {r : List Char × List Char}
    (h : splitAuthority cs = .ok r) :
    hasBreak (logged (.authority (String.ofList r.1))) = false := by
  have hhost := hasBreak_ofList_eq_false_iff.mpr (isBreak_of_splitAuthority h)
  simp [logged, target?, text, path, query?, queryText, hhost]

theorem hasBreak_logged_of_parseFull {cs : List Char} {u : Uri} (h : parseFull cs = .ok u) :
    hasBreak u.logged = false := by
  unfold parseFull at h
  cases hscheme : splitScheme cs with
  | error e => simp [hscheme, bind, Except.bind] at h
  | ok scheme? =>
      cases scheme? with
      | none =>
          cases ha : splitAuthority cs with
          | error e => simp [hscheme, ha, bind, Except.bind] at h
          | ok r =>
              simp only [hscheme, ha, bind, Except.bind] at h
              split at h
              · obtain rfl := Except.ok.inj h
                exact hasBreak_logged_authority ha
              · cases h
      | some scheme =>
          cases ha : splitAuthority scheme.2 with
          | error e => simp [hscheme, ha, bind, Except.bind] at h
          | ok r =>
              simp only [hscheme, ha, bind, Except.bind] at h
              split at h
              · cases h
              · cases ht : parseTarget r.2 with
                | error e => simp [ht] at h
                | ok t =>
                    simp only [ht] at h
                    obtain rfl := Except.ok.inj h
                    exact hasBreak_of_parseTarget ht

theorem Read.hasBreak_logged {u : Uri} (h : u.Read) : hasBreak u.logged = false := by
  obtain ⟨text, h⟩ := h
  unfold parse at h
  split at h
  · cases h
  · split at h
    · cases h
    · obtain ⟨t, ht, rfl⟩ := map_eq_ok h
      exact hasBreak_of_parseTarget ht
    · obtain rfl := Except.ok.inj h
      decide
    · rename_i c _ _ _
      cases ha : splitAuthority [c] with
      | error e => simp [ha, bind, Except.bind] at h
      | ok r =>
          simp only [ha, bind, Except.bind] at h
          split at h
          · obtain rfl := Except.ok.inj h
            exact hasBreak_logged_authority ha
          · cases h
    · exact hasBreak_logged_of_parseFull h

end Uri

end AccessLine.Http
