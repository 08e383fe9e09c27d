import AccessLine.Proofs.Token.Credentials
import AccessLine.Token.Standard

/-!
# The user of Basic credentials

The token of the user name reads the first value of the credentials' header. Every way of writing
down a user name and a password leads to that user name, and a value that is not written in one of
these ways leads to none.
-/
namespace AccessLine

open Text Http

namespace Http

/-- The value writes the credentials of the user with the password. -/
def HeaderValue.WritesCredentials (v : HeaderValue) (user password : String) : Prop :=
  ∃ text, v.bytes = Utf8.encode text ∧ Credentials.Writes text.toList user password

section Printable
variable {text : String} (hp : ∀ c ∈ text.toList, 0x20 ≤ c.toNat ∧ c.toNat < 0x7F)
include hp

theorem encode_printable :
    Utf8.encode text = text.toList.map fun c => UInt8.ofNat c.toNat := by
  rw [← Utf8.encode_ascii fun c hc => Nat.lt_trans (hp c hc).2 (by decide), String.ofList_toList]

theorem toNat_of_printable : ∀ c ∈ text.toList, (UInt8.ofNat c.toNat).toNat = c.toNat :=
  fun c hc => UInt8.toNat_ofNat_of_lt' (Nat.lt_trans (hp c hc).2 (by decide))

theorem all_plainByte_encode : (Utf8.encode text).all isPlainByte = true := by
  have hnat := toNat_of_printable hp
  rw [encode_printable hp, List.all_map, List.all_eq_true]
  intro c hc
  have hle : (0x20 : UInt8) ≤ UInt8.ofNat c.toNat :=
    UInt8.le_iff_toNat_le.mpr (by rw [hnat c hc]; exact (hp c hc).1)
  have hlt : UInt8.ofNat c.toNat < (0x7F : UInt8) :=
    UInt8.lt_iff_toNat_lt.mpr (by rw [hnat c hc]; exact (hp c hc).2)
  simp [isPlainByte, hle, hlt]

/-- A printable value is read as the text that it was written from. -/
theorem HeaderValue.plainText?_of_encode {v : HeaderValue} (hv : v.bytes = Utf8.encode text) :
    v.plainText? = some text := by
  have hnat := toNat_of_printable hp
  have hchars : v.bytes.map (fun b => Char.ofNat b.toNat) = text.toList := by
    rw [hv, encode_printable hp, List.map_map]
    refine (List.map_congr_left fun c hc => ?_).trans (List.map_id _)
    rw [Function.comp_apply, hnat c hc, Char.ofNat_toNat, id]
  rw [plainText?, if_pos (hv ▸ all_plainByte_encode hp), hchars, String.ofList_toList]

/-- A printable text is the value of a header. -/
theorem HeaderValue.exists_ofBytes?_encode :
    ∃ v, HeaderValue.ofBytes? (Utf8.encode text) = some v ∧ v.bytes = Utf8.encode text := by
  have hvalue : (Utf8.encode text).all isValueByte = true := by
    rw [List.all_eq_true]
    intro b hb
    have hplain := List.all_eq_true.mp (all_plainByte_encode hp) b hb
    unfold isPlainByte at hplain
    unfold isValueByte
    grind
  exact ⟨⟨_, hvalue⟩, dif_pos hvalue, rfl⟩

end Printable

theorem HeaderValue.WritesCredentials.user? {v : HeaderValue} {user password : String}
    (h : v.WritesCredentials user password) :
    v.plainText?.bind Credentials.user? = some user := by
  obtain ⟨text, hv, hw⟩ := h
  rw [plainText?_of_encode (fun _ hc => hw.plain hc) hv, Option.bind_some, hw.user?_eq]

/-- The value that a field gives to a name that none before it has is the first. -/
theorem Headers.get?_middle {front : List (HeaderName × HeaderValue)} {n : HeaderName}
    (hf : ∀ f ∈ front, f.1 ≠ n) (v : HeaderValue) (back : List (HeaderName × HeaderValue)) :
    (⟨front ++ (n, v) :: back⟩ : Headers).get? n = some v := by
  have hfront : front.filter (·.1 = n) = [] := by simpa using hf
  simp [get?, getAll, hfront]

end Http

/-- The request with this value for its credentials, between other header fields. -/
def RequestView.withCredentials (r : RequestView) (front back : List (HeaderName × HeaderValue))
    (v : HeaderValue) : RequestView :=
  { r with headers := ⟨front ++ (.authorization, v) :: back⟩ }

/-- Credentials after the first are not looked at. -/
theorem Evaluator.remoteUser_withCredentials (r : RequestView)
    {front : List (HeaderName × HeaderValue)} (hf : ∀ f ∈ front, f.1 ≠ .authorization)
    (back : List (HeaderName × HeaderValue)) (v : HeaderValue) (response : ResponseView)
    (arg : Option String) :
    remoteUser (r.withCredentials front back v) response arg =
      v.plainText?.bind Credentials.user? := by
  simp only [remoteUser, RequestView.withCredentials, Headers.get?_middle hf, Option.bind_some]

namespace Credentials

/-- The token is the text with a hyphen for any of its plus signs and an underscore for any of its
slashes. -/
inductive Spells : List Char → List Char → Prop
  | nil : Spells [] []
  | same (c : Char) {token text : List Char} (h : Spells token text) :
      Spells (c :: token) (c :: text)
  | hyphen {token text : List Char} (h : Spells token text) : Spells ('-' :: token) ('+' :: text)
  | underscore {token text : List Char} (h : Spells token text) :
      Spells ('_' :: token) ('/' :: text)

theorem Spells.map_standardSymbol {token text : List Char} (h : Spells token text)
    (ht : ∀ c ∈ text, standardSymbol c = c) : token.map standardSymbol = text := by
  induction h with
  | nil => rfl
  | same c _ ih =>
      obtain ⟨hc, ht⟩ := List.forall_mem_cons.mp ht
      rw [List.map_cons, hc, ih ht]
  | hyphen _ ih | underscore _ ih =>
      rw [List.map_cons, ih (List.forall_mem_cons.mp ht).2]
      rfl

/-- The standard alphabet has neither hyphen nor underscore. -/
theorem standardSymbol_of_writes {cs : List Char} {bytes : List UInt8} (h : Base64.Writes cs bytes)
    {c : Char} (hc : c ∈ cs) : standardSymbol c = c := by
  have hknown : c = '=' ∨ ∃ n, Base64.sextet? c = some n := by
    obtain ⟨known, group, fits⟩ := h
    obtain hc | hc := List.mem_append.mp hc
    · exact .inr (Base64.exists_of_mem_known known hc)
    · exact .inl (List.mem_replicate.mp hc).2
  unfold standardSymbol
  split
  · subst c
    obtain h | ⟨n, h⟩ := hknown <;> cases h
  · split
    · subst c
      obtain h | ⟨n, h⟩ := hknown <;> cases h
    · rfl

/-- A token that spells the written text of some bytes is read as these bytes, with its padding or
without. -/
theorem writes_of_spells {token : List Char} {bytes : List UInt8}
    (h : Spells token (Base64.encode bytes) ∨ Spells token (Base64.symbols bytes)) :
    Base64.Writes (token.map standardSymbol) bytes := by
  have hpadded (padding : Nat) (hp : padding ≤ Base64.paddingLength bytes)
      (hs : Spells token (Base64.symbols bytes ++ List.replicate padding '=')) :
      Base64.Writes (token.map standardSymbol) bytes := by
    have hwrites := Base64.writes_symbols hp
    rwa [hs.map_standardSymbol fun c hc => standardSymbol_of_writes hwrites hc]
  obtain h | h := h
  · exact hpadded _ (Nat.le_refl _) h
  · exact hpadded 0 (Nat.zero_le _) (by simpa using h)

/-- Basic credentials are read back. Spaces may stand around them, the name of the scheme may be in
any letter case, and the Base64 text of user name and password may be written in either alphabet,
with padding or without: this is the value of a header, and the token of the user name has the very
user name, whatever fields of the same name come later. -/
theorem remoteUser_of_spells {user password : String} (hu : ':' ∉ user.toList)
    (before after : Nat) {gap : Nat} (hg : 0 < gap) {name token : List Char}
    (hn : foldCase name = scheme)
    (ht : let bytes := Utf8.encode (user ++ ":" ++ password)
      Spells token (Base64.encode bytes) ∨ Spells token (Base64.symbols bytes)) :
    ∃ v, HeaderValue.ofBytes? (Utf8.encode (String.ofList
        (spaces before ++ name ++ spaces gap ++ token ++ spaces after))) = some v ∧
      ∀ (r : RequestView) (front back : List (HeaderName × HeaderValue)) (response : ResponseView)
        (arg : Option String), (∀ f ∈ front, f.1 ≠ .authorization) →
        TokenTable.standard.eval "remote-user" (r.withCredentials front back v) response arg =
          some user := by
  have hwrites : Writes (String.ofList
      (spaces before ++ name ++ spaces gap ++ token ++ spaces after)).toList user password := by
    rw [String.toList_ofList]
    exact .intro hn hg hu (writes_of_spells ht)
  obtain ⟨v, hv, hbytes⟩ := HeaderValue.exists_ofBytes?_encode fun _ hc => hwrites.plain hc
  have hv' : v.WritesCredentials user password := ⟨_, hbytes, hwrites⟩
  have hstandard : TokenTable.standard.get? "remote-user" = some Evaluator.remoteUser := rfl
  refine ⟨v, hv, ?_⟩
  intro r front back response arg hf
  rw [TokenTable.eval, hstandard, Option.bind_some, Evaluator.remoteUser_withCredentials r hf,
    hv'.user?]

/-- A name beyond ASCII, in the alphabet that is safe in URLs and without padding, before a field of
the same name. -/
theorem remoteUser_of_spells_bare :
    let token := "w7w-Pzp4eQ".toList
    let later : HeaderValue := ⟨Utf8.encode "Bearer YTpi", by decide +kernel⟩
    Spells token (Base64.symbols (Utf8.encode ("ü>?" ++ ":" ++ "xy"))) ∧
      ∃ v, HeaderValue.ofBytes? (Utf8.encode (String.ofList
          (spaces 2 ++ "bASIC".toList ++ spaces 3 ++ token ++ spaces 1))) = some v ∧
        TokenTable.standard.eval "remote-user"
          (RequestView.withCredentials {} [] [(.authorization, later)] v) {} none =
            some "ü>?" := by
  intro token later
  have htext : Base64.symbols (Utf8.encode ("ü>?" ++ ":" ++ "xy")) = "w7w+Pzp4eQ".toList := by
    decide +kernel
  have hspells : Spells token (Base64.symbols (Utf8.encode ("ü>?" ++ ":" ++ "xy"))) := by
    rw [htext]
    exact .same _ (.same _ (.same _ (.hyphen (.same _ (.same _ (.same _ (.same _ (.same _
      (.same _ .nil)))))))))
  obtain ⟨v, hv, huser⟩ := @remoteUser_of_spells "ü>?" "xy" (by decide) 2 1 3 (by decide)
    "bASIC".toList token (by decide) (.inr hspells)
  exact ⟨hspells, v, hv, huser {} [] [(.authorization, later)] {} none (List.forall_mem_nil _)⟩

/-- Credentials are read exactly by their grammar. The user name that is read from a header value is
the one that the value names; a value that names none has none. -/
theorem user?_iff_names (value : String) :
    (∀ user, user? value = some user ↔ Names value.toList user) ∧
      (user? value = none ↔ ¬∃ user, Names value.toList user) := by
  have hiff (user : String) : user? value = some user ↔ Names value.toList user :=
    ⟨names_of_user?, fun ⟨_, h⟩ => h.user?_eq⟩
  refine ⟨hiff, ?_⟩
  rw [Option.eq_none_iff_forall_ne_some, not_exists]
  exact forall_congr' fun user => not_congr (hiff user)

end Credentials

end AccessLine
