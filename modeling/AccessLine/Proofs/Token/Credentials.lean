import AccessLine.Proofs.Text.Base64
import AccessLine.Proofs.Text.Split
import AccessLine.Proofs.Text.Utf8
import AccessLine.Token.Credentials

/-!
# Reading Basic credentials

Credentials that are written by the grammar are printable ASCII. They are read, and their user name
is the one that was written. Nothing else is read.
-/
namespace AccessLine

open Text Http

namespace Credentials

/-- Beyond the space, and within ASCII. -/
def IsInk (c : Char) : Prop :=
  0x20 < c.toNat ∧ c.toNat < 0x7F

theorem IsInk.ne_space {c : Char} (h : IsInk c) : c ≠ ' ' := by
  rintro rfl
  exact absurd h.1 (by decide)

theorem isInk_of_foldCase {name : List Char} (h : foldCase name = scheme) {c : Char}
    (hc : c ∈ name) : IsInk c := by
  have hmem : c.toLower ∈ scheme := h ▸ List.mem_map_of_mem hc
  have hletters : scheme.all (fun d => 0x20 < d.toNat && d.toNat < 0x7F) = true := by decide
  have hink : IsInk c.toLower := by
    simpa [IsInk] using List.all_eq_true.mp hletters _ hmem
  unfold Char.toLower at hink
  split at hink
  · rename_i hupper
    have hlow : 'A'.toNat ≤ c.toNat := hupper.1
    have hhigh : c.toNat ≤ 'Z'.toNat := hupper.2
    have hends : 'A'.toNat = 0x41 ∧ 'Z'.toNat = 0x5A := by decide
    unfold IsInk
    omega
  · exact hink

theorem isInk_of_writes {token : List Char} {bytes : List UInt8}
    (h : Base64.Writes (token.map standardSymbol) bytes) {c : Char} (hc : c ∈ token) : IsInk c := by
  have hrange := Base64.mem_of_writes h (List.mem_map_of_mem hc)
  unfold standardSymbol at hrange
  split at hrange
  · rename_i hd
    subst hd
    exact ⟨by decide, by decide⟩
  · split at hrange
    · rename_i hd
      subst hd
      exact ⟨by decide, by decide⟩
    · exact ⟨by omega, by omega⟩

theorem of_mem_spaces {n : Nat} {c : Char} (hc : c ∈ spaces n) : c = ' ' :=
  (List.mem_replicate.mp hc).2

theorem isSpace_of_mem_spaces {n : Nat} {c : Char} (hc : c ∈ spaces n) : isSpace c = true :=
  decide_eq_true (of_mem_spaces hc)

theorem isSpace_of_isInk {c : Char} (h : IsInk c) : isSpace c = false :=
  decide_eq_false h.ne_space

/-- Every user name without a colon and every password can be written, with some of the padding or
none, and in either alphabet. -/
theorem writes_of_symbols {user password : String} (token : List Char) (padding : Nat)
    (hu : ':' ∉ user.toList)
    (hp : padding ≤ Base64.paddingLength (Utf8.encode (user ++ ":" ++ password)))
    (ht : token.map standardSymbol =
      Base64.symbols (Utf8.encode (user ++ ":" ++ password)) ++ List.replicate padding '=') :
    Writes (scheme ++ spaces 1 ++ token) user password := by
  have hwrites : Base64.Writes (token.map standardSymbol) (Utf8.encode (user ++ ":" ++ password)) :=
    ht ▸ Base64.writes_symbols hp
  have h : Writes (spaces 0 ++ scheme ++ spaces 1 ++ token ++ spaces 0) user password :=
    .intro (by decide) Nat.one_pos hu hwrites
  simpa [spaces] using h

/-- A text that holds credentials holds a user name and a password. -/
theorem pair?_of_writes {token : List Char} {user password : String} (hu : ':' ∉ user.toList)
    (h : Base64.Writes (token.map standardSymbol) (Utf8.encode (user ++ ":" ++ password))) :
    pair? token = some (user.toList, password.toList) := by
  have hcut :
      cutFirst? ':' (user ++ ":" ++ password).toList = some (user.toList, password.toList) := by
    simpa using cutFirst?_append hu password.toList
  rw [pair?, Base64.decode?_of_writes h, Option.bind_some, Utf8.decode?_encode, Option.bind_some,
    hcut]

/-- Credentials are printable, and the text of one header value. -/
theorem Writes.plain {value : List Char} {user password : String} (h : Writes value user password)
    {c : Char} (hc : c ∈ value) : 0x20 ≤ c.toNat ∧ c.toNat < 0x7F := by
  have hspace {n : Nat} (hc : c ∈ spaces n) : 0x20 ≤ c.toNat ∧ c.toNat < 0x7F := by
    rw [of_mem_spaces hc]
    decide
  have hink (hc : IsInk c) : 0x20 ≤ c.toNat ∧ c.toNat < 0x7F := ⟨Nat.le_of_lt hc.1, hc.2⟩
  obtain ⟨basic, apart, noColon, written⟩ := h
  simp only [List.mem_append] at hc
  obtain (((hc | hc) | hc) | hc) | hc := hc
  · exact hspace hc
  · exact hink (isInk_of_foldCase basic hc)
  · exact hspace hc
  · exact hink (isInk_of_writes written hc)
  · exact hspace hc

/-- The user name that credentials are read for is the one that they were written for. -/
theorem Writes.user?_eq {value user password : String} (h : Writes value.toList user password) :
    user? value = some user := by
  generalize hv : value.toList = cs at h
  obtain ⟨basic, apart, noColon, written⟩ := h
  rename_i before gap after name token
  obtain ⟨gap, rfl⟩ := Nat.exists_eq_succ_of_ne_zero (Nat.ne_of_gt apart)
  have hname : name ≠ [] := by
    rintro rfl
    cases basic
  have htoken : token ≠ [] := by
    rintro rfl
    cases pair?_of_writes noColon written
  -- what is left between the outer spaces starts with the scheme and ends with the token
  have hstrip : strip isSpace value.toList = name ++ ' ' :: (spaces gap ++ token) := by
    have hvalue : value.toList =
        spaces before ++ (name ++ ' ' :: (spaces gap ++ token)) ++ spaces after := by
      simp [hv, spaces, List.replicate_succ]
    rw [hvalue]
    refine strip_append (fun c => isSpace_of_mem_spaces) (fun c => isSpace_of_mem_spaces)
      (by simp) ?_ ?_
    · intro c hc
      obtain ⟨d, ds, rfl⟩ := List.exists_cons_of_ne_nil hname
      obtain rfl : d = c := by simpa using hc
      exact isSpace_of_isInk (isInk_of_foldCase basic List.mem_cons_self)
    · intro c hc
      rw [← List.cons_append, ← List.append_assoc, List.getLast?_append,
        List.getLast?_eq_some_getLast htoken, Option.some_or] at hc
      obtain rfl : token.getLast htoken = c := Option.some.inj hc
      exact isSpace_of_isInk (isInk_of_writes written (List.getLast_mem htoken))
  have hspace : ' ' ∉ name := fun hc => (isInk_of_foldCase basic hc).ne_space rfl
  have hrest : (spaces gap ++ token).dropWhile isSpace = token := by
    refine dropWhile_append_of_head? (fun c => isSpace_of_mem_spaces) fun c hc => ?_
    exact isSpace_of_isInk (isInk_of_writes written (List.mem_of_head? hc))
  rw [user?, hstrip, cutFirst?_append hspace]
  simp only [basic, if_true, hrest, pair?_of_writes noColon written, Option.map_some,
    String.ofList_toList]

/-- A text in which a user name is found holds that user name and a password. -/
theorem writes_of_pair? {token user password : List Char}
    (h : pair? token = some (user, password)) :
    ':' ∉ (String.ofList user).toList ∧ Base64.Writes (token.map standardSymbol)
      (Utf8.encode (String.ofList user ++ ":" ++ String.ofList password)) := by
  obtain ⟨bytes, hbytes, h⟩ := Option.bind_eq_some_iff.mp h
  obtain ⟨text, htext, hcut⟩ := Option.bind_eq_some_iff.mp h
  obtain ⟨hparts, hu⟩ := of_cutFirst? hcut
  have hall : String.ofList user ++ ":" ++ String.ofList password = text := by
    apply String.toList_inj.mp
    simp [hparts]
  refine ⟨by simpa using hu, ?_⟩
  rw [hall, ← Utf8.decode?_eq_some_iff.mp htext]
  exact Base64.decode?_eq_some_iff.mp hbytes

theorem eq_spaces {cs : List Char} (h : ∀ c ∈ cs, isSpace c = true) : cs = spaces cs.length :=
  List.eq_replicate_iff.mpr ⟨rfl, fun c hc => of_decide_eq_true (h c hc)⟩

/-- A user name is read from credentials only. -/
theorem names_of_user? {value user : String} (h : user? value = some user) :
    Names value.toList user := by
  unfold user? at h
  split at h
  · cases h
  · rename_i name rest hcut
    split at h
    · rename_i hname
      obtain ⟨⟨u, p⟩, hpair, rfl⟩ := Option.map_eq_some_iff.mp h
      obtain ⟨before, after, hvalue, hbefore, hafter⟩ := exists_append_strip isSpace value.toList
      obtain ⟨hstrip, -⟩ := of_cutFirst? hcut
      obtain ⟨hu, hwrites⟩ := writes_of_pair? hpair
      have hgap : rest.takeWhile isSpace = spaces (rest.takeWhile isSpace).length :=
        eq_spaces fun c hc => List.all_eq_true.mp List.all_takeWhile c hc
      have hparts : value.toList = spaces before.length ++ name ++
          spaces ((rest.takeWhile isSpace).length + 1) ++ rest.dropWhile isSpace ++
            spaces after.length := by
        rw [← eq_spaces hbefore, ← eq_spaces hafter, spaces, List.replicate_succ, ← spaces, ← hgap,
          hvalue, hstrip]
        simp
      rw [hparts]
      exact ⟨String.ofList p, .intro hname (Nat.succ_pos _) hu hwrites⟩
    · cases h

end Credentials

end AccessLine
