import AccessLine.Proofs.Text.Split
import AccessLine.Text.Utf8

/-!
# Reading UTF-8 that was written

A text is read back from its bytes, and from no others: bytes without malformed parts are the
characters of one text, each written in its one form. A text of ASCII characters is written byte by
byte, and where it stands between other bytes, these are read as if they stood alone.
-/
namespace AccessLine.Text.Utf8

/-! ### The first byte of a character of several -/

theorem lead_ofNat_of_lt {n : Nat} (h : n < 0x80) :
    lead (UInt8.ofNat n) = .whole (Char.ofNat n) := by
  have hn : (UInt8.ofNat n).toNat = n := UInt8.toNat_ofNat_of_lt' (show n < 256 by omega)
  simp [lead, hn, h]

theorem lead_two : ∀ n < 32, 2 ≤ n →
    lead (UInt8.ofNat (n + 192)) = .opens { bits := n, missing := 1 } := by
  decide

theorem lead_three : ∀ n < 16, lead (UInt8.ofNat (n + 224)) = .opens
    { bits := n, missing := 2, low := if n = 0 then 0xA0 else 0x80,
      high := if n = 13 then 0x9F else 0xBF } := by
  decide

theorem lead_four : ∀ n < 5, lead (UInt8.ofNat (n + 240)) = .opens
    { bits := n, missing := 3, low := if n = 0 then 0x90 else 0x80,
      high := if n = 4 then 0x8F else 0xBF } := by
  decide

/-! ### The bytes that follow -/

section Follow
variable {p : Partial} {n : Nat} (hn : n < 64) (bytes : List UInt8)
include hn

theorem toNat_follow : (UInt8.ofNat (n + 128)).toNat = n + 128 :=
  UInt8.toNat_ofNat_of_lt' (show n + 128 < 256 by omega)

theorem accepts_follow (hl : p.low ≤ n + 128) (hh : n + 128 ≤ p.high) :
    p.accepts (UInt8.ofNat (n + 128)) = true := by
  rw [Partial.accepts, toNat_follow hn, decide_eq_true hl, decide_eq_true hh]
  rfl

theorem extend_follow : p.extend (UInt8.ofNat (n + 128)) = p.bits * 64 + n := by
  unfold Partial.extend
  rw [toNat_follow hn]
  omega

theorem units_cons_of_last (hl : p.low ≤ n + 128) (hh : n + 128 ≤ p.high) (hm : p.missing = 1) :
    units (some p) (UInt8.ofNat (n + 128) :: bytes) =
      some (Char.ofNat (p.bits * 64 + n)) :: units none bytes := by
  rw [units, if_pos (accepts_follow hn hl hh), extend_follow hn, hm]
  rfl

theorem units_cons_of_more {m : Nat} (hl : p.low ≤ n + 128) (hh : n + 128 ≤ p.high)
    (hm : p.missing = m + 2) :
    units (some p) (UInt8.ofNat (n + 128) :: bytes) =
      units (some { bits := p.bits * 64 + n, missing := m + 1 }) bytes := by
  rw [units, if_pos (accepts_follow hn hl hh), extend_follow hn, hm]
  rfl

end Follow

/-! ### Whole characters -/

section Whole
variable {a b c d : Nat} (bytes : List UInt8)

theorem units_one (ha : a < 0x80) :
    units none (UInt8.ofNat a :: bytes) = some (Char.ofNat a) :: units none bytes := by
  rw [units, lead_ofNat_of_lt ha]

theorem units_two (ha : 2 ≤ a ∧ a < 32) (hb : b < 64) :
    units none (UInt8.ofNat (a + 192) :: UInt8.ofNat (b + 128) :: bytes) =
      some (Char.ofNat (a * 64 + b)) :: units none bytes := by
  rw [units, lead_two a ha.2 ha.1]
  exact units_cons_of_last hb bytes (Nat.le_add_left _ _) (by dsimp only; omega) rfl

/-- Neither an overlong form nor a surrogate. -/
theorem units_three (ha : a < 16) (hb : b < 64) (hc : c < 64) (hlow : a = 0 → 32 ≤ b)
    (hhigh : a = 13 → b < 32) :
    units none (UInt8.ofNat (a + 224) :: UInt8.ofNat (b + 128) :: UInt8.ofNat (c + 128) :: bytes) =
      some (Char.ofNat ((a * 64 + b) * 64 + c)) :: units none bytes := by
  rw [units, lead_three a ha]
  refine (units_cons_of_more hb _ ?_ ?_ rfl).trans
    (units_cons_of_last hc bytes (Nat.le_add_left _ _) (by dsimp only; omega) rfl)
  all_goals
    dsimp only
    split <;> omega

/-- Neither an overlong form nor a number above U+10FFFF. -/
theorem units_four (ha : a < 5) (hb : b < 64) (hc : c < 64) (hd : d < 64) (hlow : a = 0 → 16 ≤ b)
    (hhigh : a = 4 → b < 16) :
    units none (UInt8.ofNat (a + 240) :: UInt8.ofNat (b + 128) :: UInt8.ofNat (c + 128) ::
        UInt8.ofNat (d + 128) :: bytes) =
      some (Char.ofNat (((a * 64 + b) * 64 + c) * 64 + d)) :: units none bytes := by
  rw [units, lead_four a ha]
  refine (units_cons_of_more hb _ ?_ ?_ rfl).trans
    ((units_cons_of_more hc _ (Nat.le_add_left _ _) (by dsimp only; omega) rfl).trans
      (units_cons_of_last hd bytes (Nat.le_add_left _ _) (by dsimp only; omega) rfl))
  all_goals
    dsimp only
    split <;> omega

end Whole

/-- The bytes of a character are read as that character. -/
theorem units_utf8EncodeChar (c : Char) (bytes : List UInt8) :
    units none (String.utf8EncodeChar c ++ bytes) = some c :: units none bytes := by
  have hvalid : c.val.toNat < 0xD800 ∨ 0xDFFF < c.val.toNat ∧ c.val.toNat < 0x110000 := c.valid
  have hc : Char.ofNat c.val.toNat = c := Char.ofNat_toNat c
  unfold String.utf8EncodeChar
  generalize c.val.toNat = v at hvalid hc ⊢
  dsimp only
  split
  · exact (units_one bytes (by omega)).trans (by rw [hc])
  · split
    · refine (units_two bytes ?_ ?_).trans (by rw [show v / 64 % 32 * 64 + v % 64 = v by omega, hc])
      all_goals omega
    · split
      · have hv : (v / 4096 % 16 * 64 + v / 64 % 64) * 64 + v % 64 = v := by omega
        refine (units_three bytes ?_ ?_ ?_ ?_ ?_).trans (by rw [hv, hc])
        all_goals omega
      · have hv : ((v / 262144 % 8 * 64 + v / 4096 % 64) * 64 + v / 64 % 64) * 64 + v % 64 = v := by
          omega
        refine (units_four bytes ?_ ?_ ?_ ?_ ?_ ?_).trans (by rw [hv, hc])
        all_goals omega

/-- A text is read back from its bytes. -/
theorem decode?_encode (text : String) : decode? (encode text) = some text := by
  have hunits : ∀ cs : List Char, units none (cs.flatMap String.utf8EncodeChar) = cs.map some := by
    intro cs
    induction cs with
    | nil => rfl
    | cons c cs ih => rw [List.flatMap_cons, units_utf8EncodeChar, ih, List.map_cons]
  have hall : (text.toList.map some).mapM id = some text.toList := by
    rw [mapM_eq_some_iff, List.map_id]
  rw [decode?, encode, hunits, hall, Option.map_some, String.ofList_toList]

/-- ASCII characters are written as single bytes. -/
theorem encode_ascii {cs : List Char} (h : ∀ c ∈ cs, c.toNat < 0x80) :
    encode (String.ofList cs) = cs.map fun c => UInt8.ofNat c.toNat := by
  rw [encode, String.toList_ofList]
  induction cs with
  | nil => rfl
  | cons c cs ih =>
      obtain ⟨hc, hcs⟩ := List.forall_mem_cons.mp h
      have hle : c.val.toNat ≤ 127 := Nat.le_of_lt_succ hc
      rw [List.flatMap_cons, ih hcs, String.utf8EncodeChar, if_pos hle]
      rfl

/-! ### What well-formed bytes were written from -/

/-- Neither a byte that follows another nor one of an overlong form or of too great a number. -/
theorem lead_malformed : ∀ n < 256, 0x80 ≤ n → n < 0xC2 ∨ 0xF5 ≤ n →
    lead (UInt8.ofNat n) = .malformed := by
  decide +kernel

/-- A byte that opens a character of several has its highest bits, and says which bytes follow. -/
theorem lead_eq_opens {b : UInt8} {p : Partial} (h : lead b = .opens p) :
    (∃ n, (2 ≤ n ∧ n < 32) ∧ b = UInt8.ofNat (n + 192) ∧ p = { bits := n, missing := 1 }) ∨
      (∃ n, n < 16 ∧ b = UInt8.ofNat (n + 224) ∧ p =
        { bits := n, missing := 2, low := if n = 0 then 0xA0 else 0x80,
          high := if n = 13 then 0x9F else 0xBF }) ∨
      ∃ n, n < 5 ∧ b = UInt8.ofNat (n + 240) ∧ p =
        { bits := n, missing := 3, low := if n = 0 then 0x90 else 0x80,
          high := if n = 4 then 0x8F else 0xBF } := by
  obtain ⟨k, hk, rfl⟩ : ∃ k < 256, b = UInt8.ofNat k :=
    ⟨b.toNat, b.toNat_lt_size, UInt8.ofNat_toNat.symm⟩
  by_cases hone : k < 0x80
  · rw [lead_ofNat_of_lt hone] at h
    cases h
  by_cases hbad : k < 0xC2 ∨ 0xF5 ≤ k
  · rw [lead_malformed k hk (by omega) hbad] at h
    cases h
  by_cases htwo : k < 0xE0
  · obtain ⟨n, rfl⟩ := Nat.exists_eq_add_of_le' (show 192 ≤ k by omega)
    rw [lead_two n (by omega) (by omega)] at h
    exact .inl ⟨n, by omega, rfl, (Lead.opens.inj h).symm⟩
  by_cases hthree : k < 0xF0
  · obtain ⟨n, rfl⟩ := Nat.exists_eq_add_of_le' (show 224 ≤ k by omega)
    rw [lead_three n (by omega)] at h
    exact .inr (.inl ⟨n, by omega, rfl, (Lead.opens.inj h).symm⟩)
  · obtain ⟨n, rfl⟩ := Nat.exists_eq_add_of_le' (show 240 ≤ k by omega)
    rw [lead_four n (by omega)] at h
    exact .inr (.inr ⟨n, by omega, rfl, (Lead.opens.inj h).symm⟩)

theorem lead_eq_whole {b : UInt8} {c : Char} (h : lead b = .whole c) :
    ∃ n < 0x80, b = UInt8.ofNat n ∧ c = Char.ofNat n := by
  unfold lead at h
  dsimp only at h
  split at h
  · rename_i hn
    exact ⟨b.toNat, hn, UInt8.ofNat_toNat.symm, (Lead.whole.inj h).symm⟩
  · repeat (split at h <;> try cases h)

/-- A byte that an open character accepts has its next six bits. -/
theorem exists_follow {p : Partial} {b : UInt8} (h : p.accepts b = true) (hl : 0x80 ≤ p.low)
    (hh : p.high ≤ 0xBF) :
    ∃ n < 64, b = UInt8.ofNat (n + 128) ∧ p.low ≤ n + 128 ∧ n + 128 ≤ p.high := by
  have hb : p.low ≤ b.toNat ∧ b.toNat ≤ p.high := by simpa [Partial.accepts] using h
  obtain ⟨n, hn⟩ := Nat.exists_eq_add_of_le' (Nat.le_trans hl hb.1)
  refine ⟨n, by omega, ?_, by omega, by omega⟩
  rw [← hn, UInt8.ofNat_toNat]

section Continue
variable {p : Partial} {bytes : List UInt8} {c : Char} {us : List (Option Char)}
  (hl : 0x80 ≤ p.low) (hh : p.high ≤ 0xBF) (h : units (some p) bytes = some c :: us)
include hl hh h

/-- An open character that is well formed goes on with a byte that it accepts. -/
theorem exists_of_units_some : ∃ n < 64, ∃ rest, bytes = UInt8.ofNat (n + 128) :: rest ∧
    (p.low ≤ n + 128 ∧ n + 128 ≤ p.high) ∧
      (p.missing = 1 → c = Char.ofNat (p.bits * 64 + n) ∧ units none rest = us) ∧
      ∀ m, p.missing = m + 2 →
        units (some { bits := p.bits * 64 + n, missing := m + 1 }) rest = some c :: us := by
  cases bytes with
  | nil => cases h
  | cons b rest =>
      rw [units] at h
      split at h
      · rename_i ha
        obtain ⟨n, hn, rfl, hbounds⟩ := exists_follow ha hl hh
        rw [extend_follow hn] at h
        refine ⟨n, hn, rest, rfl, hbounds, ?_, ?_⟩
        · intro hm
          simp only [hm] at h
          obtain ⟨hc, hr⟩ := List.cons.inj h
          exact ⟨(Option.some.inj hc).symm, hr⟩
        · intro m hm
          simpa only [hm] using h
      · split at h <;> cases h

end Continue

theorem toNat_val_ofNat {n : Nat} (h : n.isValidChar) : (Char.ofNat n).val.toNat = n := by
  rw [Char.ofNat, dif_pos h]
  rfl

section Encode
variable {a b c d : Nat}

theorem utf8EncodeChar_one (ha : a < 0x80) :
    String.utf8EncodeChar (Char.ofNat a) = [UInt8.ofNat a] := by
  have hv := toNat_val_ofNat (n := a) (.inl (by omega))
  rw [String.utf8EncodeChar, hv]
  exact if_pos (Nat.le_of_lt_succ ha)

theorem utf8EncodeChar_two (ha : 2 ≤ a ∧ a < 32) (hb : b < 64) :
    String.utf8EncodeChar (Char.ofNat (a * 64 + b)) =
      [UInt8.ofNat (a + 192), UInt8.ofNat (b + 128)] := by
  have hv := toNat_val_ofNat (n := a * 64 + b) (.inl (by omega))
  have ha' : (a * 64 + b) / 64 % 32 = a := by omega
  have hb' : (a * 64 + b) % 64 = b := by omega
  rw [String.utf8EncodeChar, hv]
  simp only [ha', hb']
  rw [if_neg (by omega), if_pos (by omega)]

theorem utf8EncodeChar_three (ha : a < 16) (hb : b < 64) (hc : c < 64) (hlow : a = 0 → 32 ≤ b)
    (hhigh : a = 13 → b < 32) :
    String.utf8EncodeChar (Char.ofNat ((a * 64 + b) * 64 + c)) =
      [UInt8.ofNat (a + 224), UInt8.ofNat (b + 128), UInt8.ofNat (c + 128)] := by
  have hv := toNat_val_ofNat (n := (a * 64 + b) * 64 + c) (by unfold Nat.isValidChar; omega)
  have ha' : ((a * 64 + b) * 64 + c) / 4096 % 16 = a := by omega
  have hb' : ((a * 64 + b) * 64 + c) / 64 % 64 = b := by omega
  have hc' : ((a * 64 + b) * 64 + c) % 64 = c := by omega
  rw [String.utf8EncodeChar, hv]
  simp only [ha', hb', hc']
  rw [if_neg (by omega), if_neg (by omega), if_pos (by omega)]

theorem utf8EncodeChar_four (ha : a < 5) (hb : b < 64) (hc : c < 64) (hd : d < 64)
    (hlow : a = 0 → 16 ≤ b) (hhigh : a = 4 → b < 16) :
    String.utf8EncodeChar (Char.ofNat (((a * 64 + b) * 64 + c) * 64 + d)) =
      [UInt8.ofNat (a + 240), UInt8.ofNat (b + 128), UInt8.ofNat (c + 128),
        UInt8.ofNat (d + 128)] := by
  have hv := toNat_val_ofNat (n := ((a * 64 + b) * 64 + c) * 64 + d)
    (by unfold Nat.isValidChar; omega)
  have ha' : (((a * 64 + b) * 64 + c) * 64 + d) / 262144 % 8 = a := by omega
  have hb' : (((a * 64 + b) * 64 + c) * 64 + d) / 4096 % 64 = b := by omega
  have hc' : (((a * 64 + b) * 64 + c) * 64 + d) / 64 % 64 = c := by omega
  have hd' : (((a * 64 + b) * 64 + c) * 64 + d) % 64 = d := by omega
  rw [String.utf8EncodeChar, hv]
  simp only [ha', hb', hc', hd']
  rw [if_neg (by omega), if_neg (by omega), if_neg (by omega)]

end Encode

/-- A well-formed character at the front was written from its bytes. -/
theorem exists_of_units_none {bytes : List UInt8} {c : Char} {us : List (Option Char)}
    (h : units none bytes = some c :: us) :
    ∃ rest, bytes = String.utf8EncodeChar c ++ rest ∧ units none rest = us := by
  cases bytes with
  | nil => cases h
  | cons x bytes =>
      rw [units] at h
      split at h
      · rename_i d hd
        obtain ⟨n, hn, rfl, rfl⟩ := lead_eq_whole hd
        obtain ⟨hc, hr⟩ := List.cons.inj h
        obtain rfl := Option.some.inj hc
        exact ⟨bytes, by rw [utf8EncodeChar_one hn]; rfl, hr⟩
      · rename_i p hp
        obtain ⟨a, ha, rfl, rfl⟩ | ⟨a, ha, rfl, rfl⟩ | ⟨a, ha, rfl, rfl⟩ := lead_eq_opens hp
        · obtain ⟨b, hb, rest, rfl, -, hlast, -⟩ :=
            exists_of_units_some (Nat.le_refl _) (Nat.le_refl _) h
          obtain ⟨rfl, hr⟩ := hlast rfl
          exact ⟨rest, by rw [utf8EncodeChar_two ha hb]; rfl, hr⟩
        · obtain ⟨b, hb, rest, rfl, hbounds, -, hmore⟩ :=
            exists_of_units_some (by dsimp only; split <;> omega) (by dsimp only; split <;> omega) h
          obtain ⟨c, hc, rest, rfl, -, hlast, -⟩ :=
            exists_of_units_some (Nat.le_refl _) (Nat.le_refl _) (hmore 0 rfl)
          obtain ⟨rfl, hr⟩ := hlast rfl
          dsimp only at hbounds
          have hlow : a = 0 → 32 ≤ b := fun h0 => by simp only [h0, if_true] at hbounds; omega
          have hhigh : a = 13 → b < 32 := fun h13 => by simp only [h13, if_true] at hbounds; omega
          exact ⟨rest, by rw [utf8EncodeChar_three ha hb hc hlow hhigh]; rfl, hr⟩
        · obtain ⟨b, hb, rest, rfl, hbounds, -, hmore⟩ :=
            exists_of_units_some (by dsimp only; split <;> omega) (by dsimp only; split <;> omega) h
          obtain ⟨c, hc, rest, rfl, -, -, hmore⟩ :=
            exists_of_units_some (Nat.le_refl _) (Nat.le_refl _) (hmore 1 rfl)
          obtain ⟨d, hd, rest, rfl, -, hlast, -⟩ :=
            exists_of_units_some (Nat.le_refl _) (Nat.le_refl _) (hmore 0 rfl)
          obtain ⟨rfl, hr⟩ := hlast rfl
          dsimp only at hbounds
          have hlow : a = 0 → 16 ≤ b := fun h0 => by simp only [h0, if_true] at hbounds; omega
          have hhigh : a = 4 → b < 16 := fun h4 => by simp only [h4, if_true] at hbounds; omega
          exact ⟨rest, by rw [utf8EncodeChar_four ha hb hc hd hlow hhigh]; rfl, hr⟩
      · cases h

theorem eq_nil_of_units {p? : Option Partial} {bytes : List UInt8} (h : units p? bytes = []) :
    p? = none ∧ bytes = [] := by
  fun_induction units p? bytes with
  | case1 => exact ⟨rfl, rfl⟩
  | case4 b bytes p hp ih => cases (ih h).1
  | case8 p b bytes ha m hm he ih => cases (ih h).1
  | _ => cases h

/-- Bytes without malformed parts are written from the characters that are read. -/
theorem eq_flatMap_of_units {cs : List Char} {bytes : List UInt8}
    (h : units none bytes = cs.map some) : bytes = cs.flatMap String.utf8EncodeChar := by
  induction cs generalizing bytes with
  | nil => exact (eq_nil_of_units h).2
  | cons c cs ih =>
      obtain ⟨rest, rfl, hrest⟩ := exists_of_units_none h
      rw [List.flatMap_cons, ← ih hrest]

/-- Bytes are read as a text exactly if they are the bytes of that text. -/
theorem decode?_eq_some_iff {bytes : List UInt8} {text : String} :
    decode? bytes = some text ↔ bytes = encode text := by
  constructor
  · intro h
    obtain ⟨cs, hcs, rfl⟩ := Option.map_eq_some_iff.mp h
    have hunits : units none bytes = cs.map some := by
      rw [← mapM_eq_some_iff.mp hcs, List.map_id]
    rw [encode, String.toList_ofList]
    exact eq_flatMap_of_units hunits
  · rintro rfl
    exact decode?_encode text

/-! ### Bytes around ASCII characters -/

theorem low_of_lead {b : UInt8} {p : Partial} (h : lead b = .opens p) : 0x80 ≤ p.low := by
  obtain ⟨n, -, -, rfl⟩ | ⟨n, -, -, rfl⟩ | ⟨n, -, -, rfl⟩ := lead_eq_opens h
  · exact Nat.le_refl _
  · dsimp only
    split <;> omega
  · dsimp only
    split <;> omega

/-- An ASCII character ends the malformed part in front of it, and nothing after it counts for what
stands before. -/
theorem units_append_ascii {p? : Option Partial} (hp : ∀ p, p? = some p → 0x80 ≤ p.low)
    (front : List UInt8) {n : Nat} (hn : n < 0x80) (back : List UInt8) :
    units p? (front ++ UInt8.ofNat n :: back) =
      units p? front ++ some (Char.ofNat n) :: units none back := by
  have hno : ∀ p, (none : Option Partial) = some p → 0x80 ≤ p.low := fun _ h => nomatch h
  have hopened {b : UInt8} {p : Partial} (h : lead b = .opens p) :
      ∀ q, some p = some q → 0x80 ≤ q.low :=
    fun q hq => Option.some.inj hq ▸ low_of_lead h
  fun_induction units p? front with
  | case1 => exact units_one back hn
  | case2 p =>
      have hreject : p.accepts (UInt8.ofNat n) = false := by
        have hb : (UInt8.ofNat n).toNat = n := UInt8.toNat_ofNat_of_lt' (show n < 256 by omega)
        have hlow : ¬p.low ≤ n := Nat.not_le.mpr (Nat.lt_of_lt_of_le hn (hp p rfl))
        simp [Partial.accepts, hb, hlow]
      simp [units, hreject, lead_ofNat_of_lt hn]
  | case3 b bs c hl ih => simp [units, hl, ih hno]
  | case4 b bs p hl ih => simp [units, hl, ih (hopened hl)]
  | case5 b bs hl ih => simp [units, hl, ih hno]
  | case6 p b bs ha hm ih | case7 p b bs ha hm ih => simp [units, ha, hm, ih hno]
  | case8 p b bs ha m hm0 hm ih =>
      have hwide : ∀ q, some ({ bits := p.extend b, missing := m } : Partial) = some q →
          0x80 ≤ q.low := by
        intro q hq
        obtain rfl := Option.some.inj hq
        exact Nat.le_refl 0x80
      simp [units, ha, hm, ih hwide]
  | case9 p b bs ha c hl ih => simp [units, ha, hl, ih hno]
  | case10 p b bs ha q hl ih => simp [units, ha, hl, ih (hopened hl)]
  | case11 p b bs ha hl ih => simp [units, ha, hl, ih hno]

theorem decodeLossy_append_ascii (front : List UInt8) {n : Nat} (hn : n < 0x80)
    (back : List UInt8) : decodeLossy (front ++ UInt8.ofNat n :: back) =
      decodeLossy front ++ String.singleton (Char.ofNat n) ++ decodeLossy back := by
  apply String.toList_injective
  have hno : ∀ p, (none : Option Partial) = some p → 0x80 ≤ p.low := fun _ h => nomatch h
  simp [decodeLossy, units_append_ascii hno front hn back]

end AccessLine.Text.Utf8
