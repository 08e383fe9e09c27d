import AccessLine.Proofs.Text.Utf8

/-!
# Characters among bytes

Where the characters of a text begin and end in its UTF-8 bytes, and what a test of bytes finds when
it answers alike for all bytes of a character.
-/
namespace AccessLine.Text.Utf8

/-- The bytes of characters. -/
def encodeChars (cs : List Char) : List UInt8 :=
  cs.flatMap String.utf8EncodeChar

@[simp] theorem encodeChars_nil : encodeChars [] = [] := rfl

@[simp] theorem encodeChars_cons (c : Char) (cs : List Char) :
    encodeChars (c :: cs) = String.utf8EncodeChar c ++ encodeChars cs := rfl

@[simp] theorem encodeChars_append (cs ds : List Char) :
    encodeChars (cs ++ ds) = encodeChars cs ++ encodeChars ds :=
  List.flatMap_append

theorem encode_eq_encodeChars (text : String) : encode text = encodeChars text.toList := rfl

theorem decode?_encodeChars (cs : List Char) : decode? (encodeChars cs) = some (String.ofList cs) := by
  have h := decode?_encode (String.ofList cs)
  rwa [encode_eq_encodeChars, String.toList_ofList] at h

/-- Between two characters of a text, and at its ends, is a position of it. -/
theorem isValid_of_toList_eq {src : String} {front back : List Char} (h : src.toList = front ++ back) :
    (⟨(encodeChars front).length⟩ : String.Pos.Raw).IsValid src := by
  rw [String.Pos.Raw.isValid_iff_exists_append]
  refine ⟨String.ofList front, String.ofList back, ?_, ?_⟩
  · rw [← String.ofList_append, ← h, String.ofList_toList]
  · simp [String.rawEndPos, String.utf8ByteSize, List.utf8Encode, encodeChars]

/-! ### The bytes of one character -/

theorem utf8EncodeChar_of_lt {c : Char} (h : c.toNat < 0x80) :
    String.utf8EncodeChar c = [UInt8.ofNat c.toNat] :=
  if_pos (Nat.le_of_lt_succ h)

/-- A character beyond ASCII has no ASCII byte, and its first byte is none of those that stand
within characters. -/
theorem exists_lead {c : Char} (h : 0x80 ≤ c.toNat) : ∃ b bs, String.utf8EncodeChar c = b :: bs ∧
    0xC0 ≤ b.toNat ∧ ∀ d ∈ bs, 0x80 ≤ d.toNat := by
  have hlead {n m k : Nat} (hn : n < m) (hm : m + k ≤ 256) (hk : 0xC0 ≤ k) :
      0xC0 ≤ (UInt8.ofNat (n + k)).toNat := by
    rw [UInt8.toNat_ofNat_of_lt' (show n + k < 256 by omega)]
    omega
  have hnil : ∀ d ∈ ([] : List UInt8), 0x80 ≤ d.toNat := List.forall_mem_nil _
  have hcons (n : Nat) {bs : List UInt8} (hbs : ∀ d ∈ bs, 0x80 ≤ d.toNat) :
      ∀ d ∈ UInt8.ofNat (n % 64 + 128) :: bs, 0x80 ≤ d.toNat := by
    refine List.forall_mem_cons.mpr ⟨?_, hbs⟩
    rw [toNat_follow (Nat.mod_lt _ (by decide))]
    omega
  have hv : ¬c.val.toNat ≤ 127 := Nat.not_le.mpr h
  unfold String.utf8EncodeChar
  dsimp only
  rw [if_neg hv]
  split
  · exact ⟨_, _, rfl, hlead (Nat.mod_lt _ (by decide : 0 < 32)) (by decide) (by decide),
      hcons _ hnil⟩
  split
  · exact ⟨_, _, rfl, hlead (Nat.mod_lt _ (by decide : 0 < 16)) (by decide) (by decide),
      hcons _ (hcons _ hnil)⟩
  · exact ⟨_, _, rfl, hlead (Nat.mod_lt _ (by decide : 0 < 8)) (by decide) (by decide),
      hcons _ (hcons _ (hcons _ hnil))⟩

theorem exists_utf8EncodeChar_cons (c : Char) : ∃ b bs, String.utf8EncodeChar c = b :: bs ∧
    (b.toNat < 0x80 ∨ 0xC0 ≤ b.toNat) := by
  by_cases h : c.toNat < 0x80
  · refine ⟨_, _, utf8EncodeChar_of_lt h, .inl ?_⟩
    rwa [UInt8.toNat_ofNat_of_lt' (show c.toNat < 256 by omega)]
  · obtain ⟨b, bs, hbytes, hb, -⟩ := exists_lead (Nat.not_lt.mp h)
    exact ⟨b, bs, hbytes, .inr hb⟩

theorem encodeChars_eq_nil_iff {cs : List Char} : encodeChars cs = [] ↔ cs = [] := by
  cases cs with
  | nil => simp
  | cons c cs =>
      obtain ⟨b, bs, h, -⟩ := exists_utf8EncodeChar_cons c
      simp [h]

/-! ### Tests that respect characters -/

/-- The test of bytes answers for each byte of a character as the other does for the character. -/
def Alike (p : UInt8 → Bool) (q : Char → Bool) : Prop :=
  ∀ c, ∀ b ∈ String.utf8EncodeChar c, p b = q c

/-- It is enough that they agree on ASCII and that each rejects everything else. -/
theorem Alike.of_ascii {p : UInt8 → Bool} {q : Char → Bool}
    (ascii : ∀ n < 0x80, p (UInt8.ofNat n) = q (Char.ofNat n))
    (byte : ∀ b : UInt8, 0x80 ≤ b.toNat → p b = false) (char : ∀ c, 0x80 ≤ c.toNat → q c = false) :
    Alike p q := by
  intro c b hb
  by_cases h : c.toNat < 0x80
  · rw [utf8EncodeChar_of_lt h, List.mem_singleton] at hb
    rw [hb, ascii _ h, Char.ofNat_toNat]
  · obtain ⟨lead, follow, hbytes, hlead, hfollow⟩ := exists_lead (Nat.not_lt.mp h)
    rw [char c (Nat.not_lt.mp h)]
    rw [hbytes, List.mem_cons] at hb
    obtain rfl | hb := hb
    · exact byte _ (Nat.le_trans (by decide) hlead)
    · exact byte _ (hfollow b hb)

/-- No byte of another character is taken for an ASCII character. -/
theorem alike_beq {n : Nat} (hn : n < 0x80) : Alike (· == UInt8.ofNat n) (· == Char.ofNat n) := by
  have hbyte : (UInt8.ofNat n).toNat = n := UInt8.toNat_ofNat_of_lt' (show n < 256 by omega)
  have hchar : (Char.ofNat n).toNat = n := toNat_val_ofNat (.inl (by omega))
  refine .of_ascii (fun m hm => ?_) (fun b hb => ?_) (fun c hc => ?_)
  · have hm₁ : (UInt8.ofNat m).toNat = m := UInt8.toNat_ofNat_of_lt' (show m < 256 by omega)
    have hm₂ : (Char.ofNat m).toNat = m := toNat_val_ofNat (.inl (by omega))
    rw [Bool.eq_iff_iff, beq_iff_eq, beq_iff_eq]
    constructor
    · intro h
      rw [← hm₁, h, hbyte]
    · intro h
      rw [← hm₂, h, hchar]
  · apply beq_false_of_ne
    rintro rfl
    omega
  · apply beq_false_of_ne
    rintro rfl
    omega

theorem head?_encodeChars_eq_iff {n : Nat} (hn : n < 0x80) (cs : List Char) :
    (encodeChars cs).head? = some (UInt8.ofNat n) ↔ cs.head? = some (Char.ofNat n) := by
  cases cs with
  | nil => simp
  | cons c cs =>
      obtain ⟨b, bs, hbytes, -⟩ := exists_utf8EncodeChar_cons c
      have hb : (b == UInt8.ofNat n) = (c == Char.ofNat n) := alike_beq hn c b (by simp [hbytes])
      rw [Bool.eq_iff_iff, beq_iff_eq, beq_iff_eq] at hb
      simpa [hbytes] using hb

section
variable {p : UInt8 → Bool} {q : Char → Bool} (h : Alike p q)
include h

theorem Alike.takeWhile (cs : List Char) :
    (encodeChars cs).takeWhile p = encodeChars (cs.takeWhile q) := by
  induction cs with
  | nil => rfl
  | cons c cs ih =>
      rw [encodeChars_cons]
      cases hc : q c with
      | true =>
          have hall : ∀ b ∈ String.utf8EncodeChar c, p b = true := fun b hb => (h c b hb).trans hc
          rw [List.takeWhile_append_of_pos hall, ih, List.takeWhile_cons_of_pos hc, encodeChars_cons]
      | false =>
          obtain ⟨b, bs, hbytes, -⟩ := exists_utf8EncodeChar_cons c
          have hb : p b = false := (h c b (by simp [hbytes])).trans hc
          simp [hbytes, hb, hc]

/-- Nothing is found among characters that the test rejects. -/
theorem Alike.findIdx?_eq_none {cs : List Char} (hcs : ∀ c ∈ cs, q c = false) :
    (encodeChars cs).findIdx? p = none := by
  rw [List.findIdx?_eq_none_iff]
  intro b hb
  obtain ⟨c, hc, hb⟩ := List.mem_flatMap.mp hb
  exact (h c b hb).trans (hcs c hc)

/-- The first byte that is found starts the first character that is. -/
theorem Alike.findIdx?_append {front : List Char} (hfront : ∀ c ∈ front, q c = false) {c : Char}
    (hc : q c = true) (back : List Char) :
    (encodeChars (front ++ c :: back)).findIdx? p = some (encodeChars front).length := by
  obtain ⟨b, bs, hbytes, -⟩ := exists_utf8EncodeChar_cons c
  have hb : p b = true := (h c b (by simp [hbytes])).trans hc
  rw [encodeChars_append, List.findIdx?_append, h.findIdx?_eq_none hfront]
  simp [hbytes, hb, List.findIdx?_cons]

end

end AccessLine.Text.Utf8
