import AccessLine.Text.Utf8

/-!
# Line breaks

A text that holds no carriage return and no line feed is written on one line. Leniently read bytes
break a line only by these bytes themselves: whatever other bytes stand together, no character below
U+0080 comes of them.
-/
namespace AccessLine.Text

def isBreak (c : Char) : Bool :=
  c = '\n' || c = '\r'

/-- Whether a text takes up more than one line. -/
def hasBreak (text : String) : Bool :=
  text.toList.any isBreak

theorem isBreak_eq_false_of {p : Char → Bool} (hn : p '\n' = false) (hr : p '\r' = false) {c : Char}
    (h : p c = true) : isBreak c = false := by
  have hcn : c ≠ '\n' := by
    rintro rfl
    exact Bool.noConfusion (hn.symm.trans h)
  have hcr : c ≠ '\r' := by
    rintro rfl
    exact Bool.noConfusion (hr.symm.trans h)
  simp [isBreak, hcn, hcr]

theorem hasBreak_eq_false_iff {text : String} :
    hasBreak text = false ↔ ∀ c ∈ text.toList, isBreak c = false := by
  simp [hasBreak]

theorem hasBreak_ofList_eq_false_iff {cs : List Char} :
    hasBreak (String.ofList cs) = false ↔ ∀ c ∈ cs, isBreak c = false := by
  simp [hasBreak]

@[simp] theorem hasBreak_append (s t : String) :
    hasBreak (s ++ t) = (hasBreak s || hasBreak t) := by
  simp [hasBreak]

@[simp] theorem hasBreak_join (ts : List String) :
    hasBreak (String.join ts) = ts.any hasBreak := by
  simp only [hasBreak, String.toList_join, List.any_flatMap]
  rfl

theorem hasBreak_intercalate {s : String} {ts : List String} (hs : hasBreak s = false)
    (ht : ∀ t ∈ ts, hasBreak t = false) : hasBreak (s.intercalate ts) = false := by
  rw [hasBreak_eq_false_iff, String.toList_intercalate]
  induction ts with
  | nil => simp
  | cons t ts ih =>
      have htail := ih fun u hu => ht u (List.mem_cons_of_mem t hu)
      have hhead := hasBreak_eq_false_iff.mp (ht t List.mem_cons_self)
      cases ts with
      | nil => simpa using hhead
      | cons u ts =>
          simp only [List.map_cons, List.intercalate_cons_cons, List.mem_append]
          rintro c ((hc | hc) | hc)
          · exact hhead c hc
          · exact hasBreak_eq_false_iff.mp hs c hc
          · exact htail c hc

/-! ### Digits -/

theorem isBreak_digitChar (n : Nat) : isBreak n.digitChar = false := by
  have hdigit : ∀ m : Fin 16, isBreak m.val.digitChar = false := by decide
  by_cases hn : n < 16
  · exact hdigit ⟨n, hn⟩
  · rw [Nat.digitChar_eq_star.mpr (Nat.le_of_not_lt hn)]
    rfl

theorem isBreak_of_mem_toDigits {base n : Nat} (hb : 1 < base) {c : Char}
    (h : c ∈ Nat.toDigits base n) : isBreak c = false := by
  induction n using Nat.strongRecOn with
  | _ n ih =>
      rw [Nat.toDigits_eq_if hb] at h
      split at h
      · obtain rfl := List.mem_singleton.mp h
        exact isBreak_digitChar n
      · rename_i hn
        obtain h | h := List.mem_append.mp h
        · exact ih (n / base) (Nat.div_lt_self (by omega) hb) h
        · obtain rfl := List.mem_singleton.mp h
          exact isBreak_digitChar _

/-! ### Bytes -/

theorem isBreak_ofNat {n : Nat} (hn : n ≠ 0x0A) (hr : n ≠ 0x0D) :
    isBreak (Char.ofNat n) = false := by
  have htoNat : (Char.ofNat n).toNat = n ∨ (Char.ofNat n).toNat = 0 := by
    unfold Char.ofNat
    by_cases hvalid : n.isValidChar
    · rw [dif_pos hvalid]
      exact .inl rfl
    · rw [dif_neg hvalid]
      exact .inr rfl
  have hne {m : Nat} (hm : n ≠ m) (h0 : 0 < m) : (Char.ofNat n).toNat ≠ m := by omega
  have hcn : Char.ofNat n ≠ '\n' := fun h => hne hn (by decide) (congrArg Char.toNat h)
  have hcr : Char.ofNat n ≠ '\r' := fun h => hne hr (by decide) (congrArg Char.toNat h)
  simp [isBreak, hcn, hcr]

namespace Utf8

/-- A character that has been opened and that is beyond ASCII, whatever bytes complete it. -/
structure Partial.BeyondAscii (p : Partial) : Prop where
  low : 0x80 ≤ p.low
  last : p.missing ≤ 1 → 2 ≤ p.bits
  more : 2 ≤ p.missing → 2 ≤ p.bits * 64 + (p.low - 0x80)

theorem beyondAscii_of_lead {b : UInt8} {p : Partial} (h : lead b = .opens p) :
    p.BeyondAscii := by
  simp only [lead] at h
  generalize b.toNat = n at h
  repeat' split at h
  all_goals
    first
    | (obtain rfl := Lead.opens.inj h
       refine ⟨?_, ?_, ?_⟩ <;> dsimp only <;> omega)
    | cases h

theorem isBreak_of_lead {b : UInt8} {c : Char} (h : lead b = .whole c) (hn : b.toNat ≠ 0x0A)
    (hr : b.toNat ≠ 0x0D) : isBreak c = false := by
  simp only [lead] at h
  repeat' split at h
  all_goals
    first
    | (obtain rfl := Lead.whole.inj h
       exact isBreak_ofNat hn hr)
    | cases h

namespace Partial.BeyondAscii

variable {p : Partial} {b : UInt8}

theorem isBreak_extend (h : p.BeyondAscii) (hm : p.missing ≤ 1) :
    isBreak (Char.ofNat (p.extend b)) = false := by
  have hbits := h.last hm
  apply isBreak_ofNat <;> unfold extend <;> omega

theorem extend (h : p.BeyondAscii) {m : Nat} (hm : 2 ≤ p.missing) (ha : p.accepts b = true) :
    BeyondAscii { bits := p.extend b, missing := m } := by
  have hbits := h.more hm
  have hlow : p.low ≤ b.toNat := by
    simp only [accepts, Bool.and_eq_true, decide_eq_true_eq] at ha
    exact ha.1
  have hext : 2 ≤ p.extend b := by
    unfold Partial.extend
    omega
  refine ⟨?_, ?_, ?_⟩ <;> dsimp only <;> omega

end Partial.BeyondAscii

/-- No character is a line break. -/
def Unbroken (us : List (Option Char)) : Prop :=
  ∀ c, some c ∈ us → isBreak c = false

theorem unbroken_nil : Unbroken [] :=
  fun _ h => nomatch h

theorem unbroken_cons_none {us : List (Option Char)} : Unbroken (none :: us) ↔ Unbroken us := by
  simp [Unbroken]

theorem unbroken_cons_some {c : Char} {us : List (Option Char)} :
    Unbroken (some c :: us) ↔ isBreak c = false ∧ Unbroken us := by
  simp [Unbroken]

/-- Bytes that are no line break give no line break. -/
theorem unbroken_units {p? : Option Partial} {bytes : List UInt8}
    (hp : ∀ p, p? = some p → p.BeyondAscii)
    (hb : ∀ b ∈ bytes, b.toNat ≠ 0x0A ∧ b.toNat ≠ 0x0D) : Unbroken (units p? bytes) := by
  have hno : ∀ p, (none : Option Partial) = some p → p.BeyondAscii := fun _ h => nomatch h
  have hsome {p : Partial} (h : p.BeyondAscii) : ∀ q, some p = some q → q.BeyondAscii :=
    fun q hq => Option.some.inj hq ▸ h
  fun_induction units p? bytes with
  | case1 => exact unbroken_nil
  | case2 => exact unbroken_cons_none.mpr unbroken_nil
  | case3 b bs c hl ih =>
      obtain ⟨hb, hbs⟩ := List.forall_mem_cons.mp hb
      exact unbroken_cons_some.mpr ⟨isBreak_of_lead hl hb.1 hb.2, ih hno hbs⟩
  | case4 b bs p hl ih =>
      obtain ⟨-, hbs⟩ := List.forall_mem_cons.mp hb
      exact ih (hsome (beyondAscii_of_lead hl)) hbs
  | case5 b bs hl ih =>
      obtain ⟨-, hbs⟩ := List.forall_mem_cons.mp hb
      exact unbroken_cons_none.mpr (ih hno hbs)
  | case6 p b bs ha hm ih | case7 p b bs ha hm ih =>
      obtain ⟨-, hbs⟩ := List.forall_mem_cons.mp hb
      have hc := (hp p rfl).isBreak_extend (b := b) (by omega)
      exact unbroken_cons_some.mpr ⟨hc, ih hno hbs⟩
  | case8 p b bs ha m hm0 hm ih =>
      obtain ⟨-, hbs⟩ := List.forall_mem_cons.mp hb
      have hm0 : m ≠ 0 := hm0
      exact ih (hsome ((hp p rfl).extend (by omega) ha)) hbs
  | case9 p b bs ha c hl ih =>
      obtain ⟨hb, hbs⟩ := List.forall_mem_cons.mp hb
      have hc := isBreak_of_lead hl hb.1 hb.2
      exact unbroken_cons_none.mpr (unbroken_cons_some.mpr ⟨hc, ih hno hbs⟩)
  | case10 p b bs ha q hl ih =>
      obtain ⟨-, hbs⟩ := List.forall_mem_cons.mp hb
      exact unbroken_cons_none.mpr (ih (hsome (beyondAscii_of_lead hl)) hbs)
  | case11 p b bs ha hl ih =>
      obtain ⟨-, hbs⟩ := List.forall_mem_cons.mp hb
      exact unbroken_cons_none.mpr (unbroken_cons_none.mpr (ih hno hbs))

theorem hasBreak_decodeLossy {bytes : List UInt8}
    (hb : ∀ b ∈ bytes, b.toNat ≠ 0x0A ∧ b.toNat ≠ 0x0D) : hasBreak (decodeLossy bytes) = false := by
  have hunits : Unbroken (units none bytes) := unbroken_units (fun _ h => nomatch h) hb
  rw [decodeLossy, hasBreak_ofList_eq_false_iff]
  intro c hc
  obtain ⟨u, hu, rfl⟩ := List.mem_map.mp hc
  cases u with
  | none => decide
  | some c => exact hunits c hu

end Utf8

end AccessLine.Text
