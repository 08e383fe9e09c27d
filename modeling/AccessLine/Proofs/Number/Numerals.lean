import AccessLine.Number.Decimal
import Mathlib.Algebra.Order.Ring.Nat
import Mathlib.Tactic.Positivity
import Mathlib.Tactic.Ring

/-!
# Numerals with a fixed number of places

Which text is the numeral of `n / 10^places`: an integer without leading zeros, then a point and one
digit for each place. Every number is written by exactly one, and the writer gives it.
-/
namespace AccessLine.Number

/-- The digits of an integer: at least one, and none in front of them that could be left out. -/
structure IsInteger (cs : List Char) : Prop where
  nonempty : cs ≠ []
  digits : ∀ c ∈ cs, c.isDigit = true
  plain : cs.head? = some '0' → cs = ['0']

/-- The text is the numeral of `n / 10^places`. -/
def IsFixedPoint (cs : List Char) (n places : ℕ) : Prop :=
  ∃ whole fraction : List Char, IsInteger whole ∧ (∀ c ∈ fraction, c.isDigit = true) ∧
    fraction.length = places ∧ n = Nat.ofDigitChars 10 (whole ++ fraction) 0 ∧
    cs = whole ++ if places = 0 then [] else '.' :: fraction

/-! ### Digits -/

theorem ofDigitChars_eq (cs : List Char) (init : ℕ) :
    Nat.ofDigitChars 10 cs init = init * 10 ^ cs.length + Nat.ofDigitChars 10 cs 0 := by
  induction cs generalizing init with
  | nil => simp
  | cons c cs ih =>
      rw [Nat.ofDigitChars_cons, Nat.ofDigitChars_cons, ih, ih (10 * 0 + _), List.length_cons]
      ring

theorem ofDigitChars_replicate_zero (k : ℕ) (cs : List Char) (init : ℕ) :
    Nat.ofDigitChars 10 (List.replicate k '0' ++ cs) init =
      Nat.ofDigitChars 10 cs (init * 10 ^ k) := by
  induction k generalizing init with
  | zero => simp
  | succ k ih =>
      rw [List.replicate_succ, List.cons_append, Nat.ofDigitChars_cons, ih]
      congr 1
      simp only [Nat.sub_self]
      ring

theorem head?_toDigits_ne {n : ℕ} (hn : 0 < n) : (Nat.toDigits 10 n).head? ≠ some '0' := by
  have hdigit : ∀ m < 10, 0 < m → Nat.digitChar m ≠ '0' := by decide
  induction n using Nat.strongRecOn with
  | ind n ih =>
      rw [Nat.toDigits_eq_if (by decide)]
      split
      next hlt => simpa using hdigit n hlt hn
      next hge =>
        have hfirst := ih (n / 10) (by omega) (by omega)
        cases hdigits : Nat.toDigits 10 (n / 10) with
        | nil => exact absurd hdigits Nat.toDigits_ne_nil
        | cons c cs => simpa [hdigits] using hfirst

theorem isInteger_digits (n : ℕ) : IsInteger (digits n) where
  nonempty := Nat.toDigits_ne_nil
  digits _ hc := Nat.isDigit_of_mem_toDigits (by decide) (by decide) hc
  plain hhead := by
    obtain rfl | hn := n.eq_zero_or_pos
    · rfl
    · exact absurd hhead (head?_toDigits_ne hn)

@[simp] theorem ofDigitChars_digits (n : ℕ) : Nat.ofDigitChars 10 (digits n) 0 = n :=
  Nat.ofDigitChars_ten_toDigits

/-! ### Writing -/

theorem isFixedPoint_fixedPoint (n places : ℕ) : IsFixedPoint (fixedPoint n places) n places := by
  obtain rfl | hpos := places.eq_zero_or_pos
  · exact ⟨digits n, [], isInteger_digits n, by simp, rfl, by simp, by simp [fixedPoint]⟩
  have hlength : (digits (n % 10 ^ places)).length ≤ places :=
    (Nat.length_toDigits_le_iff (by decide) hpos).mpr (Nat.mod_lt n (by positivity))
  refine ⟨digits (n / 10 ^ places), List.replicate (places - (digits (n % 10 ^ places)).length) '0' ++
    digits (n % 10 ^ places), isInteger_digits _, ?digits, ?length, ?value, ?text⟩
  case digits =>
    intro c hc
    obtain hc | hc := List.mem_append.mp hc
    · rw [List.eq_of_mem_replicate hc]
      decide
    · exact (isInteger_digits _).digits c hc
  case length =>
    simp only [List.length_append, List.length_replicate]
    omega
  case value =>
    rw [Nat.ofDigitChars_append, ofDigitChars_digits, ofDigitChars_replicate_zero, ofDigitChars_eq,
      ofDigitChars_digits, mul_assoc, ← pow_add, Nat.sub_add_cancel hlength, mul_comm,
      Nat.div_add_mod]
  case text => simp [fixedPoint, hpos.ne']

/-! ### Reading -/

theorem IsFixedPoint.isDigit_or_eq {cs : List Char} {n places : ℕ} (h : IsFixedPoint cs n places)
    {c : Char} (hc : c ∈ cs) : c.isDigit = true ∨ c = '.' := by
  obtain ⟨whole, fraction, hwhole, hfraction, -, -, rfl⟩ := h
  split at hc
  · exact .inl (hwhole.digits c (by simpa using hc))
  · obtain hc | rfl | hc := by simpa using hc
    · exact .inl (hwhole.digits c hc)
    · exact .inr rfl
    · exact .inl (hfraction c hc)

/-- A numeral shows its number. -/
theorem IsFixedPoint.eq_ofDigitChars {cs : List Char} {n places : ℕ} (h : IsFixedPoint cs n places) :
    n = Nat.ofDigitChars 10 (cs.filter Char.isDigit) 0 := by
  obtain ⟨whole, fraction, hwhole, hfraction, hlength, rfl, rfl⟩ := h
  have hw : whole.filter Char.isDigit = whole := List.filter_eq_self.mpr hwhole.digits
  have hf : fraction.filter Char.isDigit = fraction := List.filter_eq_self.mpr hfraction
  split
  next hzero =>
    obtain rfl := List.eq_nil_of_length_eq_zero (hlength.trans hzero)
    simp [hw]
  next =>
    have hpoint : Char.isDigit '.' = false := by decide
    simp [hw, hf, hpoint]

theorem IsFixedPoint.unique {cs : List Char} {m n places : ℕ} (hm : IsFixedPoint cs m places)
    (hn : IsFixedPoint cs n places) : m = n :=
  hm.eq_ofDigitChars.trans hn.eq_ofDigitChars.symm

end AccessLine.Number
