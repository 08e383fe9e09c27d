import AccessLine.Proofs.Number.Literals
import AccessLine.Token.ResponseTime

/-!
# The places that an argument asks for

An argument that writes a number asks for its integer part, kept between zero and `maxPlaces`. A
number that would be rounded beyond the largest one of the format asks for none, though it is larger
than every argument that asks for all of them.
-/
namespace AccessLine.ResponseTime

open Number Number.Binary64

/-- The argument is a decimal literal with the value, between blanks. -/
def Writes (arg : String) (q : ℚ) : Prop :=
  IsLiteral (Text.trimBlank arg.toList) q

theorem places_le (arg : String) : places arg ≤ maxPlaces := by
  unfold places
  split
  · split
    · exact Nat.zero_le _
    · exact min_le_right _ _
  · exact Nat.zero_le _

/-- The literal's value is rounded first, so one just below an integer can ask for that integer. A
negative value has nothing left of it. -/
theorem places_eq {arg : String} {q : ℚ} (h : Writes arg q) :
    places arg = if q < limit then min ⌊nearest q⌋₊ maxPlaces else 0 := by
  obtain ⟨d, hread, rfl⟩ := exists_readFinite?_eq h
  unfold places
  rw [hread]
  cases hnegative : d.negative with
  | true =>
      have hvalue : d.value ≤ 0 := by
        rw [Decimal.value, hnegative, unit_true]
        linarith [d.magnitude_nonneg]
      have hfloor : ⌊nearest d.value⌋₊ = 0 :=
        Nat.floor_of_nonpos (nearest_zero ▸ nearest_mono hvalue)
      rw [if_pos (hvalue.trans_lt limit_pos), hfloor, Nat.zero_min]
      obtain ⟨-, x, hx, hsign, -⟩ | ⟨-, hx⟩ := d.toBinary64?_cases
      · rw [hx]
        exact if_pos (hsign.trans hnegative)
      · rw [hx]
  | false =>
      have hvalue : d.magnitude = d.value := by
        rw [Decimal.value, hnegative, unit_false, one_mul]
      obtain ⟨hlt, x, hx, hsign, hnearest⟩ | ⟨hle, hx⟩ := d.toBinary64?_cases
      · rw [hnegative] at hsign
        rw [if_pos (hvalue ▸ hlt), ← hnearest, ← floorMagnitude_eq hsign, hx]
        simp [hsign]
      · rw [if_neg (not_lt.mpr (hvalue ▸ hle)), hx]

/-- Up to the limit the places follow the value and stop at `maxPlaces`. From there on an argument
asks for none, so it falls below every smaller one that asks for any. -/
theorem places_mono_unless_beyond {a b : String} {x y : ℚ} (ha : Writes a x) (hb : Writes b y)
    (hxy : x ≤ y) :
    places b ≤ maxPlaces ∧
      (places a ≤ places b ↔ ¬(limit ≤ y ∧ x < limit ∧ 1 ≤ nearest x)) ∧
      (maxPlaces ≤ y → places b = if y < limit then maxPlaces else 0) := by
  refine ⟨places_le b, ?_, fun hmany => ?_⟩
  · rw [places_eq ha, places_eq hb]
    by_cases hy : y < limit
    · rw [if_pos (hxy.trans_lt hy), if_pos hy]
      exact iff_of_true (min_le_min_right _ (Nat.floor_mono (nearest_mono hxy)))
        fun h => absurd hy (not_lt.mpr h.1)
    · rw [if_neg hy, Nat.le_zero]
      by_cases hx : x < limit
      · rw [if_pos hx, Nat.min_eq_zero_iff, or_iff_left (by decide), Nat.floor_eq_zero, ← not_le]
        exact not_congr ⟨fun h => ⟨not_lt.mp hy, hx, h⟩, fun h => h.2.2⟩
      · rw [if_neg hx]
        exact iff_of_true rfl fun h => hx h.2.1
  · rw [places_eq hb]
    by_cases hy : y < limit
    · have hfloor : maxPlaces ≤ ⌊nearest y⌋₊ := by
        apply Nat.le_floor
        rw [← nearest_natCast (n := maxPlaces) (by decide)]
        exact nearest_mono hmany
      rw [if_pos hy, if_pos hy, min_eq_right hfloor]
    · rw [if_neg hy, if_neg hy]

theorem writes_nine : Writes " 9 " 9 := by
  have htext : Text.trimBlank " 9 ".toList = ['9'] := by decide
  have h := IsLiteral.integer ['9'] (by decide) (by decide)
  rwa [show Nat.ofDigitChars 10 ['9'] 0 = 9 by decide, Nat.cast_ofNat, ← htext] at h

theorem writes_power (arg : String) (es : List Char) {n : ℕ} (hdigits : es.all Char.isDigit = true)
    (hnonempty : es ≠ []) (hvalue : Nat.ofDigitChars 10 es 0 = n)
    (htext : Text.trimBlank arg.toList = '1' :: 'e' :: es) : Writes arg (10 ^ n) := by
  have h := IsLiteral.scaled ['1'] es (by decide) (by decide) hdigits hnonempty
  rw [Writes, htext, ← hvalue]
  rwa [show Nat.ofDigitChars 10 ['1'] 0 = 1 by decide, Nat.cast_one, one_mul] at h

theorem writes_tenSquare : Writes "1e2" (10 ^ 2) :=
  writes_power _ ['2'] (by decide) (by decide) (by decide) (by decide)

theorem writes_tenPow : Writes "1e400" (10 ^ 400) :=
  writes_power _ ['4', '0', '0'] (by decide) (by decide) (by decide) (by decide)

theorem places_mono_unless_beyond_nine :
    Writes " 9 " 9 ∧ Writes "1e2" (10 ^ 2) ∧ (9 : ℚ) ≤ 10 ^ 2 ∧
      places "1e2" ≤ maxPlaces ∧
      (places " 9 " ≤ places "1e2" ↔ ¬(limit ≤ 10 ^ 2 ∧ (9 : ℚ) < limit ∧ 1 ≤ nearest 9)) ∧
      (maxPlaces ≤ (10 : ℚ) ^ 2 → places "1e2" = if 10 ^ 2 < limit then maxPlaces else 0) := by
  have hle : (9 : ℚ) ≤ 10 ^ 2 := by norm_num
  exact ⟨writes_nine, writes_tenSquare, hle,
    places_mono_unless_beyond writes_nine writes_tenSquare hle⟩

/-- The larger number asks for fewer places than the smaller one, and for none instead of all. -/
theorem not_places_mono_tenPow :
    Writes " 9 " 9 ∧ Writes "1e400" (10 ^ 400) ∧ (9 : ℚ) ≤ 10 ^ 400 ∧ (maxPlaces : ℚ) ≤ 10 ^ 400 ∧
      ¬places " 9 " ≤ places "1e400" ∧ places "1e400" ≠ maxPlaces := by
  have hle : (maxPlaces : ℚ) ≤ 10 ^ 400 := by
    calc (maxPlaces : ℚ) = 10 ^ 2 := by norm_num [maxPlaces]
      _ ≤ 10 ^ 400 := pow_le_pow_right₀ (by norm_num) (by norm_num)
  have hnine : places " 9 " = 9 := by decide +kernel
  have hnone : places "1e400" = 0 := by decide +kernel
  refine ⟨writes_nine, writes_tenPow, le_trans ?_ hle, hle, ?_, ?_⟩
  · norm_num [maxPlaces]
  · rw [hnine, hnone]
    decide
  · rw [hnone]
    decide

end AccessLine.ResponseTime
