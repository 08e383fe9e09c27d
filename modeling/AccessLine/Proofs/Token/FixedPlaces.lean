import AccessLine.Proofs.Number.Elapsed
import AccessLine.Proofs.Number.Numerals
import AccessLine.Proofs.Number.Scaling
import AccessLine.Token.ResponseTime

/-!
# Response times with a fixed number of places

The text of a time is meant to be the numeral of the nearest multiple of a unit of the last place,
with halves going up. It is, but for a few kinds of values, which are named here one by one.
-/
namespace AccessLine.ResponseTime

open Number Binary64

/-- Among the multiples of `1 / 10^places` the `n`th is nearest to the rational, and the larger one
of two. -/
def IsNearestUp (q : ℚ) (n places : ℕ) : Prop :=
  ∀ m : ℤ, m ≠ n → |n / 10 ^ places - q| < |m / 10 ^ places - q| ∨
    |n / 10 ^ places - q| = |m / 10 ^ places - q| ∧ m < n

/-- The midpoint decides which of two numbers is nearer. -/
theorem abs_sub_lt_abs_sub_iff {a b x : ℚ} (h : a < b) :
    |a - x| < |b - x| ↔ x < (a + b) / 2 := by
  rw [← sq_lt_sq]
  constructor
  · intro hsq
    by_contra hle
    nlinarith
  · intro hlt
    nlinarith

theorem isNearestUp_iff {q : ℚ} {n places : ℕ} :
    IsNearestUp q n places ↔ RoundsUp (q * 10 ^ places) n := by
  have hpos : (0 : ℚ) < 10 ^ places := by positivity
  simp only [IsNearestUp, abs_div_sub hpos, div_lt_div_iff_of_pos_right hpos, div_left_inj' hpos.ne']
  generalize q * 10 ^ places = x
  constructor
  · intro h
    have hupper : |(n : ℚ) - x| < |(n + 1 : ℤ) - x| := by
      obtain hlt | ⟨-, hlt⟩ := h (n + 1) (by omega)
      · exact hlt
      · omega
    have hlower : |(n : ℚ) - x| ≤ |(n - 1 : ℤ) - x| := by
      obtain hlt | ⟨heq, -⟩ := h (n - 1) (by omega)
      · exact hlt.le
      · exact heq.le
    push_cast at hupper hlower
    rw [abs_sub_lt_abs_sub_iff (by linarith)] at hupper
    rw [← not_lt, abs_sub_lt_abs_sub_iff (by linarith), not_lt] at hlower
    constructor <;> linarith
  · rintro ⟨hlower, hupper⟩ m hm
    obtain hlt | hgt := lt_or_gt_of_ne hm
    · have hmn : (m : ℚ) + 1 ≤ n := by exact_mod_cast hlt
      have hle : |(n : ℚ) - x| ≤ |m - x| := by
        rw [← not_lt, abs_sub_lt_abs_sub_iff (by linarith), not_lt]
        linarith
      exact hle.lt_or_eq.imp_right fun heq => ⟨heq, hlt⟩
    · have hnm : (n : ℚ) + 1 ≤ m := by exact_mod_cast hgt
      exact .inl ((abs_sub_lt_abs_sub_iff (by linarith)).mpr (by linarith))

/-- The text is the numeral of the nearest multiple. -/
def WritesNearest (v : Binary64) (places : ℕ) : Prop :=
  ∃ n, IsNearestUp v.value n places ∧ IsFixedPoint (text v places).toList n places

/-- The values whose text is not the numeral of the nearest multiple. -/
inductive Misses (v : Binary64) (places : ℕ) : Prop
  /-- A zero keeps its sign. -/
  | signed (sign : v.negative = true)
  /-- A half above an even integer goes down where nothing but the writer rounds. -/
  | tie (k : ℕ) (unscaled : halfUpPlaces < places ∨ 2 ^ 52 ≤ v.value * 10 ^ places)
      (half : v.value * 10 ^ places = (2 * k : ℕ) + 1 / 2)
  /-- The product lies below a half and is rounded to it. -/
  | lifted (k : ℕ) (scaled : places ≤ halfUpPlaces) (below : v.value * 10 ^ places < k + 1 / 2)
      (half : (v.mulNat (10 ^ places)).value = k + 1 / 2)
  /-- The rounded product, divided again, is another number. -/
  | moved (scaled : places ≤ halfUpPlaces) (coarse : 2 ^ 53 ≤ v.value * 10 ^ places)
      (ne : ((v.mulNat (10 ^ places)).divNat (10 ^ places)).value ≠ v.value)
  /-- The product is beyond the largest number. -/
  | beyond (scaled : places ≤ halfUpPlaces) (range : ¬(v.mulNat (10 ^ places)).InRange)

theorem toList_toPlaces {x : Binary64} (h : x.negative = false) (places : ℕ) :
    (x.toPlaces places).toList = fixedPoint (x.placesMagnitude places) places := by
  simp [toPlaces, h]

section
variable {v : Binary64} {places : ℕ}

/-- Once the digits are known, all hangs on the integer that they write. -/
theorem writesNearest_iff {m : ℕ} (h : (text v places).toList = fixedPoint m places) :
    WritesNearest v places ↔ RoundsUp (v.value * 10 ^ places) m := by
  have hwritten := isFixedPoint_fixedPoint m places
  rw [← h] at hwritten
  constructor
  · rintro ⟨n, hn, hcs⟩
    rw [isNearestUp_iff] at hn
    rwa [hwritten.unique hcs]
  · intro hm
    exact ⟨m, isNearestUp_iff.mpr hm, hwritten⟩

theorem text_of_lt (h : halfUpPlaces < places) : text v places = v.toPlaces places :=
  if_pos h

theorem text_of_inRange (h : places ≤ halfUpPlaces) (hrange : (v.mulNat (10 ^ places)).InRange) :
    text v places =
      ((v.mulNat (10 ^ places)).roundToInteger.divNat (10 ^ places)).toPlaces places := by
  have : ¬halfUpPlaces < places := by omega
  simp only [text, this, if_false]
  exact if_pos hrange

theorem text_of_not_inRange (h : places ≤ halfUpPlaces)
    (hrange : ¬(v.mulNat (10 ^ places)).InRange) : text v places = infiniteText v.negative := by
  have : ¬halfUpPlaces < places := by omega
  simp only [text, this, if_false]
  exact (if_neg hrange).trans (by rw [negative_mulNat])

theorem scale_le (h : places ≤ halfUpPlaces) : 10 ^ places ≤ 2 ^ 50 :=
  (Nat.pow_le_pow_right (by decide) h).trans (by decide)

/-- A sign is part of no numeral. -/
theorem not_isFixedPoint_text_of_negative (h : v.negative = true) (n : ℕ) :
    ¬IsFixedPoint (text v places).toList n places := by
  have hsign : '-' ∈ (text v places).toList := by
    unfold text
    split
    · simp [toPlaces, h]
    · dsimp only
      split
      · simp [toPlaces, h]
      · simp [infiniteText, h]
  intro hcs
  exact absurd (hcs.isDigit_or_eq hsign) (by decide)

theorem not_isFixedPoint_infiniteText (negative : Bool) (n : ℕ) :
    ¬IsFixedPoint (infiniteText negative).toList n places := by
  have hletter : 'i' ∈ (infiniteText negative).toList := by
    cases negative <;> decide
  intro hcs
  exact absurd (hcs.isDigit_or_eq hletter) (by decide)

/-! ### The kinds of values one by one -/

section
variable (sign : v.negative = false)
include sign

/-- Past `halfUpPlaces` the exact value is written. -/
theorem writesNearest_iff_of_lt (h : halfUpPlaces < places) :
    WritesNearest v places ↔ ¬∃ k : ℕ, v.value * 10 ^ places = (2 * k : ℕ) + 1 / 2 := by
  have hdigits : (text v places).toList = fixedPoint (v.placesMagnitude places) places := by
    rw [text_of_lt h, toList_toPlaces sign]
  rw [writesNearest_iff hdigits, (roundsEven_placesMagnitude sign places).roundsUp_iff]

/-- The steps of scaling, on rationals. -/
theorem exists_scaled (h : places ≤ halfUpPlaces) (range : (v.mulNat (10 ^ places)).InRange) :
    ∃ r m : ℕ, RoundsUp (nearest (v.value * (10 ^ places : ℕ))) r ∧
      RoundsEven (nearest (nearest r / (10 ^ places : ℕ)) * (10 ^ places : ℕ)) m ∧
      (text v places).toList = fixedPoint m places := by
  have hproduct : (v.mulNat (10 ^ places)).negative = false := by rw [negative_mulNat, sign]
  have hquotient : ((v.mulNat (10 ^ places)).roundToInteger.divNat (10 ^ places)).negative = false := by
    rw [negative_divNat, negative_roundToInteger, hproduct]
  obtain ⟨r, hvalue, hr⟩ := exists_value_roundToInteger hproduct
  have hm := roundsEven_placesMagnitude hquotient places
  rw [value_divNat _ (by positivity), hvalue] at hm
  rw [value_mulNat] at hr
  refine ⟨r, _, hr, by exact_mod_cast hm, ?_⟩
  rw [text_of_inRange h range, toList_toPlaces hquotient]

theorem inRange_of_product_lt (hproduct : v.value * 10 ^ places < 2 ^ 52) :
    (v.mulNat (10 ^ places)).InRange := by
  rw [inRange_mulNat_iff sign]
  push_cast
  calc nearest (v.value * 10 ^ places) ≤ 2 ^ 52 := nearest_le_two_pow hproduct.le
    _ < 2 ^ 53 * 1 := by norm_num
    _ ≤ top := by
      unfold top
      gcongr
      exact one_le_zpow₀ one_le_two (by decide)

theorem writesNearest_iff_of_product_lt (nonneg : 0 ≤ v.value) (h : places ≤ halfUpPlaces)
    (hproduct : v.value * 10 ^ places < 2 ^ 52) :
    WritesNearest v places ↔
      ¬∃ k : ℕ, v.value * 10 ^ places < k + 1 / 2 ∧ (v.mulNat (10 ^ places)).value = k + 1 / 2 := by
  have hcast : ((10 ^ places : ℕ) : ℚ) = 10 ^ places := by push_cast; rfl
  obtain ⟨r, m, hr, hm, hdigits⟩ := exists_scaled sign h (inRange_of_product_lt sign hproduct)
  rw [writesNearest_iff hdigits, value_mulNat]
  rw [← hcast] at hproduct ⊢
  exact roundsUp_quotient_iff nonneg (by positivity) (scale_le h) hproduct hr hm

theorem writesNearest_iff_of_le_product (finite : v.IsFinite) (nonneg : 0 ≤ v.value)
    (h : places ≤ halfUpPlaces) (hproduct : 2 ^ 52 ≤ v.value * 10 ^ places)
    (range : (v.mulNat (10 ^ places)).InRange) :
    WritesNearest v places ↔
      (¬∃ k : ℕ, v.value * 10 ^ places = (2 * k : ℕ) + 1 / 2) ∧
        (2 ^ 53 ≤ v.value * 10 ^ places →
          ((v.mulNat (10 ^ places)).divNat (10 ^ places)).value = v.value) := by
  have hcast : ((10 ^ places : ℕ) : ℚ) = 10 ^ places := by push_cast; rfl
  obtain ⟨r, m, hr, hm, hdigits⟩ := exists_scaled sign h range
  rw [writesNearest_iff hdigits, value_divNat _ (by positivity), value_mulNat]
  rw [← hcast] at hproduct ⊢
  exact roundsUp_returned_iff (finite.nearest_value sign) nonneg (by positivity) (scale_le h)
    hproduct hr hm

/-! ### The misses among them -/

theorem misses_iff_of_lt (h : halfUpPlaces < places) :
    Misses v places ↔ ∃ k : ℕ, v.value * 10 ^ places = (2 * k : ℕ) + 1 / 2 := by
  constructor
  · rintro (hsign | ⟨k, -, hhalf⟩ | ⟨-, hle, -, -⟩ | ⟨hle, -, -⟩ | ⟨hle, -⟩)
    · simp [sign] at hsign
    · exact ⟨k, hhalf⟩
    all_goals omega
  · rintro ⟨k, hhalf⟩
    exact .tie k (.inl h) hhalf

theorem misses_iff_of_product_lt (h : places ≤ halfUpPlaces)
    (hproduct : v.value * 10 ^ places < 2 ^ 52) :
    Misses v places ↔
      ∃ k : ℕ, v.value * 10 ^ places < k + 1 / 2 ∧ (v.mulNat (10 ^ places)).value = k + 1 / 2 := by
  constructor
  · rintro (hsign | ⟨-, hlt | hge, -⟩ | ⟨k, -, hbelow, hhalf⟩ | ⟨-, hge, -⟩ | ⟨-, hout⟩)
    · simp [sign] at hsign
    · omega
    · linarith
    · exact ⟨k, hbelow, hhalf⟩
    · linarith
    · exact absurd (inRange_of_product_lt sign hproduct) hout
  · rintro ⟨k, hbelow, hhalf⟩
    exact .lifted k h hbelow hhalf

theorem misses_iff_of_le_product (h : places ≤ halfUpPlaces)
    (hproduct : 2 ^ 52 ≤ v.value * 10 ^ places) (range : (v.mulNat (10 ^ places)).InRange) :
    Misses v places ↔
      (∃ k : ℕ, v.value * 10 ^ places = (2 * k : ℕ) + 1 / 2) ∨
        2 ^ 53 ≤ v.value * 10 ^ places ∧
          ((v.mulNat (10 ^ places)).divNat (10 ^ places)).value ≠ v.value := by
  constructor
  · rintro (hsign | ⟨k, -, hhalf⟩ | ⟨k, -, -, hhalf⟩ | ⟨-, hcoarse, hne⟩ | ⟨-, hout⟩)
    · simp [sign] at hsign
    · exact .inl ⟨k, hhalf⟩
    · -- The rounded product is an integer here.
      rw [value_mulNat] at hhalf
      push_cast at hhalf
      obtain ⟨p, hp⟩ := exists_nearest_eq_natCast hproduct
      rw [hp] at hhalf
      have : ((2 * p : ℕ) : ℚ) = (2 * k + 1 : ℕ) := by
        push_cast
        linarith
      have : 2 * p = 2 * k + 1 := by exact_mod_cast this
      omega
    · exact .inr ⟨hcoarse, hne⟩
    · exact absurd range hout
  · rintro (⟨k, hhalf⟩ | ⟨hcoarse, hne⟩)
    · exact .tie k (.inr hproduct) hhalf
    · exact .moved h hcoarse hne

end

/-- A time that is not negative is written as the numeral of the nearest multiple, halves up, if and
only if it is of none of the kinds that are missed. -/
theorem writesNearest_unless_misses (finite : v.IsFinite) (nonneg : 0 ≤ v.value) (places : ℕ) :
    WritesNearest v places ↔ ¬Misses v places := by
  cases hsign : v.negative with
  | true =>
      refine iff_of_false ?_ (not_not_intro (.signed hsign))
      rintro ⟨n, -, hn⟩
      exact not_isFixedPoint_text_of_negative hsign n hn
  | false =>
      obtain hlt | hle := lt_or_ge halfUpPlaces places
      · rw [writesNearest_iff_of_lt hsign hlt, misses_iff_of_lt hsign hlt]
      obtain hsmall | hlarge := lt_or_ge (v.value * 10 ^ places) (2 ^ 52)
      · rw [writesNearest_iff_of_product_lt hsign nonneg hle hsmall,
          misses_iff_of_product_lt hsign hle hsmall]
      by_cases hrange : (v.mulNat (10 ^ places)).InRange
      · rw [writesNearest_iff_of_le_product hsign finite nonneg hle hlarge hrange,
          misses_iff_of_le_product hsign hle hlarge hrange, not_or, not_and_not_right]
      · refine iff_of_false ?_ (not_not_intro (.beyond hle hrange))
        rintro ⟨n, -, hn⟩
        rw [text_of_not_inRange hle hrange] at hn
        exact not_isFixedPoint_infiniteText _ n hn

end

/-- Two and a half milliseconds. -/
theorem millisSince_half :
    Timestamp.millisSince ⟨3, 2500000⟩ ⟨3, 0⟩ = ⟨false, 5629499534213120, -51⟩ := by
  decide +kernel

/-- An exact half goes up. -/
theorem writesNearest_unless_misses_half :
    (Timestamp.millisSince ⟨3, 2500000⟩ ⟨3, 0⟩).IsFinite ∧
      0 ≤ (Timestamp.millisSince ⟨3, 2500000⟩ ⟨3, 0⟩).value ∧
      text (Timestamp.millisSince ⟨3, 2500000⟩ ⟨3, 0⟩) 0 = "3" ∧
      WritesNearest (Timestamp.millisSince ⟨3, 2500000⟩ ⟨3, 0⟩) 0 := by
  rw [millisSince_half]
  have hfinite : (⟨false, 5629499534213120, -51⟩ : Binary64).IsFinite :=
    ⟨by decide, by decide, by decide⟩
  have hvalue : (⟨false, 5629499534213120, -51⟩ : Binary64).value = 5 / 2 := by
    rw [value]
    norm_num
  have hnonneg : 0 ≤ (⟨false, 5629499534213120, -51⟩ : Binary64).value := by
    rw [hvalue]
    norm_num
  refine ⟨hfinite, hnonneg, by decide +kernel,
    (writesNearest_unless_misses hfinite hnonneg 0).mpr ?_⟩
  rw [misses_iff_of_product_lt rfl (by decide) (by rw [hvalue]; norm_num), value_mulNat,
    (show ((10 ^ 0 : ℕ) : ℚ) = 1 by norm_num), mul_one, hfinite.nearest_value rfl, pow_zero, mul_one]
  rintro ⟨k, hbelow, hhalf⟩
  exact hbelow.ne hhalf

/-- One and forty-five hundredths of a millisecond, to the nearest number. -/
theorem millisSince_belowHalf :
    Timestamp.millisSince ⟨0, 1450000⟩ ⟨0, 0⟩ = ⟨false, 6530219459687219, -52⟩ := by
  decide +kernel

/-- A nanosecond is a half in its seventy-second place, and goes down. -/
theorem not_writesNearest_nanosecond :
    ¬WritesNearest (Timestamp.millisSince ⟨0, 1⟩ ⟨0, 0⟩) 71 := by
  have hmillis : Timestamp.millisSince ⟨0, 1⟩ ⟨0, 0⟩ = ⟨false, 4722366482869645, -72⟩ := by
    decide +kernel
  rw [hmillis, writesNearest_iff_of_lt rfl (by decide), not_not]
  refine ⟨4722366482869645 * 5 ^ 71 / 4, ?_⟩
  rw [value]
  norm_num

/-- That number is below the half, and goes up. Past `halfUpPlaces` even a half goes down. -/
theorem not_writesNearest_belowHalf :
    (Timestamp.millisSince ⟨0, 1450000⟩ ⟨0, 0⟩).IsFinite ∧
      IsNearestUp (Timestamp.millisSince ⟨0, 1450000⟩ ⟨0, 0⟩).value 14 1 ∧
      text (Timestamp.millisSince ⟨0, 1450000⟩ ⟨0, 0⟩) 1 = "1.5" ∧
      ¬WritesNearest (Timestamp.millisSince ⟨0, 1450000⟩ ⟨0, 0⟩) 1 ∧
      ¬WritesNearest (Timestamp.millisSince ⟨0, 1⟩ ⟨0, 0⟩) 71 := by
  rw [millisSince_belowHalf]
  have hvalue : (⟨false, 6530219459687219, -52⟩ : Binary64).value = 6530219459687219 / 2 ^ 52 := by
    rw [value]
    norm_num
  have hproduct : (⟨false, 6530219459687219, -52⟩ : Binary64).mulNat (10 ^ 1) =
      ⟨false, 8162774324609024, -49⟩ := by
    decide +kernel
  refine ⟨⟨by decide, by decide, by decide⟩, ?_, by decide +kernel, ?_,
    not_writesNearest_nanosecond⟩
  · rw [isNearestUp_iff, hvalue]
    constructor <;> norm_num
  · rw [writesNearest_iff_of_product_lt rfl (by rw [hvalue]; norm_num) (by decide)
      (by rw [hvalue]; norm_num), not_not, hproduct, hvalue]
    refine ⟨14, by norm_num, ?_⟩
    rw [value]
    norm_num

end AccessLine.ResponseTime
