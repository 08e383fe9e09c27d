import AccessLine.Proofs.Number.Rounding
import Mathlib.Algebra.Order.Floor.Semifield
import Mathlib.Data.Rat.Floor

/-!
# Distances between numbers

How far a rounded integer and a rounded number can be from what they stand for, and how close two
numbers of the format can be to each other.
-/
namespace AccessLine.Number

/-! ### Integers near a rational -/

theorem eq_of_cast_lt_add_one {m n : ℕ} (hm : (m : ℚ) < n + 1) (hn : (n : ℚ) < m + 1) : m = n := by
  have hm : m < n + 1 := by exact_mod_cast hm
  have hn : n < m + 1 := by exact_mod_cast hn
  omega

theorem abs_mul_sub {s : ℚ} (hs : 0 < s) (x y : ℚ) : |x * s - y| = |x - y / s| * s := by
  calc |x * s - y| = |(x - y / s) * s| := by rw [sub_mul, div_mul_cancel₀ _ hs.ne']
    _ = |x - y / s| * s := by rw [abs_mul, abs_of_pos hs]

theorem abs_div_sub {s : ℚ} (hs : 0 < s) (x y : ℚ) : |x / s - y| = |x - y * s| / s := by
  rw [eq_div_iff hs.ne', abs_sub_comm, abs_sub_comm x, abs_mul_sub hs]

/-- The integer is nearest to the rational, and the larger one of two. -/
def RoundsUp (q : ℚ) (n : ℕ) : Prop :=
  n - 1 / 2 ≤ q ∧ q < n + 1 / 2

/-- The integer is nearest to the rational, and the even one of two. -/
structure RoundsEven (q : ℚ) (n : ℕ) : Prop where
  near : |q - n| ≤ 1 / 2
  even : |q - n| = 1 / 2 → Even n

theorem RoundsUp.unique {q : ℚ} {m n : ℕ} (hm : RoundsUp q m) (hn : RoundsUp q n) : m = n :=
  eq_of_cast_lt_add_one (by linarith [hm.1, hn.2]) (by linarith [hn.1, hm.2])

theorem exists_roundsUp {q : ℚ} (hq : 0 ≤ q) : ∃ n, RoundsUp q n :=
  ⟨⌊q + 1 / 2⌋₊, by linarith [Nat.floor_le (show 0 ≤ q + 1 / 2 by linarith)],
    by linarith [Nat.lt_floor_add_one (q + 1 / 2)]⟩

theorem roundsUp_natCast (n : ℕ) : RoundsUp n n := by
  constructor <;> linarith

/-- Of two integers only one can be nearer than a half. -/
theorem RoundsEven.eq_of_abs_sub_lt {q : ℚ} {m n : ℕ} (hm : RoundsEven q m)
    (hn : |q - n| < 1 / 2) : m = n := by
  have hm := abs_le.mp hm.near
  have hn := abs_lt.mp hn
  exact eq_of_cast_lt_add_one (by linarith [hm.1, hn.2]) (by linarith [hm.2, hn.1])

/-- The two policies differ on halves above an even integer only. -/
theorem RoundsEven.roundsUp_iff {q : ℚ} {n : ℕ} (h : RoundsEven q n) :
    RoundsUp q n ↔ ¬∃ k : ℕ, q = (2 * k : ℕ) + 1 / 2 := by
  constructor
  · rintro hup ⟨k, rfl⟩
    have hnext : RoundsUp ((2 * k : ℕ) + 1 / 2) (2 * k + 1) := by
      constructor <;> push_cast <;> linarith
    obtain rfl := hup.unique hnext
    have heven := h.even (by push_cast; norm_num)
    exact (Nat.not_even_iff_odd.mpr ⟨k, rfl⟩) heven
  · intro hno
    have hnear := abs_le.mp h.near
    refine ⟨by linarith [hnear.1], lt_of_le_of_ne (by linarith [hnear.2]) fun heq => hno ?_⟩
    obtain ⟨k, rfl⟩ := even_iff_exists_two_mul.mp (h.even (by rw [heq]; norm_num))
    exact ⟨k, heq⟩

theorem cast_div_eq (a : ℕ) {b : ℕ} (hb : 0 < b) :
    (a : ℚ) / b = (a / b : ℕ) + (a % b : ℕ) / (b : ℚ) := by
  have hb' : (b : ℚ) ≠ 0 := by exact_mod_cast hb.ne'
  have h : (a : ℚ) = b * (a / b : ℕ) + (a % b : ℕ) := by exact_mod_cast (Nat.div_add_mod a b).symm
  rw [div_eq_iff hb', add_mul, div_mul_cancel₀ _ hb', mul_comm]
  exact h

theorem cast_div_lt_half_iff (r : ℕ) {b : ℕ} (hb : 0 < b) : (r : ℚ) / b < 1 / 2 ↔ 2 * r < b := by
  rw [div_lt_div_iff₀ (by exact_mod_cast hb) two_pos, mul_comm, one_mul]
  exact_mod_cast Iff.rfl

theorem half_lt_cast_div_iff (r : ℕ) {b : ℕ} (hb : 0 < b) : 1 / 2 < (r : ℚ) / b ↔ b < 2 * r := by
  rw [div_lt_div_iff₀ two_pos (by exact_mod_cast hb), mul_comm (r : ℚ), one_mul]
  exact_mod_cast Iff.rfl

theorem cast_mod_div_bounds (a : ℕ) {b : ℕ} (hb : 0 < b) :
    0 ≤ (a % b : ℕ) / (b : ℚ) ∧ (a % b : ℕ) / (b : ℚ) < 1 := by
  refine ⟨by positivity, ?_⟩
  rw [div_lt_one (by exact_mod_cast hb)]
  exact_mod_cast Nat.mod_lt a hb

theorem roundsUp_roundHalfUp (a : ℕ) {b : ℕ} (hb : 0 < b) :
    RoundsUp ((a : ℚ) / b) (roundHalfUp a b) := by
  obtain ⟨hnonneg, hlt⟩ := cast_mod_div_bounds a hb
  have hhalf := cast_div_lt_half_iff (a % b) hb
  rw [cast_div_eq a hb]
  unfold RoundsUp roundHalfUp
  dsimp only
  split
  next h =>
    have hupper := not_lt.mp (hhalf.not.mpr (not_lt.mpr h))
    push_cast
    constructor <;> linarith
  next h =>
    have hlower := hhalf.mpr (not_le.mp h)
    constructor <;> linarith

theorem roundsEven_roundHalfEven (a : ℕ) {b : ℕ} (hb : 0 < b) :
    RoundsEven ((a : ℚ) / b) (roundHalfEven a b) := by
  obtain ⟨hnonneg, hlt⟩ := cast_mod_div_bounds a hb
  have hhalf := cast_div_lt_half_iff (a % b) hb
  have hhalf' := half_lt_cast_div_iff (a % b) hb
  rw [cast_div_eq a hb]
  unfold roundHalfEven
  dsimp only
  split_ifs with hlower hupper
  · have hlower := hhalf.mpr hlower
    have habs : |((a / b : ℕ) : ℚ) + (a % b : ℕ) / (b : ℚ) - (a / b : ℕ)| < 1 / 2 := by
      rwa [add_sub_cancel_left, abs_of_nonneg hnonneg]
    exact ⟨habs.le, fun heq => absurd heq habs.ne⟩
  · have hupper := hhalf'.mpr hupper
    have habs : |((a / b : ℕ) : ℚ) + (a % b : ℕ) / (b : ℚ) - (a / b + 1 : ℕ)| < 1 / 2 := by
      rw [abs_lt]
      push_cast
      constructor <;> linarith
    exact ⟨habs.le, fun heq => absurd heq habs.ne⟩
  · have htie : (a % b : ℕ) / (b : ℚ) = 1 / 2 :=
      le_antisymm (not_lt.mp (hhalf'.not.mpr hupper)) (not_lt.mp (hhalf.not.mpr hlower))
    rw [htie]
    obtain heven | hodd := Nat.mod_two_eq_zero_or_one (a / b)
    · rw [heven]
      exact ⟨by norm_num, fun _ => Nat.even_iff.mpr heven⟩
    · rw [hodd]
      refine ⟨by push_cast; norm_num, fun _ => ?_⟩
      exact (Nat.odd_iff.mpr hodd).add_one

namespace Binary64

/-! ### The error of a rounding -/

theorem abs_magnitude_sub_le (a : ℕ) {b : ℕ} (hb : 0 < b) :
    |magnitude a b - a / b| ≤ 2 ^ gridExponent a b / 2 := by
  set e := gridExponent a b
  have hpos : (0 : ℚ) < 2 ^ e := by positivity
  have hround : RoundsEven ((a : ℚ) / b / 2 ^ e) (roundAt a b e) := by
    have hb' : 0 < b <<< e.toNat := by
      rw [Nat.shiftLeft_eq]
      positivity
    have h := roundsEven_roundHalfEven (a <<< (-e).toNat) hb'
    have hshift := shiftLeft_div_shiftLeft a b (-e)
    rw [neg_neg] at hshift
    rwa [hshift, zpow_neg, mul_comm, ← div_eq_inv_mul, div_right_comm] at h
  calc |magnitude a b - a / b| = |(a : ℚ) / b / 2 ^ e - roundAt a b e| * 2 ^ e := by
        rw [magnitude, abs_mul_sub hpos, abs_sub_comm]
    _ ≤ 1 / 2 * 2 ^ e := by gcongr; exact hround.near
    _ = 2 ^ e / 2 := by ring

/-- A rounding is off by half a unit at most. -/
theorem abs_nearest_sub_le {q : ℚ} {k : ℤ} (hq : 0 ≤ q) (hk : minExponent ≤ k)
    (h : q ≤ 2 ^ 53 * 2 ^ k) : |nearest q - q| ≤ 2 ^ k / 2 := by
  obtain hlt | rfl := h.lt_or_eq
  · obtain rfl | hpos := hq.eq_or_lt
    · simp only [nearest_zero, sub_zero, abs_zero]
      positivity
    have hnum : q.num.natAbs ≠ 0 := by simpa using hpos.ne'
    have hparts := natAbs_num_div_den hq
    have hgrid : gridExponent q.num.natAbs q.den ≤ k :=
      gridExponent_le hnum (Rat.den_pos q) hk (hparts.symm ▸ hlt)
    have herror := abs_magnitude_sub_le q.num.natAbs (Rat.den_pos q)
    rw [hparts, ← nearest_of_nonneg hq] at herror
    calc |nearest q - q| ≤ 2 ^ gridExponent q.num.natAbs q.den / 2 := herror
      _ ≤ 2 ^ k / 2 := by gcongr; exact one_le_two
  · rw [nearest_two_pow_mul le_rfl hk, sub_self, abs_zero]
    positivity

/-- The unit of the format at a positive rational. -/
theorem exists_unit {q : ℚ} (hq : 0 < q) :
    ∃ k, minExponent ≤ k ∧ q < 2 ^ 53 * 2 ^ k ∧ (minExponent < k → 2 ^ 52 * 2 ^ k ≤ q) ∧
      ∃ n : ℕ, nearest q = n * 2 ^ k := by
  have hnum : q.num.natAbs ≠ 0 := by simpa using hq.ne'
  have hparts := natAbs_num_div_den hq.le
  refine ⟨gridExponent q.num.natAbs q.den, minExponent_le_gridExponent _ _, ?_, fun h => ?_, ?_⟩
  · have := lt_gridExponent hnum (Rat.den_pos q)
    rwa [hparts] at this
  · have := le_of_minExponent_lt_gridExponent hnum (Rat.den_pos q) h
    rwa [hparts] at this
  · exact ⟨_, nearest_of_nonneg hq.le⟩

/-- From the least normal number on the unit has a fixed proportion to the number. -/
theorem exists_unit_of_normal {q : ℚ} (h : 2 ^ 52 * 2 ^ minExponent ≤ q) :
    ∃ k, minExponent ≤ k ∧ 2 ^ 52 * 2 ^ k ≤ q ∧ q < 2 ^ 53 * 2 ^ k ∧
      ∃ n : ℕ, nearest q = n * 2 ^ k := by
  have hq : 0 < q := lt_of_lt_of_le (by positivity) h
  obtain ⟨k, hk, hlt, hle, hmultiple⟩ := exists_unit hq
  obtain rfl | hk' := hk.eq_or_lt
  · exact ⟨_, hk, h, hlt, hmultiple⟩
  · exact ⟨k, hk, hle hk', hlt, hmultiple⟩

/-- From the least normal number on the error of a rounding is small beside what is rounded. -/
theorem abs_nearest_sub_lt {q : ℚ} (h : 2 ^ 52 * 2 ^ minExponent ≤ q) :
    |nearest q - q| < q / 2 ^ 53 := by
  have hq : 0 < q := lt_of_lt_of_le (by positivity) h
  obtain ⟨k, hk, hle, hlt, -⟩ := exists_unit_of_normal h
  obtain heq | hlt' := hle.eq_or_lt
  · have hexact : nearest q = q := heq ▸ nearest_two_pow_mul (by decide) hk
    rw [hexact, sub_self, abs_zero]
    positivity
  · calc |nearest q - q| ≤ 2 ^ k / 2 := abs_nearest_sub_le hq.le hk hlt.le
      _ = 2 ^ 52 * 2 ^ k / 2 ^ 53 := by ring
      _ < q / 2 ^ 53 := by gcongr

/-- A number of the format is a multiple of the units below its own. -/
theorem exists_multiple {q : ℚ} (hq : nearest q = q) {k : ℤ} (h : 2 ^ 52 * 2 ^ k ≤ q) :
    ∃ n : ℕ, q = n * 2 ^ k := by
  obtain ⟨e, -, hlt, -, n, hn⟩ := exists_unit (lt_of_lt_of_le (by positivity) h)
  have hke : k ≤ e := by
    have hpow : (2 : ℚ) ^ k < 2 ^ (e + 1) := by
      rw [zpow_add_one₀ two_ne_zero]
      linarith
    have := (zpow_lt_zpow_iff_right₀ one_lt_two).mp hpow
    omega
  obtain ⟨j, hj⟩ := Int.eq_ofNat_of_zero_le (sub_nonneg.mpr hke)
  refine ⟨n * 2 ^ j, ?_⟩
  rw [← hq, hn, show e = j + k by omega, zpow_add₀ two_ne_zero]
  push_cast
  rw [zpow_natCast]
  ring

/-- From `2^52` on numbers are integers. -/
theorem exists_nearest_eq_natCast {q : ℚ} (h : 2 ^ 52 ≤ q) : ∃ n : ℕ, nearest q = n := by
  have hbound : (2 : ℚ) ^ 52 * 2 ^ (0 : ℤ) ≤ nearest q := by
    rw [zpow_zero, mul_one, ← nearest_two_pow (n := 52) (by decide)]
    exact nearest_mono h
  simpa using exists_multiple (nearest_nearest q) hbound

/-- Between `2^52` and `2^53` a rounding goes to the nearest integer. -/
theorem exists_nearest_roundsEven {q : ℚ} (h : 2 ^ 52 ≤ q) (h' : q < 2 ^ 53) :
    ∃ n : ℕ, nearest q = n ∧ RoundsEven q n := by
  have hq : 0 < q := lt_of_lt_of_le (by positivity) h
  have hnum : q.num.natAbs ≠ 0 := by simpa using hq.ne'
  have hparts := natAbs_num_div_den hq.le
  have hgrid : gridExponent q.num.natAbs q.den = 0 := by
    apply le_antisymm
    · apply gridExponent_le hnum (Rat.den_pos q) (by decide)
      rwa [hparts, zpow_zero, mul_one]
    · have hlt := lt_gridExponent hnum (Rat.den_pos q)
      rw [hparts] at hlt
      by_contra hneg
      have hpow : (2 : ℚ) ^ gridExponent q.num.natAbs q.den ≤ 2 ^ (-1 : ℤ) :=
        zpow_le_zpow_right₀ one_le_two (by omega)
      norm_num at hpow h hlt
      linarith
  refine ⟨roundHalfEven q.num.natAbs q.den, ?_, ?_⟩
  · simp [nearest_of_nonneg hq.le, magnitude, hgrid, roundAt]
  · have := roundsEven_roundHalfEven q.num.natAbs (Rat.den_pos q)
    rwa [hparts] at this

/-! ### The largest number -/

/-- A rounded quotient uses all its bits, unless its unit is the least one. -/
theorem mantissa_ofRatio (negative : Bool) (num : ℕ) {den : ℕ} (hden : 0 < den) :
    (ofRatio negative num den).mantissa < 2 ^ 53 ∧
      (minExponent < (ofRatio negative num den).exponent →
        2 ^ 52 ≤ (ofRatio negative num den).mantissa) := by
  unfold ofRatio
  split
  · exact ⟨Nat.two_pow_pos 53, fun h => absurd h (lt_irrefl _)⟩
  next hnum =>
    dsimp only
    split
    · exact ⟨Nat.two_pow_pos 53, fun h => absurd h (lt_irrefl _)⟩
    split
    · exact ⟨by simp [precision], fun _ => by simp [precision]⟩
    next hcarry =>
      refine ⟨lt_of_le_of_ne (roundAt_gridExponent_le hnum hden) hcarry, fun h => ?_⟩
      apply le_roundAt hden
      exact_mod_cast le_of_minExponent_lt_gridExponent hnum hden h

/-- The first power of two that is no number of the format. -/
def top : ℚ :=
  2 ^ 53 * 2 ^ (971 : ℤ)

theorem inRange_ofRatio_iff (negative : Bool) (num : ℕ) {den : ℕ} (hden : 0 < den) :
    (ofRatio negative num den).InRange ↔ magnitude num den < top := by
  have hmagnitude : magnitude num den =
      (ofRatio negative num den).mantissa * 2 ^ (ofRatio negative num den).exponent := by
    have h := value_ofRatio negative num den
    rw [value, negative_ofRatio] at h
    exact (mul_right_injective₀ (by cases negative <;> simp) h).symm
  obtain ⟨hupper, hlower⟩ := mantissa_ofRatio negative num hden
  rw [hmagnitude, InRange, top]
  generalize ofRatio negative num den = x at hupper hlower
  constructor
  · rintro (hzero | hexponent)
    · rw [hzero, Nat.cast_zero, zero_mul]
      positivity
    · calc (x.mantissa : ℚ) * 2 ^ x.exponent ≤ x.mantissa * 2 ^ (971 : ℤ) := by
            gcongr
            exact one_le_two
        _ < 2 ^ 53 * 2 ^ (971 : ℤ) := by
            gcongr
            exact_mod_cast hupper
  · intro h
    by_contra hout
    obtain ⟨-, hexponent⟩ := not_or.mp hout
    have hfull : (2 : ℚ) ^ 52 ≤ x.mantissa := by
      exact_mod_cast hlower (by rw [minExponent]; omega)
    have hpow : (2 : ℚ) ^ (971 : ℤ) * 2 ≤ 2 ^ x.exponent := by
      rw [← zpow_add_one₀ two_ne_zero]
      exact zpow_le_zpow_right₀ one_le_two (by omega)
    apply absurd h (not_lt.mpr _)
    calc (2 : ℚ) ^ 53 * 2 ^ (971 : ℤ) = (2 : ℚ) ^ 52 * (2 ^ (971 : ℤ) * 2) := by
          generalize (2 : ℚ) ^ (971 : ℤ) = p
          ring
      _ ≤ (x.mantissa : ℚ) * 2 ^ x.exponent := by gcongr

/-! ### Operations on positive numbers -/

section
variable {x : Binary64} (h : x.negative = false)
include h

/-- A positive number as a quotient of integers. -/
theorem shiftLeft_div_one_eq_value :
    ((x.mantissa <<< x.exponent.toNat : ℕ) : ℚ) / (1 <<< (-x.exponent).toNat : ℕ) = x.value := by
  rw [shiftLeft_div_shiftLeft, Nat.cast_one, div_one, value_of_negative_eq_false h]

theorem inRange_mulNat_iff (n : ℕ) : (x.mulNat n).InRange ↔ nearest (x.value * n) < top := by
  have hden : 0 < 1 <<< (-x.exponent).toNat := by simp [Nat.shiftLeft_eq]
  have hvalue : x.mantissa * n * 2 ^ x.exponent = x.value * n := by
    rw [value_of_negative_eq_false h]
    ring
  rw [mulNat, ofScaled, inRange_ofRatio_iff _ _ hden, magnitude_eq_nearest _ hden,
    shiftLeft_div_shiftLeft, Nat.cast_one, div_one, Nat.cast_mul, hvalue]

theorem exists_value_roundToInteger :
    ∃ n : ℕ, x.roundToInteger.value = nearest n ∧ RoundsUp x.value n := by
  refine ⟨_, ?_, shiftLeft_div_one_eq_value h ▸ roundsUp_roundHalfUp _ ?_⟩
  · rw [roundToInteger, value_ofRatio_eq_nearest _ _ one_pos, h]
    simp
  · simp [Nat.shiftLeft_eq]

theorem floorMagnitude_eq : x.floorMagnitude = ⌊x.value⌋₊ := by
  rw [← shiftLeft_div_one_eq_value h, Nat.floor_div_eq_div, floorMagnitude]

theorem roundsEven_placesMagnitude (places : ℕ) :
    RoundsEven (x.value * 10 ^ places) (x.placesMagnitude places) := by
  have hden : 0 < 1 <<< (-x.exponent).toNat := by simp [Nat.shiftLeft_eq]
  have hround :=
    roundsEven_roundHalfEven (x.mantissa <<< x.exponent.toNat * Nat.pow 10 places) hden
  rwa [Nat.cast_mul, mul_div_right_comm, shiftLeft_div_one_eq_value h,
    show ((Nat.pow 10 places : ℕ) : ℚ) = 10 ^ places by exact_mod_cast rfl] at hround

end

end Binary64

end AccessLine.Number
