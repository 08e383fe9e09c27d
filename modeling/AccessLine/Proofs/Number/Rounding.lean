import AccessLine.Number.Binary64
import Mathlib.Algebra.Order.Field.Power
import Mathlib.Algebra.Order.Field.Rat
import Mathlib.Data.Rat.Cast.Order
import Mathlib.Tactic.FieldSimp
import Mathlib.Tactic.Linarith
import Mathlib.Tactic.NormNum
import Mathlib.Tactic.Positivity
import Mathlib.Tactic.Ring

/-!
# Rounding to binary64 numbers

Numbers are looked at as rationals. Every operation rounds its exact result by one function of the
rationals, which keeps their order, goes with the sign, and leaves what is representable as it is.
-/
namespace AccessLine.Number

/-! ### The nearest integer -/

theorem roundHalfEven_bounds (a b : ℕ) :
    a / b ≤ roundHalfEven a b ∧ roundHalfEven a b ≤ a / b + 1 := by
  unfold roundHalfEven
  dsimp only
  split_ifs <;> omega

theorem roundHalfEven_mono {a b c d : ℕ} (hb : 0 < b) (hd : 0 < d) (h : a * d ≤ c * b) :
    roundHalfEven a b ≤ roundHalfEven c d := by
  have hq : a / b ≤ c / d := by
    rw [Nat.le_div_iff_mul_le hd]
    apply Nat.le_of_mul_le_mul_right _ hb
    calc a / b * d * b = a / b * b * d := by ring
      _ ≤ a * d := Nat.mul_le_mul_right d (Nat.div_mul_le_self a b)
      _ ≤ c * b := h
  obtain hlt | heq := hq.lt_or_eq
  · calc roundHalfEven a b ≤ a / b + 1 := (roundHalfEven_bounds a b).2
      _ ≤ c / d := hlt
      _ ≤ roundHalfEven c d := (roundHalfEven_bounds c d).1
  · -- With the same integer part the remainders decide.
    have hr : a % b * d ≤ c % d * b := by
      have ha := Nat.div_add_mod a b
      have hc := Nat.div_add_mod c d
      rw [← heq] at hc
      nlinarith
    unfold roundHalfEven
    dsimp only
    rw [heq]
    split_ifs with h₁ h₂ h₃ h₄ h₅ h₆
    all_goals first | omega | (exfalso; nlinarith)

/-! ### Quotients and powers of two -/

@[simp] theorem cast_shiftLeft (n k : ℕ) : ((n <<< k : ℕ) : ℚ) = n * 2 ^ k := by
  simp [Nat.shiftLeft_eq]

/-- A power as a quotient of two, of which only one is not trivial. -/
theorem zpow_eq_div {b : ℚ} (hb : b ≠ 0) (e : ℤ) : b ^ e = b ^ e.toNat / b ^ (-e).toNat := by
  rw [eq_div_iff (pow_ne_zero _ hb), ← zpow_natCast, ← zpow_natCast, ← zpow_add₀ hb]
  congr 1
  omega

/-- Only one of the two shifts moves anything. -/
theorem two_zpow_eq_div (e : ℤ) : (2 : ℚ) ^ e = 2 ^ e.toNat / 2 ^ (-e).toNat :=
  zpow_eq_div two_ne_zero e

theorem shiftLeft_div_shiftLeft (n den : ℕ) (e : ℤ) :
    ((n <<< e.toNat : ℕ) : ℚ) / (den <<< (-e).toNat : ℕ) = n * 2 ^ e / den := by
  rw [cast_shiftLeft, cast_shiftLeft, two_zpow_eq_div]
  field_simp

/-- The two parts of a rational are one way to write it as a quotient. -/
theorem natAbs_num_div_den {q : ℚ} (h : 0 ≤ q) : (q.num.natAbs : ℚ) / q.den = q := by
  rw [Nat.cast_natAbs, abs_of_nonneg (Rat.num_nonneg.mpr h), Rat.num_div_den]

namespace Binary64

theorem roundAt_mono {a b c d : ℕ} (hb : 0 < b) (hd : 0 < d) (e : ℤ)
    (h : (a : ℚ) / b ≤ c / d) : roundAt a b e ≤ roundAt c d e := by
  have hcross : a * d ≤ c * b := by
    rw [div_le_div_iff₀ (by positivity) (by positivity)] at h
    exact_mod_cast h
  apply roundHalfEven_mono
  · simp only [Nat.shiftLeft_eq]
    positivity
  · simp only [Nat.shiftLeft_eq]
    positivity
  · simp only [Nat.shiftLeft_eq]
    calc a * 2 ^ (-e).toNat * (d * 2 ^ e.toNat)
        = a * d * (2 ^ (-e).toNat * 2 ^ e.toNat) := by ring
      _ ≤ c * b * (2 ^ (-e).toNat * 2 ^ e.toNat) := Nat.mul_le_mul_right _ hcross
      _ = c * 2 ^ (-e).toNat * (b * 2 ^ e.toNat) := by ring

/-- A multiple of the unit is its own rounding. -/
theorem roundAt_multiple {a b : ℕ} (hb : 0 < b) (n : ℕ) {e : ℤ}
    (h : (a : ℚ) / b = n * 2 ^ e) : roundAt a b e = n := by
  have hunits : a <<< (-e).toNat = n * b <<< e.toNat := by
    rw [two_zpow_eq_div, ← mul_div_assoc,
      div_eq_div_iff (by positivity) (by positivity)] at h
    have h' : a * 2 ^ (-e).toNat = n * 2 ^ e.toNat * b := by exact_mod_cast h
    simp only [Nat.shiftLeft_eq]
    rw [h']
    ring
  unfold roundAt
  rw [hunits]
  apply roundHalfEven_mul
  simp only [Nat.shiftLeft_eq]
  positivity

theorem roundAt_le {a b : ℕ} (hb : 0 < b) {n : ℕ} {e : ℤ}
    (h : (a : ℚ) / b ≤ n * 2 ^ e) : roundAt a b e ≤ n := by
  have hn : ((n <<< e.toNat : ℕ) : ℚ) / (1 <<< (-e).toNat : ℕ) = n * 2 ^ e := by
    rw [shiftLeft_div_shiftLeft, Nat.cast_one, div_one]
  have hpos : 0 < 1 <<< (-e).toNat := by simp [Nat.shiftLeft_eq]
  calc roundAt a b e
      ≤ roundAt (n <<< e.toNat) (1 <<< (-e).toNat) e := roundAt_mono hb hpos e (hn ▸ h)
    _ = n := roundAt_multiple hpos n hn

theorem le_roundAt {a b : ℕ} (hb : 0 < b) {n : ℕ} {e : ℤ}
    (h : n * 2 ^ e ≤ (a : ℚ) / b) : n ≤ roundAt a b e := by
  have hn : ((n <<< e.toNat : ℕ) : ℚ) / (1 <<< (-e).toNat : ℕ) = n * 2 ^ e := by
    rw [shiftLeft_div_shiftLeft, Nat.cast_one, div_one]
  have hpos : 0 < 1 <<< (-e).toNat := by simp [Nat.shiftLeft_eq]
  calc n = roundAt (n <<< e.toNat) (1 <<< (-e).toNat) e := (roundAt_multiple hpos n hn).symm
    _ ≤ roundAt a b e := roundAt_mono hpos hb e (hn ▸ h)

/-! ### The grid of a quotient -/

theorem log2_bounds {n : ℕ} (hn : n ≠ 0) :
    (2 : ℚ) ^ (n.log2 : ℤ) ≤ n ∧ (n : ℚ) < 2 ^ ((n.log2 : ℤ) + 1) := by
  constructor
  · exact_mod_cast Nat.log2_self_le hn
  · exact_mod_cast Nat.lt_log2_self

theorem floorLog2_spec {num den : ℕ} (hnum : num ≠ 0) (hden : 0 < den) :
    (2 : ℚ) ^ floorLog2 num den ≤ num / den ∧
      (num : ℚ) / den < 2 ^ (floorLog2 num den + 1) := by
  obtain ⟨hn₁, hn₂⟩ := log2_bounds hnum
  obtain ⟨hd₁, hd₂⟩ := log2_bounds hden.ne'
  have hden' : (0 : ℚ) < den := by exact_mod_cast hden
  have htest (k : ℤ) : den <<< k.toNat ≤ num <<< (-k).toNat ↔ (2 : ℚ) ^ k ≤ num / den := by
    rw [two_zpow_eq_div, div_le_div_iff₀ (by positivity) hden', mul_comm,
      ← cast_shiftLeft, ← cast_shiftLeft]
    exact Nat.cast_le.symm
  unfold floorLog2
  dsimp only
  split
  next h =>
    refine ⟨(htest _).mp h, ?_⟩
    rw [div_lt_iff₀ hden']
    calc (num : ℚ) < 2 ^ ((num.log2 : ℤ) + 1) := hn₂
      _ = 2 ^ ((num.log2 : ℤ) - den.log2 + 1) * 2 ^ (den.log2 : ℤ) := by
        rw [← zpow_add₀ two_ne_zero]
        congr 1
        ring
      _ ≤ 2 ^ ((num.log2 : ℤ) - den.log2 + 1) * den := by gcongr
  next h =>
    rw [htest, not_le] at h
    refine ⟨?_, by simpa using h⟩
    rw [le_div_iff₀ hden']
    calc (2 : ℚ) ^ ((num.log2 : ℤ) - den.log2 - 1) * den
        ≤ 2 ^ ((num.log2 : ℤ) - den.log2 - 1) * 2 ^ ((den.log2 : ℤ) + 1) := by gcongr
      _ = 2 ^ (num.log2 : ℤ) := by
        rw [← zpow_add₀ two_ne_zero]
        congr 1
        ring
      _ ≤ num := hn₁

/-- A power of two above the quotient bounds the exponent of its grid. -/
theorem gridExponent_le {num den : ℕ} (hnum : num ≠ 0) (hden : 0 < den) {k : ℤ}
    (hk : minExponent ≤ k) (h : (num : ℚ) / den < 2 ^ 53 * 2 ^ k) :
    gridExponent num den ≤ k := by
  have hlt : (2 : ℚ) ^ floorLog2 num den < 2 ^ (53 + k) := by
    rw [zpow_add₀ two_ne_zero]
    exact (floorLog2_spec hnum hden).1.trans_lt h
  have := (zpow_lt_zpow_iff_right₀ one_lt_two).mp hlt
  simp only [gridExponent, precision]
  omega

theorem lt_gridExponent {num den : ℕ} (hnum : num ≠ 0) (hden : 0 < den) :
    (num : ℚ) / den < 2 ^ 53 * 2 ^ gridExponent num den := by
  refine (floorLog2_spec hnum hden).2.trans_le ?_
  rw [← zpow_natCast, ← zpow_add₀ two_ne_zero]
  apply zpow_le_zpow_right₀ one_le_two
  simp only [gridExponent, precision]
  omega

theorem minExponent_le_gridExponent (num den : ℕ) : minExponent ≤ gridExponent num den :=
  le_max_left _ _

/-- Above the least exponent the grid is as coarse as `precision` bits allow. -/
theorem le_of_minExponent_lt_gridExponent {num den : ℕ} (hnum : num ≠ 0) (hden : 0 < den)
    (h : minExponent < gridExponent num den) :
    (2 : ℚ) ^ 52 * 2 ^ gridExponent num den ≤ num / den := by
  refine le_trans ?_ (floorLog2_spec hnum hden).1
  rw [← zpow_natCast, ← zpow_add₀ two_ne_zero]
  apply zpow_le_zpow_right₀ one_le_two
  simp only [gridExponent, precision] at h ⊢
  omega

theorem roundAt_gridExponent_le {num den : ℕ} (hnum : num ≠ 0) (hden : 0 < den) :
    roundAt num den (gridExponent num den) ≤ 2 ^ 53 := by
  apply roundAt_le hden
  exact_mod_cast (lt_gridExponent hnum hden).le

/-! ### The magnitude of a rounded quotient -/

/-- The multiple of the grid's unit that `num / den` is rounded to. -/
def magnitude (num den : ℕ) : ℚ :=
  roundAt num den (gridExponent num den) * 2 ^ gridExponent num den

theorem magnitude_nonneg (num den : ℕ) : 0 ≤ magnitude num den := by
  unfold magnitude
  positivity

@[simp] theorem roundAt_zero (den : ℕ) (e : ℤ) : roundAt 0 den e = 0 := by
  simp [roundAt, roundHalfEven]

@[simp] theorem magnitude_zero (den : ℕ) : magnitude 0 den = 0 := by
  simp [magnitude]

theorem magnitude_mono {a b c d : ℕ} (hb : 0 < b) (hd : 0 < d) (h : (a : ℚ) / b ≤ c / d) :
    magnitude a b ≤ magnitude c d := by
  by_cases ha : a = 0
  · rw [ha, magnitude_zero]
    exact magnitude_nonneg c d
  have hc : c ≠ 0 := by
    rintro rfl
    have : (0 : ℚ) < a / b := by positivity
    simp only [Nat.cast_zero, zero_div] at h
    linarith
  have hgrid : gridExponent a b ≤ gridExponent c d :=
    gridExponent_le ha hb (minExponent_le_gridExponent c d) (h.trans_lt (lt_gridExponent hc hd))
  unfold magnitude
  obtain hfiner | hsame := hgrid.lt_or_eq
  · -- A power of two lies between the two quotients, and both grids contain it.
    have hcoarse := le_of_minExponent_lt_gridExponent hc hd
      ((minExponent_le_gridExponent a b).trans_lt hfiner)
    have hupper := roundAt_gridExponent_le ha hb
    have hlower : 2 ^ 52 ≤ roundAt c d (gridExponent c d) := by
      apply le_roundAt hd
      exact_mod_cast hcoarse
    calc (roundAt a b (gridExponent a b) : ℚ) * 2 ^ gridExponent a b
        ≤ (2 ^ 53 : ℕ) * 2 ^ gridExponent a b := by gcongr
      _ = (2 ^ 52 : ℕ) * 2 ^ (gridExponent a b + 1) := by
        rw [zpow_add₀ two_ne_zero]
        push_cast
        ring
      _ ≤ (2 ^ 52 : ℕ) * 2 ^ gridExponent c d := by
        gcongr
        · exact one_le_two
        · omega
      _ ≤ roundAt c d (gridExponent c d) * 2 ^ gridExponent c d := by gcongr
  · rw [← hsame]
    gcongr
    exact roundAt_mono hb hd _ h

/-- A magnitude depends on the quotient only. -/
theorem magnitude_congr {a b c d : ℕ} (hb : 0 < b) (hd : 0 < d) (h : (a : ℚ) / b = c / d) :
    magnitude a b = magnitude c d :=
  (magnitude_mono hb hd h.le).antisymm (magnitude_mono hd hb h.ge)

/-- What has at most `precision` significant bits and no smaller unit than the least one stays as it
is. -/
theorem magnitude_exact {a b : ℕ} (hb : 0 < b) {n : ℕ} {k : ℤ} (hn : n < 2 ^ 53)
    (hk : minExponent ≤ k) (h : (a : ℚ) / b = n * 2 ^ k) : magnitude a b = n * 2 ^ k := by
  by_cases ha : a = 0
  · rw [ha, magnitude_zero, ← h, ha]
    simp
  have hgrid : gridExponent a b ≤ k := by
    apply gridExponent_le ha hb hk
    rw [h]
    gcongr
    exact_mod_cast hn
  obtain ⟨j, hj⟩ := Int.eq_ofNat_of_zero_le (sub_nonneg.mpr hgrid)
  have hunits : (n : ℚ) * 2 ^ k = (n * 2 ^ j : ℕ) * 2 ^ gridExponent a b := by
    rw [show k = j + gridExponent a b by omega, zpow_add₀ two_ne_zero]
    push_cast
    rw [zpow_natCast]
    ring
  unfold magnitude
  rw [roundAt_multiple hb (n * 2 ^ j) (h.trans hunits), hunits]

/-! ### Values -/

/-- The factor of a sign. -/
def unit (negative : Bool) : ℚ :=
  if negative then -1 else 1

@[simp] theorem unit_true : unit true = -1 := rfl

@[simp] theorem unit_false : unit false = 1 := rfl

/-- The number itself. -/
def value (x : Binary64) : ℚ :=
  unit x.negative * (x.mantissa * 2 ^ x.exponent)

theorem value_neg_iff (x : Binary64) : x.value < 0 ↔ x.negative = true ∧ x.mantissa ≠ 0 := by
  have hpow : (0 : ℚ) < 2 ^ x.exponent := by positivity
  unfold value
  cases x.negative
  · simp only [unit_false, one_mul, Bool.false_eq_true, false_and, iff_false, not_lt]
    positivity
  · simp [hpow, Nat.pos_iff_ne_zero]

@[simp] theorem value_zero (negative : Bool) : (zero negative).value = 0 := by
  simp [value, zero]

theorem value_ofRatio (negative : Bool) (num den : ℕ) :
    (ofRatio negative num den).value = unit negative * magnitude num den := by
  unfold ofRatio
  split
  next h => simp [h]
  next =>
    dsimp only
    split
    next h => simp [magnitude, h]
    next =>
      split
      next h =>
        simp only [value, magnitude, h, precision, cast_shiftLeft, zpow_add₀ (two_ne_zero' ℚ),
          zpow_one]
        ring
      next => rfl

/-- What a rational is rounded to. -/
def nearest (q : ℚ) : ℚ :=
  unit (decide (q < 0)) * magnitude q.num.natAbs q.den

theorem nearest_of_nonneg {q : ℚ} (h : 0 ≤ q) : nearest q = magnitude q.num.natAbs q.den := by
  simp [nearest, not_lt.mpr h]

theorem nearest_nonneg {q : ℚ} (h : 0 ≤ q) : 0 ≤ nearest q := by
  rw [nearest_of_nonneg h]
  exact magnitude_nonneg _ _

@[simp] theorem nearest_zero : nearest 0 = 0 := by
  simp [nearest]

@[simp] theorem nearest_neg (q : ℚ) : nearest (-q) = -nearest q := by
  obtain h | rfl | h := lt_trichotomy q 0
  · simp [nearest, h, not_lt.mpr h.le]
  · simp
  · simp [nearest, h, not_lt.mpr h.le]

/-- A quotient is rounded alike however it is written. -/
theorem magnitude_eq_nearest (num : ℕ) {den : ℕ} (hden : 0 < den) :
    magnitude num den = nearest (num / den) := by
  have hq : (0 : ℚ) ≤ num / den := by positivity
  rw [nearest_of_nonneg hq]
  exact magnitude_congr hden (Rat.den_pos _) (natAbs_num_div_den hq).symm

theorem value_ofRatio_eq_nearest (negative : Bool) (num : ℕ) {den : ℕ} (hden : 0 < den) :
    (ofRatio negative num den).value = nearest (unit negative * (num / den)) := by
  rw [value_ofRatio, magnitude_eq_nearest num hden]
  cases negative <;> simp

theorem nearest_mono {q r : ℚ} (h : q ≤ r) : nearest q ≤ nearest r := by
  have nonneg {q r : ℚ} (hq : 0 ≤ q) (h : q ≤ r) : nearest q ≤ nearest r := by
    rw [nearest_of_nonneg hq, nearest_of_nonneg (hq.trans h)]
    apply magnitude_mono (Rat.den_pos q) (Rat.den_pos r)
    rwa [natAbs_num_div_den hq, natAbs_num_div_den (hq.trans h)]
  obtain hq | hq := le_total 0 q
  · exact nonneg hq h
  · obtain hr | hr := le_total 0 r
    · have := nearest_nonneg (neg_nonneg.mpr hq)
      rw [nearest_neg] at this
      linarith [nearest_nonneg hr]
    · simpa using nonneg (neg_nonneg.mpr hr) (neg_le_neg h)

theorem nearest_exact {n : ℕ} {k : ℤ} (hn : n ≤ 2 ^ 53) (hk : minExponent ≤ k) :
    nearest (n * 2 ^ k) = n * 2 ^ k := by
  have hq : (0 : ℚ) ≤ n * 2 ^ k := by positivity
  have hparts := natAbs_num_div_den hq
  rw [nearest_of_nonneg hq]
  obtain hlt | rfl := hn.lt_or_eq
  · exact magnitude_exact (Rat.den_pos _) hlt hk hparts
  · -- A power of two has fewer bits in a larger unit.
    have hdouble : ((2 ^ 53 : ℕ) : ℚ) * 2 ^ k = (2 ^ 52 : ℕ) * 2 ^ (k + 1) := by
      rw [zpow_add_one₀ two_ne_zero]
      push_cast
      ring
    rw [magnitude_exact (Rat.den_pos _) (n := 2 ^ 52) (k := k + 1) (by decide) (by omega)
      (hparts.trans hdouble), hdouble]

theorem nearest_natCast {n : ℕ} (hn : n ≤ 2 ^ 53) : nearest n = n := by
  simpa using nearest_exact hn (show minExponent ≤ 0 by decide)

theorem nearest_two_pow_mul {n : ℕ} (hn : n ≤ 53) {k : ℤ} (hk : minExponent ≤ k) :
    nearest (2 ^ n * 2 ^ k) = 2 ^ n * 2 ^ k := by
  exact_mod_cast nearest_exact (Nat.pow_le_pow_right (by decide) hn) hk

theorem nearest_two_pow {n : ℕ} (hn : n ≤ 53) : nearest (2 ^ n) = 2 ^ n := by
  exact_mod_cast nearest_natCast (Nat.pow_le_pow_right (by decide) hn)

/-- What has been rounded once is left as it is. -/
theorem nearest_nearest (q : ℚ) : nearest (nearest q) = nearest q := by
  have nonneg {q : ℚ} (hq : 0 ≤ q) : nearest (nearest q) = nearest q := by
    obtain rfl | hpos := hq.eq_or_lt
    · simp
    · have hnum : q.num.natAbs ≠ 0 := by simpa using hpos.ne'
      rw [nearest_of_nonneg hq, magnitude]
      exact nearest_exact (roundAt_gridExponent_le hnum (Rat.den_pos q))
        (minExponent_le_gridExponent _ _)
  obtain hq | hq := le_total 0 q
  · exact nonneg hq
  · simpa using nonneg (neg_nonneg.mpr hq)

/-- Integers are rounded to integers. From `2^53` on the unit of their grid is an integer itself. -/
theorem exists_nearest_natCast (n : ℕ) : ∃ m : ℕ, nearest n = m := by
  by_cases hn : n < 2 ^ 53
  · exact ⟨n, nearest_natCast hn.le⟩
  have hgrid : 0 ≤ gridExponent n 1 := by
    by_contra hneg
    have hunit : (2 : ℚ) ^ gridExponent n 1 ≤ 1 :=
      zpow_le_one_of_nonpos₀ one_le_two (by omega)
    have hlt : (n : ℚ) / (1 : ℕ) < 2 ^ 53 * 2 ^ gridExponent n 1 :=
      lt_gridExponent (by omega) one_pos
    have : (n : ℚ) < 2 ^ 53 := by
      rw [Nat.cast_one, div_one] at hlt
      linarith
    exact hn (by exact_mod_cast this)
  obtain ⟨j, hj⟩ := Int.eq_ofNat_of_zero_le hgrid
  refine ⟨roundAt n 1 j * 2 ^ j, ?_⟩
  have := magnitude_eq_nearest n one_pos
  rw [Nat.cast_one, div_one] at this
  rw [← this, magnitude, hj]
  push_cast
  rw [zpow_natCast]

/-! ### Operations -/

theorem unitsAt_mul_zpow {x : Binary64} {e : ℤ} (he : e ≤ x.exponent) :
    (x.unitsAt e : ℚ) * 2 ^ e = x.value := by
  obtain ⟨j, hj⟩ := Int.eq_ofNat_of_zero_le (sub_nonneg.mpr he)
  have hexp : (2 : ℚ) ^ x.exponent = 2 ^ j * 2 ^ e := by
    rw [← zpow_natCast, ← zpow_add₀ two_ne_zero]
    congr 1
    omega
  unfold unitsAt value
  dsimp only
  rw [hj, hexp, Int.toNat_natCast, Nat.shiftLeft_eq]
  cases x.negative
  · simp only [Bool.false_eq_true, if_false, unit_false]
    push_cast
    ring
  · simp only [if_true, unit_true]
    push_cast
    ring

theorem value_ofScaled (negative : Bool) (m : ℕ) (e : ℤ) {den : ℕ} (hden : 0 < den) :
    (ofScaled negative m e den).value = nearest (unit negative * (m * 2 ^ e / den)) := by
  have hpos : 0 < den <<< (-e).toNat := by
    rw [Nat.shiftLeft_eq]
    positivity
  rw [ofScaled, value_ofRatio_eq_nearest _ _ hpos, shiftLeft_div_shiftLeft]

@[simp] theorem value_ofNat (n : ℕ) : (ofNat n).value = nearest n := by
  simp [ofNat, value_ofRatio_eq_nearest]

@[simp] theorem value_neg (x : Binary64) : x.neg.value = -x.value := by
  unfold neg value
  cases x.negative <;> simp

@[simp] theorem value_add (x y : Binary64) : (x.add y).value = nearest (x.value + y.value) := by
  have hsum : x.value + y.value =
      (x.unitsAt (min x.exponent y.exponent) + y.unitsAt (min x.exponent y.exponent) : ℤ) *
        2 ^ min x.exponent y.exponent := by
    rw [← unitsAt_mul_zpow (min_le_left x.exponent y.exponent),
      ← unitsAt_mul_zpow (min_le_right x.exponent y.exponent)]
    push_cast
    ring
  unfold add
  dsimp only
  rw [hsum]
  generalize x.unitsAt _ + y.unitsAt _ = sum
  split
  next h => simp [h]
  next h =>
    rw [value_ofScaled _ _ _ one_pos]
    congr 1
    rw [Nat.cast_natAbs]
    obtain hneg | hpos := lt_or_gt_of_ne h
    · have : (sum : ℚ) < 0 := by exact_mod_cast hneg
      simp [hneg, abs_of_neg]
    · simp [not_lt.mpr hpos.le, abs_of_pos hpos]

@[simp] theorem value_sub (x y : Binary64) : (x.sub y).value = nearest (x.value - y.value) := by
  rw [sub, value_add, value_neg, sub_eq_add_neg]

@[simp] theorem value_mul (x y : Binary64) : (x.mul y).value = nearest (x.value * y.value) := by
  rw [mul, value_ofScaled _ _ _ one_pos]
  congr 1
  unfold value
  rw [zpow_add₀ two_ne_zero]
  cases x.negative <;> cases y.negative <;> simp <;> ring

@[simp] theorem value_mulNat (x : Binary64) (n : ℕ) : (x.mulNat n).value = nearest (x.value * n) := by
  rw [mulNat, value_ofScaled _ _ _ one_pos, value]
  congr 1
  push_cast
  ring

theorem value_divNat (x : Binary64) {n : ℕ} (hn : 0 < n) :
    (x.divNat n).value = nearest (x.value / n) := by
  rw [divNat, value_ofScaled _ _ _ hn, value]
  congr 1
  ring

/-! ### Signs -/

@[simp] theorem negative_ofRatio (negative : Bool) (num den : ℕ) :
    (ofRatio negative num den).negative = negative := by
  unfold ofRatio
  dsimp only
  split_ifs <;> rfl

@[simp] theorem negative_mulNat (x : Binary64) (n : ℕ) : (x.mulNat n).negative = x.negative :=
  negative_ofRatio _ _ _

@[simp] theorem negative_divNat (x : Binary64) (n : ℕ) : (x.divNat n).negative = x.negative :=
  negative_ofRatio _ _ _

@[simp] theorem negative_roundToInteger (x : Binary64) : x.roundToInteger.negative = x.negative :=
  negative_ofRatio _ _ _

theorem value_of_negative_eq_false {x : Binary64} (h : x.negative = false) :
    x.value = x.mantissa * 2 ^ x.exponent := by
  simp [value, h]

theorem IsFinite.nearest_value {x : Binary64} (hx : x.IsFinite) (h : x.negative = false) :
    nearest x.value = x.value := by
  have hmantissa : x.mantissa ≤ 2 ^ 53 := by
    simpa [precision, Nat.shiftLeft_eq] using hx.mantissa_lt.le
  rw [value_of_negative_eq_false h]
  exact nearest_exact hmantissa hx.minExponent_le

end Binary64

end AccessLine.Number
