import AccessLine.Proofs.Number.Spacing

/-!
# Scaling there and back

A number is multiplied, rounded to an integer and divided again, each step rounded. Below `2^52` the
division loses nothing of the integer, so that only the rounding of the product can change it. From
there on the product is an integer already, and all hangs on whether the division undoes the
multiplication.
-/
namespace AccessLine.Number.Binary64

/-- What a moderate factor takes to one or beyond is no subnormal number. -/
theorem normal_of_one_le_mul {q : ℚ} {s : ℕ} (hq : 0 ≤ q) (hs : s ≤ 2 ^ 50) (h : 1 ≤ q * s) :
    2 ^ 52 * 2 ^ minExponent ≤ q := by
  have hs : (s : ℚ) ≤ 2 ^ 50 := by exact_mod_cast hs
  have hpow : (2 : ℚ) ^ 52 * 2 ^ minExponent = 2 ^ (-1022 : ℤ) := by
    rw [← zpow_natCast, ← zpow_add₀ two_ne_zero]
    rfl
  have hleast : (2 : ℚ) ^ (-1022 : ℤ) ≤ 2 ^ (-50 : ℤ) := zpow_le_zpow_right₀ one_le_two (by decide)
  have hquotient : (2 : ℚ) ^ (-50 : ℤ) ≤ q := by
    rw [zpow_neg, inv_le_iff_one_le_mul₀ (by positivity)]
    calc 1 ≤ q * s := h
      _ ≤ q * 2 ^ (50 : ℤ) := by
        gcongr
        exact_mod_cast hs
  exact (hpow.trans_le hleast).trans hquotient

/-! ### Products below `2^52` -/

/-- An integer up to `2^52` is found again in its quotient. -/
theorem abs_nearest_div_mul_sub_lt {r s : ℕ} (hr : r ≤ 2 ^ 52) (hs : 0 < s) (hs' : s ≤ 2 ^ 50) :
    |nearest (r / s) * s - r| < 1 / 2 := by
  have hspos : (0 : ℚ) < s := by exact_mod_cast hs
  obtain rfl | hpos := r.eq_zero_or_pos
  · simp
  have hr' : (r : ℚ) ≤ 2 ^ 52 := by exact_mod_cast hr
  have hnormal : 2 ^ 52 * 2 ^ minExponent ≤ (r : ℚ) / s := by
    apply normal_of_one_le_mul (by positivity) hs'
    rw [div_mul_cancel₀ _ hspos.ne']
    exact_mod_cast hpos
  calc |nearest (r / s) * s - r| = |nearest (r / s) - r / s| * s := abs_mul_sub hspos _ _
    _ < r / s / 2 ^ 53 * s := by
        gcongr
        exact abs_nearest_sub_lt hnormal
    _ = r / 2 ^ 53 := by field_simp
    _ ≤ 1 / 2 := by linarith

/-- Halves below `2^52` are numbers of the format. -/
theorem nearest_half {n : ℕ} (hn : n < 2 ^ 52) : nearest (n + 1 / 2) = n + 1 / 2 := by
  have h := nearest_exact (show 2 * n + 1 ≤ 2 ^ 53 by omega) (show minExponent ≤ -1 by decide)
  have hhalf : ((2 * n + 1 : ℕ) : ℚ) * 2 ^ (-1 : ℤ) = n + 1 / 2 := by
    rw [zpow_neg_one]
    push_cast
    ring
  rwa [hhalf] at h

/-- A half that is not above a number is not above its rounding either. -/
theorem sub_half_le_nearest {q : ℚ} {n : ℕ} (hq : 0 ≤ q) (hn : n ≤ 2 ^ 52) (h : n - 1 / 2 ≤ q) :
    n - 1 / 2 ≤ nearest q := by
  cases n with
  | zero =>
      have := nearest_nonneg hq
      push_cast
      linarith
  | succ m =>
      push_cast at h ⊢
      have hle : (m : ℚ) + 1 / 2 ≤ nearest q :=
        nearest_half (show m < 2 ^ 52 by omega) ▸ nearest_mono (by linarith)
      linarith

theorem nearest_le_two_pow {q : ℚ} (h : q ≤ 2 ^ 52) : nearest q ≤ 2 ^ 52 := by
  rw [← nearest_two_pow (n := 52) (by decide)]
  exact nearest_mono h

/-- A number below `2^52` and its rounding give the same integer, unless the rounding has reached a
half from below. -/
theorem roundsUp_nearest_iff {q : ℚ} {n r : ℕ} (hq : 0 ≤ q) (hq' : q < 2 ^ 52)
    (hn : RoundsUp q n) (hr : RoundsUp (nearest q) r) :
    r = n ↔ ¬∃ k : ℕ, q < k + 1 / 2 ∧ nearest q = k + 1 / 2 := by
  have hbound : n ≤ 2 ^ 52 := by
    have : (n : ℚ) < 2 ^ 52 + 1 := by linarith [hn.1]
    have : n < 2 ^ 52 + 1 := by exact_mod_cast this
    omega
  constructor
  · rintro rfl ⟨k, hlt, heq⟩
    have hnext : RoundsUp (nearest q) (k + 1) := by
      rw [heq]
      constructor <;> push_cast <;> linarith
    obtain rfl := hr.unique hnext
    have := hn.1
    push_cast at this
    linarith
  · intro hno
    refine hr.unique ⟨sub_half_le_nearest hq hbound hn.1, ?_⟩
    obtain hlt | rfl := hbound.lt_or_eq
    · refine lt_of_le_of_ne ?_ fun heq => hno ⟨n, hn.2, heq⟩
      exact nearest_half hlt ▸ nearest_mono hn.2.le
    · have := nearest_le_two_pow hq'.le
      push_cast
      linarith

/-- Below `2^52` the integer that is divided and written again is the one of the rounded product. -/
theorem roundsUp_quotient_iff {v : ℚ} {s r m : ℕ} (hpos : 0 ≤ v) (hs : 0 < s) (hs' : s ≤ 2 ^ 50)
    (h : v * s < 2 ^ 52) (hr : RoundsUp (nearest (v * s)) r)
    (hm : RoundsEven (nearest (nearest r / s) * s) m) :
    RoundsUp (v * s) m ↔ ¬∃ k : ℕ, v * s < k + 1 / 2 ∧ nearest (v * s) = k + 1 / 2 := by
  have hbound : r ≤ 2 ^ 52 := by
    have hle := nearest_le_two_pow h.le
    have : (r : ℚ) < 2 ^ 52 + 1 := by linarith [hr.1]
    have : r < 2 ^ 52 + 1 := by exact_mod_cast this
    omega
  have hkept : |nearest (nearest r / s) * s - r| < 1 / 2 := by
    rw [nearest_natCast (hbound.trans (by decide))]
    exact abs_nearest_div_mul_sub_lt hbound hs hs'
  obtain rfl := hm.eq_of_abs_sub_lt hkept
  obtain ⟨n, hn⟩ := exists_roundsUp (mul_nonneg hpos s.cast_nonneg)
  rw [← roundsUp_nearest_iff (by positivity) h hn hr]
  exact ⟨fun hm => hm.unique hn, fun heq => heq ▸ hn⟩

/-! ### Products from `2^52` on -/

/-- A number multiplied and divided again. -/
def returned (v : ℚ) (s : ℕ) : ℚ :=
  nearest (nearest (v * s) / s)

section
variable {v : ℚ} {s : ℕ}

/-- The rounded product stays between the products with powers of two. -/
theorem nearest_mul_bounds (hs : s ≤ 2 ^ 50) {k : ℤ} (hk : minExponent ≤ k)
    (hlower : 2 ^ 52 * 2 ^ k ≤ v) (hupper : v ≤ 2 ^ 53 * 2 ^ k) :
    2 ^ 52 * 2 ^ k * s ≤ nearest (v * s) ∧ nearest (v * s) ≤ 2 ^ 53 * 2 ^ k * s := by
  have hexact (n : ℕ) : nearest (2 ^ n * 2 ^ k * s) = 2 ^ n * 2 ^ k * s := by
    rw [← zpow_natCast, ← zpow_add₀ two_ne_zero, mul_comm]
    exact nearest_exact (hs.trans (by decide)) (by omega)
  rw [← hexact 52, ← hexact 53]
  constructor
  · exact nearest_mono (by gcongr)
  · exact nearest_mono (by gcongr)

/-- A number and what it returns to share a unit, which no error of the division exceeds by half. -/
theorem exists_common_unit (hv : nearest v = v) (hpos : 0 ≤ v) (hs : 0 < s) (hs' : s ≤ 2 ^ 50)
    (h : 1 ≤ v * s) :
    ∃ k : ℤ, v < 2 ^ 53 * 2 ^ k ∧ (∃ i : ℕ, v = i * 2 ^ k) ∧ (∃ j : ℕ, returned v s = j * 2 ^ k) ∧
      |returned v s - nearest (v * s) / s| ≤ 2 ^ k / 2 := by
  have hspos : (0 : ℚ) < s := by exact_mod_cast hs
  obtain ⟨k, hk, hlower, hupper, i, hi⟩ :=
    exists_unit_of_normal (normal_of_one_le_mul hpos hs' h)
  obtain ⟨hlower', hupper'⟩ := nearest_mul_bounds hs' hk hlower hupper.le
  rw [← le_div_iff₀ hspos] at hlower'
  rw [← div_le_iff₀ hspos] at hupper'
  have hreturned : 2 ^ 52 * 2 ^ k ≤ returned v s := by
    rw [← nearest_two_pow_mul (n := 52) (by decide) hk]
    exact nearest_mono hlower'
  refine ⟨k, hupper, ⟨i, hv ▸ hi⟩, exists_multiple (nearest_nearest _) hreturned, ?_⟩
  exact abs_nearest_sub_le (le_trans (by positivity) hlower') hk hupper'

/-- Two multiples of a unit that are less than a unit apart are the same. -/
theorem natCast_mul_eq_of_abs_lt {u : ℚ} (hu : 0 < u) {i j : ℕ} (h : |i * u - j * u| < u) :
    (i : ℚ) * u = j * u := by
  rw [← sub_mul, abs_mul, abs_of_pos hu, mul_lt_iff_lt_one_left hu, abs_lt] at h
  have hij : i = j := eq_of_cast_lt_add_one (by linarith [h.2]) (by linarith [h.1])
  rw [hij]

/-- A number whose unit spans a whole integer of the product comes back from a product that is
rounded by a half at most. -/
theorem returned_eq_of_one_le_unit (hv : nearest v = v) (hs : 0 < s) {k : ℤ} (hk : 1 ≤ 2 ^ k * (s : ℚ))
    {i j : ℕ} (hi : v = i * 2 ^ k) (hbound : v * s < 2 ^ 53) (hj : returned v s = j * 2 ^ k)
    (herror : |returned v s - nearest (v * s) / s| ≤ 2 ^ k / 2)
    (hround : |v * s - nearest (v * s)| ≤ 1 / 2) : returned v s = v := by
  have hspos : (0 : ℚ) < s := by exact_mod_cast hs
  obtain heq | hlt := hk.eq_or_lt
  · -- Here the product is an integer, and nothing is rounded.
    have hproduct : v * s = i := by rw [hi, mul_assoc, ← heq, mul_one]
    have hexact : nearest (v * s) = v * s := by
      rw [hproduct] at hbound ⊢
      exact nearest_natCast (le_of_lt (by exact_mod_cast hbound))
    rw [returned, hexact, mul_div_cancel_right₀ _ hspos.ne', hv]
  · have hquotient : |nearest (v * s) / s - v| < 2 ^ k / 2 := by
      calc |nearest (v * s) / s - v| = |v * s - nearest (v * s)| / s := by
            rw [abs_div_sub hspos, abs_sub_comm]
        _ ≤ 1 / 2 / s := by gcongr
        _ < 2 ^ k / 2 := by
          rw [div_lt_iff₀ hspos]
          linarith
    rw [hj, hi]
    apply natCast_mul_eq_of_abs_lt (by positivity)
    rw [← hj, ← hi]
    have := abs_sub_le (returned v s) (nearest (v * s) / s) v
    linarith

/-- Between `2^52` and `2^53` the product is rounded to an integer, which stays: either a number is
so fine that the division keeps the integer, or so coarse that it gives the number back. -/
theorem roundsEven_of_returned (hv : nearest v = v) (hpos : 0 ≤ v) (hs : 0 < s) (hs' : s ≤ 2 ^ 50)
    (h : 2 ^ 52 ≤ v * s) (h' : v * s < 2 ^ 53) {n : ℕ} (hn : RoundsEven (returned v s * s) n) :
    RoundsEven (v * s) n := by
  have hspos : (0 : ℚ) < s := by exact_mod_cast hs
  obtain ⟨k, -, ⟨i, hi⟩, ⟨j, hj⟩, herror⟩ := exists_common_unit hv hpos hs hs' (by linarith)
  obtain ⟨p, hp, hround⟩ := exists_nearest_roundsEven h h'
  obtain hfine | hcoarse := lt_or_ge (2 ^ k * (s : ℚ)) 1
  · have hkept : |returned v s * s - p| < 1 / 2 := by
      calc |returned v s * s - p| = |returned v s - p / s| * s := abs_mul_sub hspos _ _
        _ ≤ 2 ^ k / 2 * s := by
          gcongr
          exact hp ▸ herror
        _ < 1 / 2 := by linarith
    rwa [hn.eq_of_abs_sub_lt hkept]
  · rwa [returned_eq_of_one_le_unit hv hs hcoarse hi h' hj herror (hp ▸ hround.near)] at hn

/-- From `2^53` on a number that does not come back is too far away for the same integer. -/
theorem not_roundsUp_of_returned_ne (hv : nearest v = v) (hpos : 0 ≤ v) (hs : 0 < s)
    (hs' : s ≤ 2 ^ 50) (h : 2 ^ 53 ≤ v * s) (hne : returned v s ≠ v) {n : ℕ}
    (hn : RoundsEven (returned v s * s) n) : ¬RoundsUp (v * s) n := by
  rintro ⟨hlower, hupper⟩
  have hspos : (0 : ℚ) < s := by exact_mod_cast hs
  obtain ⟨k, hbound, ⟨i, hi⟩, ⟨j, hj⟩, -⟩ := exists_common_unit hv hpos hs hs' (by linarith)
  have hapart : 2 ^ k ≤ |returned v s - v| := by
    by_contra hlt
    rw [hj, hi, not_le] at hlt
    exact hne (by rw [hj, hi]; exact natCast_mul_eq_of_abs_lt (by positivity) hlt)
  have hcoarse : 1 < 2 ^ k * (s : ℚ) := by
    have : v * s < 2 ^ 53 * 2 ^ k * s := by gcongr
    linarith
  have hfar : 1 < |returned v s * s - v * s| := by
    calc 1 < 2 ^ k * (s : ℚ) := hcoarse
      _ ≤ |returned v s - v| * s := by gcongr
      _ = |returned v s * s - v * s| := by
        rw [abs_mul_sub hspos, mul_div_cancel_right₀ _ hspos.ne']
  have hnear : |v * s - n| ≤ 1 / 2 := by
    rw [abs_le]
    constructor <;> linarith
  have := abs_sub_le (returned v s * s) n (v * s)
  have := hn.near
  rw [abs_sub_comm (v * s)] at hnear
  linarith

/-- From `2^52` on the integer that is divided and written again is the rounded product itself. -/
theorem roundsUp_returned_iff (hv : nearest v = v) (hpos : 0 ≤ v) (hs : 0 < s) (hs' : s ≤ 2 ^ 50)
    (h : 2 ^ 52 ≤ v * s) {r m : ℕ} (hr : RoundsUp (nearest (v * s)) r)
    (hm : RoundsEven (nearest (nearest r / s) * s) m) :
    RoundsUp (v * s) m ↔
      (¬∃ k : ℕ, v * s = (2 * k : ℕ) + 1 / 2) ∧ (2 ^ 53 ≤ v * s → returned v s = v) := by
  obtain ⟨p, hp⟩ := exists_nearest_eq_natCast h
  rw [hp] at hr
  obtain rfl := hr.unique (roundsUp_natCast p)
  rw [← hp, nearest_nearest] at hm
  change RoundsEven (returned v s * s) m at hm
  obtain hlt | hge := lt_or_ge (v * s) (2 ^ 53)
  · rw [(roundsEven_of_returned hv hpos hs hs' h hlt hm).roundsUp_iff]
    exact (and_iff_left fun hge => absurd hlt (not_lt.mpr hge)).symm
  · by_cases hback : returned v s = v
    · rw [hback] at hm
      rw [hm.roundsUp_iff]
      exact (and_iff_left fun _ => hback).symm
    · have := not_roundsUp_of_returned_ne hv hpos hs hs' hge hback hm
      exact iff_of_false this fun hall => hback (hall.2 hge)

end

end AccessLine.Number.Binary64
