import AccessLine.Timestamp
import AccessLine.Proofs.Number.Rounding

/-!
# Elapsed times and the order of readings

The time from one reading to a later one is negative in one case only. The seconds are rounded before
they are subtracted, so beyond `2^53` two readings can lose the second that lies between them, and
then nothing is left to absorb a negative difference of their nanoseconds.
-/
namespace AccessLine

open Number Binary64

namespace Timestamp

/-- Nanoseconds are small enough to be subtracted exactly. -/
theorem nearest_sub_nanos {m n : ℕ} (hm : m < 10 ^ 9) (hn : n < 10 ^ 9) :
    nearest ((m : ℚ) - n) = m - n := by
  obtain h | h := le_total n m
  · rw [← Nat.cast_sub h]
    exact nearest_natCast (by omega)
  · rw [← neg_sub, ← Nat.cast_sub h, nearest_neg, nearest_natCast (by omega)]

theorem value_millionth : millionth.value = 4722366482869645 / 2 ^ 72 := by
  have h : millionth = ⟨false, 4722366482869645, -72⟩ := by decide +kernel
  rw [h, value]
  norm_num

theorem value_millionth_pos : 0 < millionth.value := by
  rw [value_millionth]
  norm_num

/-- A thousandth of a thousandth is no binary number. The nearest one falls short of it. -/
theorem value_millionth_le : millionth.value ≤ 1 / 10 ^ 6 := by
  rw [value_millionth]
  norm_num

theorem nearest_value_millionth : nearest millionth.value = millionth.value := by
  rw [millionth, value_ofRatio_eq_nearest _ _ (by decide), nearest_nearest]

@[simp] theorem nearest_thousand : nearest 1000 = 1000 :=
  nearest_natCast (n := 1000) (by decide)

/-- The elapsed time as the roundings of the operations on rationals. -/
theorem value_millisSince {start finish : Timestamp} (hs : start.nanos < 10 ^ 9)
    (hf : finish.nanos < 10 ^ 9) :
    (finish.millisSince start).value =
      nearest (nearest (nearest (nearest finish.secs - nearest start.secs) * 1000) +
        nearest (((finish.nanos : ℚ) - start.nanos) * millionth.value)) := by
  simp only [millisSince, value_add, value_mul, value_sub, value_ofNat,
    nearest_natCast (show start.nanos ≤ 2 ^ 53 by omega),
    nearest_natCast (show finish.nanos ≤ 2 ^ 53 by omega), nearest_sub_nanos hf hs]
  norm_num

/-- Rounded seconds that differ are a whole second apart, which outweighs any nanoseconds. -/
theorem millisSince_nonneg_of_secs_lt {start finish : Timestamp} (hs : start.nanos < 10 ^ 9)
    (hf : finish.nanos < 10 ^ 9) (h : nearest start.secs < nearest finish.secs) :
    0 ≤ (finish.millisSince start).value := by
  have hone : nearest 1 = 1 := by simpa using nearest_natCast (n := 1) (by decide)
  have hsecond : 1 ≤ nearest finish.secs - nearest start.secs := by
    obtain ⟨a, ha⟩ := exists_nearest_natCast start.secs
    obtain ⟨b, hb⟩ := exists_nearest_natCast finish.secs
    rw [ha, hb] at h ⊢
    have : (a : ℚ) + 1 ≤ b := by exact_mod_cast h
    linarith
  have hrounded : 1 ≤ nearest (nearest finish.secs - nearest start.secs) :=
    hone ▸ nearest_mono hsecond
  have hseconds : 1000 ≤ nearest (nearest (nearest finish.secs - nearest start.secs) * 1000) := by
    calc 1000 = nearest 1000 := nearest_thousand.symm
      _ ≤ _ := nearest_mono (by linarith)
  have hnanos : -1000 ≤ nearest (((finish.nanos : ℚ) - start.nanos) * millionth.value) := by
    have hdiff : -(10 ^ 9 : ℚ) ≤ finish.nanos - start.nanos := by
      have hless : (start.nanos : ℚ) < 10 ^ 9 := by exact_mod_cast hs
      have hnonneg : (0 : ℚ) ≤ finish.nanos := Nat.cast_nonneg _
      linarith
    calc (-1000 : ℚ) = nearest (-1000) := by rw [nearest_neg, nearest_thousand]
      _ ≤ _ := nearest_mono (by nlinarith [value_millionth_pos, value_millionth_le])
  rw [value_millisSince hs hf]
  apply nearest_nonneg
  linarith

/-- Where the rounded seconds are the same, the nanoseconds alone are left. -/
theorem millisSince_neg_iff_of_secs_eq {start finish : Timestamp} (hs : start.nanos < 10 ^ 9)
    (hf : finish.nanos < 10 ^ 9) (h : nearest start.secs = nearest finish.secs) :
    (finish.millisSince start).value < 0 ↔ finish.nanos < start.nanos := by
  rw [value_millisSince hs hf, h, sub_self, nearest_zero, zero_mul, nearest_zero, zero_add]
  constructor
  · intro hneg
    by_contra hle
    have : (start.nanos : ℚ) ≤ finish.nanos := by exact_mod_cast not_lt.mp hle
    have hnonneg : 0 ≤ ((finish.nanos : ℚ) - start.nanos) * millionth.value :=
      mul_nonneg (by linarith) value_millionth_pos.le
    exact absurd hneg (not_lt.mpr (nearest_nonneg (nearest_nonneg hnonneg)))
  · intro hlt
    have hle : ((finish.nanos : ℚ) - start.nanos) * millionth.value ≤ -millionth.value := by
      have : (finish.nanos : ℚ) + 1 ≤ start.nanos := by exact_mod_cast hlt
      nlinarith [value_millionth_pos]
    rw [nearest_nearest]
    calc nearest (((finish.nanos : ℚ) - start.nanos) * millionth.value)
        ≤ nearest (-millionth.value) := nearest_mono hle
      _ = -millionth.value := by rw [nearest_neg, nearest_value_millionth]
      _ < 0 := neg_neg_of_pos value_millionth_pos

/-- A later reading is at a negative distance if and only if its nanoseconds are fewer and the seconds
of both are rounded to one number, so never up to `2^53` seconds. -/
theorem millisSince_neg_iff {start finish : Timestamp} (horder : start ≤ finish)
    (hs : start.nanos < 10 ^ 9) (hf : finish.nanos < 10 ^ 9) :
    ((finish.millisSince start).value < 0 ↔
      (Binary64.ofNat start.secs).value = (Binary64.ofNat finish.secs).value ∧
        finish.nanos < start.nanos) ∧
      (finish.secs ≤ 2 ^ 53 → 0 ≤ (finish.millisSince start).value) := by
  have hsecs : start.secs ≤ finish.secs := by
    obtain h | h := horder
    · exact h.le
    · exact h.1.le
  have hmono : nearest start.secs ≤ nearest finish.secs := nearest_mono (by exact_mod_cast hsecs)
  have hneg : (finish.millisSince start).value < 0 ↔
      nearest start.secs = nearest finish.secs ∧ finish.nanos < start.nanos := by
    obtain hlt | heq := hmono.lt_or_eq
    · have := millisSince_nonneg_of_secs_lt hs hf hlt
      simp [not_lt.mpr this, hlt.ne]
    · simp [millisSince_neg_iff_of_secs_eq hs hf heq, heq]
  refine ⟨by simpa only [value_ofNat] using hneg, fun hbound => ?_⟩
  -- Here the seconds are exact, and equal ones leave the order to the nanoseconds.
  by_contra hnonneg
  obtain ⟨heq, hnanos⟩ := hneg.mp (not_le.mp hnonneg)
  rw [nearest_natCast (hsecs.trans hbound), nearest_natCast hbound] at heq
  have : start.secs = finish.secs := by exact_mod_cast heq
  obtain h | h := horder <;> omega

/-- A thousand seconds are lost near `2^63`. -/
theorem millisSince_neg_iff_thousand :
    (⟨2 ^ 63, 999999999⟩ : Timestamp) ≤ ⟨2 ^ 63 + 1000, 0⟩ ∧ 999999999 < 10 ^ 9 ∧ 0 < 10 ^ 9 ∧
      (millisSince ⟨2 ^ 63 + 1000, 0⟩ ⟨2 ^ 63, 999999999⟩).value < 0 := by
  have hsecs : Binary64.ofNat (2 ^ 63) = .ofNat (2 ^ 63 + 1000) := by decide +kernel
  refine ⟨by decide, by decide, by decide, ?_⟩
  exact (millisSince_neg_iff (by decide) (by decide) (by decide)).1.mpr
    ⟨congrArg value hsecs, by decide⟩

/-- Half a second at the first pair of seconds that are rounded to one number: the readings are in
order, and the time between them is negative. -/
theorem millisSince_against_order :
    (⟨2 ^ 53, 500000000⟩ : Timestamp) ≤ ⟨2 ^ 53 + 1, 0⟩ ∧ 2 ^ 53 + 1 < 2 ^ 64 ∧
      500000000 < 10 ^ 9 ∧ ¬0 ≤ (millisSince ⟨2 ^ 53 + 1, 0⟩ ⟨2 ^ 53, 500000000⟩).value := by
  refine ⟨by decide, by decide, by decide, not_le.mpr ?_⟩
  rw [value_neg_iff]
  decide +kernel

end Timestamp

end AccessLine
