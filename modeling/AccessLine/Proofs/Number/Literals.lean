import AccessLine.Proofs.Number.Numerals
import AccessLine.Proofs.Number.Spacing
import AccessLine.Proofs.Text.Split
import Mathlib.Data.List.Basic

/-!
# Decimal literals

Which texts write a number and what its exact value is, whether or not the format has room for it.
Each is read as that value, and the value is rounded once. What would be rounded beyond the largest
number is refused, however it is written.
-/
namespace AccessLine.Number

/-! ### The grammar -/

/-- A sign that may be left out, and whether it makes the number negative. -/
inductive IsSign : List Char → Bool → Prop
  | absent : IsSign [] false
  | plus : IsSign ['+'] false
  | minus : IsSign ['-'] true

/-- Digits with a point that may be left out: those before it and those after it. -/
inductive IsMantissa : List Char → List Char → List Char → Prop
  | integer {whole : List Char} (digits : ∀ c ∈ whole, c.isDigit = true) (nonempty : whole ≠ []) :
      IsMantissa whole whole []
  | pointed {whole fraction : List Char} (before : ∀ c ∈ whole, c.isDigit = true)
      (after : ∀ c ∈ fraction, c.isDigit = true) (nonempty : whole ++ fraction ≠ []) :
      IsMantissa (whole ++ '.' :: fraction) whole fraction

/-- An exponent that may be left out. -/
inductive IsExponent : List Char → ℤ → Prop
  | absent : IsExponent [] 0
  | written {c : Char} {sign ds : List Char} {negative : Bool} (mark : c = 'e' ∨ c = 'E')
      (signed : IsSign sign negative) (digits : ∀ d ∈ ds, d.isDigit = true) (nonempty : ds ≠ []) :
      IsExponent (c :: (sign ++ ds))
        (if negative then -(Nat.ofDigitChars 10 ds 0 : ℤ) else Nat.ofDigitChars 10 ds 0)

/-- The text is a decimal literal with the exact value. -/
inductive IsLiteral : List Char → ℚ → Prop
  | intro {sign mantissa whole fraction exponent : List Char} {negative : Bool} {e : ℤ}
      (signed : IsSign sign negative) (pointed : IsMantissa mantissa whole fraction)
      (scaled : IsExponent exponent e) :
      IsLiteral (sign ++ (mantissa ++ exponent))
        (Binary64.unit negative * ((Nat.ofDigitChars 10 whole 0 +
          Nat.ofDigitChars 10 fraction 0 / 10 ^ fraction.length) * 10 ^ e))

theorem IsLiteral.integer (ds : List Char) (digits : ds.all Char.isDigit = true)
    (nonempty : ds ≠ []) : IsLiteral ds (Nat.ofDigitChars 10 ds 0) := by
  simpa using IsLiteral.intro .absent (.integer (List.all_eq_true.mp digits) nonempty) .absent

/-- Digits with an exponent. -/
theorem IsLiteral.scaled (ds es : List Char) (digits : ds.all Char.isDigit = true)
    (nonempty : ds ≠ []) (digits' : es.all Char.isDigit = true) (nonempty' : es ≠ []) :
    IsLiteral (ds ++ 'e' :: es) (Nat.ofDigitChars 10 ds 0 * 10 ^ Nat.ofDigitChars 10 es 0) := by
  simpa using IsLiteral.intro .absent (.integer (List.all_eq_true.mp digits) nonempty)
    (.written (.inl rfl) .absent (List.all_eq_true.mp digits') nonempty')

/-! ### Reading -/

theorem digit?_eq_some {c : Char} (h : c.isDigit = true) :
    digit? c = some (c.toNat - '0'.toNat) := by
  have h : '0' ≤ c ∧ c ≤ '9' := by
    simpa [Char.isDigit, Char.le_def] using h
  exact if_pos h

theorem isDigit_eq (c : Char) : isDigit c = c.isDigit := by
  have h : ('0' ≤ c ∧ c ≤ '9') ↔ c.isDigit = true := by
    simp [Char.isDigit, Char.le_def]
  rw [Bool.eq_iff_iff, ← h]
  unfold isDigit digit?
  split <;> simp_all

theorem isDigit_of_digits {cs : List Char} (h : ∀ c ∈ cs, c.isDigit = true) :
    ∀ c ∈ cs, isDigit c = true :=
  fun c hc => (isDigit_eq c).trans (h c hc)

theorem ofDigits_eq {cs : List Char} (h : ∀ c ∈ cs, c.isDigit = true) :
    ofDigits cs = Nat.ofDigitChars 10 cs 0 := by
  refine List.foldl_ext _ _ 0 fun n c hc => ?_
  rw [digit?_eq_some (h c hc), Option.getD_some]

theorem IsExponent.head? {cs : List Char} {e : ℤ} (h : IsExponent cs e) {c : Char}
    (hc : cs.head? = some c) : c = 'e' ∨ c = 'E' := by
  cases h with
  | absent => cases hc
  | written mark => exact Option.some.inj hc ▸ mark

theorem IsExponent.isDigit_head? {cs : List Char} {e : ℤ} (h : IsExponent cs e) (c : Char)
    (hc : cs.head? = some c) : isDigit c = false := by
  obtain rfl | rfl := h.head? hc <;> decide

theorem IsMantissa.head? {cs whole fraction : List Char} (h : IsMantissa cs whole fraction)
    (rest : List Char) : ∃ c, (cs ++ rest).head? = some c ∧ (c.isDigit = true ∨ c = '.') := by
  cases h with
  | integer digits nonempty =>
      obtain ⟨c, cs, rfl⟩ := List.exists_cons_of_ne_nil nonempty
      exact ⟨c, rfl, .inl (digits c (by simp))⟩
  | pointed before after nonempty =>
      cases whole with
      | nil => exact ⟨'.', rfl, .inr rfl⟩
      | cons c cs => exact ⟨c, rfl, .inl (before c (by simp))⟩

theorem toLower_of_opens {c : Char} (h : c.isDigit = true ∨ c = '.') : c.toLower = c := by
  obtain h | rfl := h
  · have hupper : ¬(c.val ≥ 'A'.val ∧ c.val ≤ 'Z'.val) := by
      simp only [Char.isDigit, Bool.and_eq_true, decide_eq_true_eq] at h
      rintro ⟨hA, -⟩
      exact absurd (UInt32.le_trans hA h.2) (by decide)
    exact dif_neg hupper
  · decide

namespace Numeral

theorem splitSign_append {sign rest : List Char} {negative : Bool} (h : IsSign sign negative)
    (hrest : ∀ c, rest.head? = some c → c.isDigit = true ∨ c = '.') :
    splitSign (sign ++ rest) = (negative, rest) := by
  cases h with
  | absent =>
      cases rest with
      | nil => rfl
      | cons c rest =>
          have hminus : c ≠ '-' := by
            rintro rfl
            exact absurd (hrest _ rfl) (by decide)
          have hplus : c ≠ '+' := by
            rintro rfl
            exact absurd (hrest _ rfl) (by decide)
          simp [splitSign, hminus, hplus]
  | plus => rfl
  | minus => rfl

theorem exponent?_of_isExponent {cs : List Char} {e : ℤ} (h : IsExponent cs e) :
    exponent? cs = some e := by
  cases h with
  | absent => rfl
  | @written c sign ds negative mark signed digits nonempty =>
      have hsign : splitSign (sign ++ ds) = (negative, ds) :=
        splitSign_append signed fun d hd => .inl (digits d (List.mem_of_head? hd))
      have hdigits : ds.all isDigit = true := List.all_eq_true.mpr (isDigit_of_digits digits)
      simp [exponent?, mark, hsign, nonempty, hdigits, ofDigits_eq digits]

theorem decimal?_of_isMantissa {mantissa whole fraction exponent : List Char} {e : ℤ}
    (pointed : IsMantissa mantissa whole fraction) (scaled : IsExponent exponent e)
    (negative : Bool) :
    decimal? negative (mantissa ++ exponent) =
      some ⟨negative, Nat.ofDigitChars 10 (whole ++ fraction) 0, e - fraction.length⟩ := by
  have hexponent := exponent?_of_isExponent scaled
  cases pointed with
  | integer digits nonempty =>
      have hpoint : ∀ more, exponent ≠ '.' :: more := by
        rintro more rfl
        exact absurd (scaled.head? rfl) (by decide)
      have htake := Text.takeWhile_append_of_head? (isDigit_of_digits digits) scaled.isDigit_head?
      have hdrop := Text.dropWhile_append_of_head? (isDigit_of_digits digits) scaled.isDigit_head?
      unfold decimal?
      rw [htake, hdrop]
      dsimp only
      split
      · exact absurd rfl (hpoint _)
      · simp [nonempty, hexponent, ofDigits_eq digits]
  | @pointed whole fraction before after nonempty =>
      have hpoint (c : Char) (hc : ('.' :: (fraction ++ exponent)).head? = some c) :
          isDigit c = false := by
        obtain rfl := Option.some.inj hc
        decide
      have hdigits : ∀ c ∈ whole ++ fraction, c.isDigit = true := fun c hc =>
        (List.mem_append.mp hc).elim (before c) (after c)
      have htake := Text.takeWhile_append_of_head? (isDigit_of_digits before) hpoint
      have hdrop := Text.dropWhile_append_of_head? (isDigit_of_digits before) hpoint
      have htake' := Text.takeWhile_append_of_head? (isDigit_of_digits after) scaled.isDigit_head?
      have hdrop' := Text.dropWhile_append_of_head? (isDigit_of_digits after) scaled.isDigit_head?
      rw [List.append_assoc, List.cons_append]
      simp only [decimal?, htake, hdrop, htake', hdrop']
      rw [if_neg nonempty, hexponent, ofDigits_eq hdigits, Option.map_some]

/-- No literal is taken for a word. -/
theorem parse?_of_parts {sign mantissa whole fraction exponent : List Char} {negative : Bool} {e : ℤ}
    (signed : IsSign sign negative) (pointed : IsMantissa mantissa whole fraction)
    (scaled : IsExponent exponent e) :
    parse? (sign ++ (mantissa ++ exponent)) =
      some (.decimal ⟨negative, Nat.ofDigitChars 10 (whole ++ fraction) 0, e - fraction.length⟩) := by
  obtain ⟨c, hhead, hc⟩ := pointed.head? exponent
  have hsign : splitSign (sign ++ (mantissa ++ exponent)) = (negative, mantissa ++ exponent) :=
    splitSign_append signed fun d hd => by
      obtain rfl := Option.some.inj (hhead.symm.trans hd)
      exact hc
  have hword (d : Char) (word : List Char) (hd : d = 'i' ∨ d = 'n') :
      (mantissa ++ exponent).map Char.toLower ≠ d :: word := by
    intro heq
    have hlower : c.toLower = d := by
      have := congrArg List.head? heq
      rw [List.head?_map, hhead] at this
      exact Option.some.inj this
    rw [toLower_of_opens hc] at hlower
    subst hlower
    obtain hc | rfl := hc
    · obtain rfl | rfl := hd <;> exact absurd hc (by decide)
    · exact absurd hd (by decide)
  unfold parse?
  simp only [hsign, hword _ _ (.inl rfl), hword _ _ (.inr rfl), or_self, if_false]
  rw [decimal?_of_isMantissa pointed scaled negative]
  rfl

end Numeral

/-- The exact value without its sign. -/
def Decimal.magnitude (d : Decimal) : ℚ :=
  d.digits * 10 ^ d.exponent

/-- The exact value. -/
def Decimal.value (d : Decimal) : ℚ :=
  Binary64.unit d.negative * d.magnitude

/-- A literal is read as its value. -/
theorem Numeral.exists_parse?_eq {cs : List Char} {q : ℚ} (h : IsLiteral cs q) :
    ∃ d : Decimal, parse? cs = some (.decimal d) ∧ d.value = q := by
  obtain ⟨signed, pointed, scaled⟩ := h
  refine ⟨_, parse?_of_parts signed pointed scaled, ?_⟩
  rw [Decimal.value, Decimal.magnitude, Nat.ofDigitChars_append, ofDigitChars_eq _ (Nat.ofDigitChars _ _ _)]
  congr 1
  push_cast
  rw [zpow_sub₀ (by norm_num), zpow_natCast]
  field_simp

theorem exists_readFinite?_eq {cs : List Char} {q : ℚ} (h : IsLiteral cs q) :
    ∃ d : Decimal, readFinite? cs = d.toBinary64? ∧ d.value = q := by
  obtain ⟨d, hparse, hvalue⟩ := Numeral.exists_parse?_eq h
  exact ⟨d, by simp [readFinite?, hparse], hvalue⟩

/-! ### Rounding -/

namespace Binary64

/-- The midpoint between the largest number and `top`. -/
def limit : ℚ :=
  (2 ^ 54 - 1) * 2 ^ (970 : ℤ)

theorem limit_pos : 0 < limit := by
  unfold limit
  positivity

theorem nearest_limit : nearest limit = top := by
  have hround : ofRatio false (18014398509481983 <<< 970) 1 = ⟨false, 4503599627370496, 972⟩ := by
    decide +kernel
  have hvalue := value_ofRatio_eq_nearest false (18014398509481983 <<< 970) one_pos
  have hlimit : unit false * (((18014398509481983 <<< 970 : ℕ) : ℚ) / (1 : ℕ)) = limit := by
    rw [cast_shiftLeft, limit, ← zpow_natCast]
    norm_num
  have htop : (⟨false, 4503599627370496, 972⟩ : Binary64).value = top := by
    rw [value, top, show (972 : ℤ) = 971 + 1 by norm_num, zpow_add_one₀ two_ne_zero]
    generalize (2 : ℚ) ^ (971 : ℤ) = u
    rw [unit_false]
    push_cast
    ring
  rw [← hlimit, ← hvalue, hround, htop]

theorem nearest_lt_top_iff {q : ℚ} (hq : 0 ≤ q) : nearest q < top ↔ q < limit := by
  constructor
  · intro h
    by_contra hge
    exact absurd (nearest_limit ▸ nearest_mono (not_lt.mp hge)) (not_le.mpr h)
  · intro h
    have hstep : (2 : ℚ) ^ (971 : ℤ) = 2 * 2 ^ (970 : ℤ) := by
      rw [show (971 : ℤ) = 970 + 1 by norm_num, zpow_add_one₀ two_ne_zero, mul_comm]
    have hunit : (0 : ℚ) < 2 ^ (970 : ℤ) := by positivity
    have herror := abs_nearest_sub_le hq (show minExponent ≤ 971 by decide)
    unfold limit at h
    unfold top
    rw [hstep] at herror ⊢
    generalize (2 : ℚ) ^ (970 : ℤ) = u at h hunit herror ⊢
    have := (abs_le.mp (herror (by linarith))).2
    linarith

/-- What is far below the least number is rounded to zero. -/
theorem nearest_eq_zero_of_lt {q : ℚ} (hq : 0 ≤ q) (h : q < 2 ^ minExponent / 2) : nearest q = 0 := by
  obtain rfl | hpos := hq.eq_or_lt
  · exact nearest_zero
  obtain ⟨k, hk, -, -, n, hn⟩ := exists_unit hpos
  have hunit : (0 : ℚ) < 2 ^ minExponent := by positivity
  have herror := abs_nearest_sub_le hq le_rfl (by linarith)
  have hlt : nearest q < 2 ^ k := by
    calc nearest q ≤ q + 2 ^ minExponent / 2 := by linarith [(abs_le.mp herror).2]
      _ < 2 ^ minExponent := by linarith
      _ ≤ 2 ^ k := zpow_le_zpow_right₀ one_le_two hk
  rw [hn, mul_lt_iff_lt_one_left (by positivity)] at hlt
  have : n < 1 := by exact_mod_cast hlt
  rw [hn, show n = 0 by omega, Nat.cast_zero, zero_mul]

end Binary64

namespace Decimal

open Binary64

theorem magnitude_nonneg (d : Decimal) : 0 ≤ d.magnitude := by
  unfold magnitude
  positivity

/-- Eight is less than ten. -/
theorem two_zpow_le_ten_zpow {e : ℤ} (he : 0 ≤ e) : (2 : ℚ) ^ (3 * e) ≤ 10 ^ e := by
  rw [zpow_mul]
  exact zpow_le_zpow_left₀ he (by positivity) (by norm_num)

theorem ten_zpow_le_two_zpow {e : ℤ} (he : e ≤ 0) : (10 : ℚ) ^ e ≤ 2 ^ (3 * e) := by
  have h := two_zpow_le_ten_zpow (neg_nonneg.mpr he)
  rw [mul_neg, zpow_neg, zpow_neg] at h
  exact (inv_le_inv₀ (by positivity) (by positivity)).mp h

theorem limit_le_magnitude {d : Decimal} (hdigits : d.digits ≠ 0) (he : 400 < d.exponent) :
    limit ≤ d.magnitude := by
  have hone : (1 : ℚ) ≤ d.digits := by exact_mod_cast Nat.pos_of_ne_zero hdigits
  calc limit ≤ 2 ^ (54 : ℤ) * 2 ^ (970 : ℤ) := by
        unfold limit
        gcongr
        norm_num
    _ = 2 ^ (1024 : ℤ) := by rw [← zpow_add₀ two_ne_zero]; rfl
    _ ≤ 2 ^ (3 * d.exponent) := zpow_le_zpow_right₀ one_le_two (by omega)
    _ ≤ 10 ^ d.exponent := two_zpow_le_ten_zpow (by omega)
    _ ≤ d.magnitude := le_mul_of_one_le_left (by positivity) hone

theorem magnitude_lt {d : Decimal} (hdigits : d.digits ≠ 0)
    (he : (d.digits.log2 : ℤ) + 3 * d.exponent < -1200) : d.magnitude < 2 ^ minExponent / 2 := by
  have hneg : d.exponent ≤ 0 := by omega
  calc d.magnitude < 2 ^ ((d.digits.log2 : ℤ) + 1) * 2 ^ (3 * d.exponent) :=
        mul_lt_mul (log2_bounds hdigits).2 (ten_zpow_le_two_zpow hneg) (by positivity) (by positivity)
    _ = 2 ^ ((d.digits.log2 : ℤ) + 1 + 3 * d.exponent) := (zpow_add₀ two_ne_zero _ _).symm
    _ ≤ 2 ^ (minExponent - 1) := zpow_le_zpow_right₀ one_le_two (by rw [minExponent]; omega)
    _ = 2 ^ minExponent / 2 := by rw [zpow_sub_one₀ two_ne_zero, div_eq_mul_inv]

theorem magnitude_eq_div (d : Decimal) :
    d.magnitude =
      ((d.digits * Nat.pow 10 d.exponent.toNat : ℕ) : ℚ) / (Nat.pow 10 (-d.exponent).toNat : ℕ) := by
  rw [magnitude, zpow_eq_div (by norm_num), Nat.cast_mul, Nat.pow_eq, Nat.pow_eq, Nat.cast_pow,
    Nat.cast_pow, mul_div_assoc]
  rfl

/-- The value is rounded once, and refused exactly if that takes it to `top`. The bounds that come
first decide nothing that rounding would decide otherwise. -/
theorem toBinary64?_cases (d : Decimal) :
    (d.magnitude < limit ∧
        ∃ x, d.toBinary64? = some x ∧ x.negative = d.negative ∧ x.value = nearest d.value) ∨
      (limit ≤ d.magnitude ∧ d.toBinary64? = none) := by
  have hden : 0 < Nat.pow 10 (-d.exponent).toNat := Nat.pow_pos (by decide)
  unfold toBinary64?
  split
  next hdigits =>
    have hzero : d.magnitude = 0 := by simp [magnitude, hdigits]
    refine .inl ⟨hzero ▸ limit_pos, _, rfl, rfl, ?_⟩
    simp [value, hzero]
  split
  next hdigits hlarge => exact .inr ⟨limit_le_magnitude hdigits hlarge, rfl⟩
  split
  next hdigits _ hsmall =>
    have htiny := magnitude_lt hdigits hsmall
    have hzero := nearest_eq_zero_of_lt d.magnitude_nonneg htiny
    refine .inl ⟨(nearest_lt_top_iff d.magnitude_nonneg).mp ?_, _, rfl, rfl, ?_⟩
    · rw [hzero, top]
      positivity
    · rw [value_zero, value]
      cases d.negative <;> simp [hzero]
  dsimp only
  simp only [inRange_ofRatio_iff d.negative (d.digits * Nat.pow 10 d.exponent.toNat) hden,
    magnitude_eq_nearest _ hden, ← magnitude_eq_div, nearest_lt_top_iff d.magnitude_nonneg]
  split
  next h =>
    refine .inl ⟨h, _, rfl, negative_ofRatio _ _ _, ?_⟩
    rw [value_ofRatio_eq_nearest _ _ hden, ← magnitude_eq_div, value]
  next h => exact .inr ⟨not_lt.mp h, rfl⟩

end Decimal

end AccessLine.Number
