import Mathlib.Algebra.Order.Floor.Semifield
import KeywordCensus.Proofs.Floating.Rounding

/-!
# The value of a floating-point number

A finite number stands for a rational one (`value?`), and every operation of double precision is the
exact operation on the values, rounded once: `value?_add`, `value?_mul`, `value?_div` and so on, as long
as the exact result stays away from the largest numbers. Comparisons are those of the values
(`lt_iff`, `eq_iff`).

What is proved about a computation is then proved about rational numbers, with the laws of rounding.
-/

namespace KeywordCensus

namespace Floating

variable {s t : Bool} {num den k m : ℕ} {e unit : ℤ} {q r : ℚ} {x y : Floating}

/-! ## Powers and signs -/

/-- An exponent is split into two powers, one of which is one. -/
theorem zpow_eq_div (e : ℤ) : (2 : ℚ) ^ e = (twoPow e.toNat : ℚ) / twoPow (-e).toNat := by
  have hsplit : e = (e.toNat : ℤ) - ((-e).toNat : ℤ) := by omega
  have hpow : ∀ n : ℕ, ((twoPow n : ℕ) : ℚ) = 2 ^ n := fun n => by exact_mod_cast rfl
  conv_lhs => rw [hsplit]
  rw [zpow_sub₀ (by norm_num : (2 : ℚ) ≠ 0), zpow_natCast, zpow_natCast, hpow, hpow]

theorem zpow_mul_twoPow (h : unit ≤ e) : (2 : ℚ) ^ unit * twoPow (e - unit).toNat = 2 ^ e := by
  have hpow : ((twoPow (e - unit).toNat : ℕ) : ℚ) = 2 ^ (e - unit).toNat := by exact_mod_cast rfl
  rw [hpow, ← zpow_natCast, ← zpow_add₀ (by norm_num : (2 : ℚ) ≠ 0)]
  congr 1
  omega

/-- A size with a sign. -/
def signed (negative : Bool) (q : ℚ) : ℚ := if negative then -q else q

@[simp] theorem signed_false (q : ℚ) : signed false q = q := rfl

@[simp] theorem signed_true (q : ℚ) : signed true q = -q := rfl

@[simp] theorem signed_zero (s : Bool) : signed s 0 = 0 := by cases s <;> simp

theorem signed_eq_mul (s : Bool) (q : ℚ) : signed s q = signed s 1 * q := by cases s <;> simp

theorem signed_mul_signed (s t : Bool) : signed s q * signed t r = signed (s != t) (q * r) := by
  cases s <;> cases t <;> simp

theorem signed_div_signed (s t : Bool) : signed s q / signed t r = signed (s != t) (q / r) := by
  cases s <;> cases t <;> simp [neg_div, div_neg]

@[simp] theorem abs_signed (s : Bool) (q : ℚ) : |signed s q| = |q| := by cases s <;> simp

/-- Rounding passes through the sign. -/
theorem rounded_signed (s : Bool) (q : ℚ) : rounded (signed s q) = signed s (rounded q) := by
  cases s
  · rfl
  · exact rounded_neg q

/-- A number is the size of it with the sign of it. -/
theorem signed_natAbs (n : ℤ) : signed (decide (n < 0)) (n.natAbs : ℚ) = n := by
  rw [Nat.cast_natAbs, Int.cast_abs]
  by_cases h : n < 0
  · rw [decide_eq_true h, signed_true, abs_of_neg (by exact_mod_cast h), neg_neg]
  · rw [decide_eq_false h, signed_false, abs_of_nonneg (by exact_mod_cast not_lt.mp h)]

/-! ## The value of a number -/

/-- The exact value of a finite number. -/
def value? : Floating → Option ℚ
  | .finite s m e => some (signed s (m * 2 ^ e))
  | _ => none

theorem value?_eq_some : value? x = some q ↔ ∃ s m e, x = .finite s m e ∧ signed s (m * 2 ^ e) = q := by
  cases x with
  | nan => simp [value?]
  | infinite s => simp [value?]
  | finite s m e => simp [value?]

/-! ## Rounding -/

/-- Writing a quotient in units of a power of two divides it by that power. -/
theorem inUnits_div (num den : ℕ) (e : ℤ) :
    ((inUnits num den e).1 : ℚ) / (inUnits num den e).2 = num / den / 2 ^ e := by
  rw [zpow_eq_div e]
  simp only [inUnits, Nat.cast_mul]
  rw [div_div, mul_div_assoc', div_div_eq_mul_div]

/-- The leading bits of its parts give the leading bit of a quotient, or the next one. -/
theorem log_div_estimate (hnum : num ≠ 0) (hden : 0 < den) :
    (num.log2 : ℤ) - den.log2 - 1 ≤ Int.log 2 ((num : ℚ) / den) ∧
      Int.log 2 ((num : ℚ) / den) < (num.log2 : ℤ) - den.log2 + 1 := by
  have hq : (0 : ℚ) < num / den :=
    div_pos (by exact_mod_cast Nat.pos_of_ne_zero hnum) (by exact_mod_cast hden)
  have hnum_le : (2 ^ num.log2 : ℚ) ≤ num := by exact_mod_cast Nat.log2_self_le hnum
  have hnum_lt : (num : ℚ) < 2 ^ (num.log2 + 1) := by exact_mod_cast Nat.lt_log2_self
  have hden_le : (2 ^ den.log2 : ℚ) ≤ den := by exact_mod_cast Nat.log2_self_le hden.ne'
  have hden_lt : (den : ℚ) < 2 ^ (den.log2 + 1) := by exact_mod_cast Nat.lt_log2_self
  -- Each logarithm is off by less than one, and so is their difference.
  constructor
  · refine (Int.zpow_le_iff_le_log Nat.one_lt_two hq).mp ?_
    rw [Nat.cast_ofNat, sub_sub, zpow_sub₀ (by norm_num : (2 : ℚ) ≠ 0)]
    exact div_le_div₀ (by positivity) (by exact_mod_cast hnum_le) (by exact_mod_cast hden)
      (by exact_mod_cast hden_lt.le)
  · refine (Int.lt_zpow_iff_log_lt Nat.one_lt_two hq).mp ?_
    rw [Nat.cast_ofNat, sub_add_eq_add_sub, zpow_sub₀ (by norm_num : (2 : ℚ) ≠ 0)]
    exact div_lt_div₀ (by exact_mod_cast hnum_lt) (by exact_mod_cast hden_le) (by positivity)
      (by positivity)

/-- The leading bit is that of the rational number. -/
theorem leadingBit_eq_log (hnum : num ≠ 0) (hden : 0 < den) :
    leadingBit num den = Int.log 2 ((num : ℚ) / den) := by
  obtain ⟨hlow, hhigh⟩ := log_div_estimate hnum hden
  have hq : (0 : ℚ) < num / den :=
    div_pos (by exact_mod_cast Nat.pos_of_ne_zero hnum) (by exact_mod_cast hden)
  -- In units of the estimate the quotient is less than one if the estimate is one too many.
  have hunits : ∀ k : ℤ, (inUnits num den k).2 ≤ (inUnits num den k).1 ↔
      k ≤ Int.log 2 ((num : ℚ) / den) := fun k => by
    have hpos : (0 : ℚ) < (inUnits num den k).2 := Nat.cast_pos.mpr (Nat.mul_pos hden (twoPow_pos _))
    have hpow : (0 : ℚ) < 2 ^ k := by positivity
    rw [← Int.zpow_le_iff_le_log Nat.one_lt_two hq, Nat.cast_ofNat, ← one_le_div hpow, ← inUnits_div,
      one_le_div hpos, Nat.cast_le]
  rw [leadingBit]
  split
  case isTrue h =>
    have hfits := (hunits _).mp h
    omega
  case isFalse h =>
    have hover := mt (hunits _).mpr h
    omega

/-- The place computed from the bits is the last place of the quotient. -/
theorem place_eq (hnum : num ≠ 0) (hden : 0 < den) :
    place num den = lastPlace ((num : ℚ) / den) := by
  have hleast : FloatFormat.binary64.least = -1074 := by decide
  have hprecision : FloatFormat.binary64.precision = 53 := rfl
  rw [place, lastPlace, leadingBit_eq_log hnum hden, hleast, hprecision]
  rfl

/-- **A quotient is rounded as the rational number.** -/
theorem value?_round (hden : 0 < den) (hk : k ≤ 1000) (h : (num : ℚ) / den ≤ 2 ^ k) :
    value? (round .binary64 s num den) = some (rounded (signed s (num / den))) := by
  have hnonneg : (0 : ℚ) ≤ num / den := by positivity
  rw [rounded_signed, rounded_of_nonneg hnonneg]
  by_cases hnum : num = 0
  · rw [round, if_pos hnum, hnum, Nat.cast_zero, zero_div, nearest_zero, signed_zero, value?,
      Nat.cast_zero, zero_mul, signed_zero]
  have hle : num ≤ 2 ^ k * den := by
    rw [div_le_iff₀ (by exact_mod_cast hden)] at h
    exact_mod_cast h
  have hunits : (units num den : ℚ) * 2 ^ place num den = nearest (num / den) := by
    have hpos : 0 < (inUnits num den (place num den)).2 := Nat.mul_pos hden (twoPow_pos _)
    rw [units, ← toWhole_div _ hpos, inUnits_div, place_eq hnum hden, nearest]
  -- A carry writes the same value with another significand.
  rcases @round_eq num den k s hnum hle hk with hround | ⟨hcarried, hround⟩
  · rw [hround, value?, hunits]
  · have hcarry : ((2 ^ 52 : ℕ) : ℚ) * 2 ^ (place num den + 1) = units num den * 2 ^ place num den := by
      rw [hcarried, zpow_add_one₀ (by norm_num : (2 : ℚ) ≠ 0)]
      push_cast
      ring
    rw [hround, value?, hcarry, hunits]

/-- A count within the range is a double, of the rounded value. -/
theorem value?_ofNat {n : ℕ} (hk : k ≤ 1000) (h : n ≤ 2 ^ k) :
    value? (ofNat .binary64 n) = some (double n : ℚ) := by
  have hle : ((n : ℕ) : ℚ) / (1 : ℕ) ≤ 2 ^ k := by
    rw [Nat.cast_one, div_one]
    exact_mod_cast h
  rw [ofNat, value?_round Nat.one_pos hk hle, Nat.cast_one, div_one, signed_false, cast_double]

/-! ## Arithmetic -/

/-- Signed units are the number divided by the unit. -/
theorem zpow_mul_signedUnits (h : unit ≤ e) :
    (2 : ℚ) ^ unit * signedUnits s m e unit = signed s (m * 2 ^ e) := by
  have hsize : (2 : ℚ) ^ unit * (m * twoPow (e - unit).toNat) = m * 2 ^ e := by
    rw [mul_left_comm, zpow_mul_twoPow h]
  cases s
  · rw [signed_false, ← hsize]
    simp [signedUnits]
  · rw [signed_true, ← hsize]
    simp [signedUnits]

/-- A sum within the range is the rounded sum of the values. -/
theorem value?_add (hx : value? x = some q) (hy : value? y = some r) (hk : k ≤ 1000)
    (h : |q + r| ≤ 2 ^ k) : value? (add .binary64 x y) = some (rounded (q + r)) := by
  obtain ⟨s, m, e, rfl, rfl⟩ := value?_eq_some.mp hx
  obtain ⟨t, n, f, rfl, rfl⟩ := value?_eq_some.mp hy
  -- Both numbers are written in the smaller of their units, where the sum is exact.
  have hsum : signed s (m * 2 ^ e) + signed t (n * 2 ^ f) =
      2 ^ min e f * (signedUnits s m e (min e f) + signedUnits t n f (min e f) : ℤ) := by
    rw [Int.cast_add, mul_add, zpow_mul_signedUnits (min_le_left e f),
      zpow_mul_signedUnits (min_le_right e f)]
  rw [hsum] at h ⊢
  rw [add]
  generalize signedUnits s m e (min e f) + signedUnits t n f (min e f) = sum at h ⊢
  by_cases hzero : sum = 0
  · rw [if_pos hzero, hzero, Int.cast_zero, mul_zero, rounded_zero, value?, Nat.cast_zero, zero_mul,
      signed_zero]
  · have hsize : ((sum.natAbs * twoPow (min e f).toNat : ℕ) : ℚ) / (twoPow (-min e f).toNat : ℕ) =
        2 ^ min e f * sum.natAbs := by
      rw [zpow_eq_div, Nat.cast_mul, mul_div_assoc, mul_comm]
    have hle : ((sum.natAbs * twoPow (min e f).toNat : ℕ) : ℚ) / (twoPow (-min e f).toNat : ℕ) ≤
        2 ^ k := by
      rw [hsize, Nat.cast_natAbs, Int.cast_abs]
      rwa [abs_mul, abs_of_pos (by positivity : (0 : ℚ) < 2 ^ min e f)] at h
    rw [if_neg hzero, value?_round (twoPow_pos _) hk hle, hsize, signed_eq_mul, mul_left_comm,
      ← signed_eq_mul, signed_natAbs]

theorem value?_neg (hx : value? x = some q) : value? (neg x) = some (-q) := by
  obtain ⟨s, m, e, rfl, rfl⟩ := value?_eq_some.mp hx
  cases s <;> simp [neg, value?]

theorem value?_sub (hx : value? x = some q) (hy : value? y = some r) (hk : k ≤ 1000)
    (h : |q - r| ≤ 2 ^ k) : value? (sub .binary64 x y) = some (rounded (q - r)) := by
  rw [sub_eq_add_neg] at h ⊢
  exact value?_add hx (value?_neg hy) hk h

/-- A product within the range is the rounded product of the values. -/
theorem value?_mul (hx : value? x = some q) (hy : value? y = some r) (hk : k ≤ 1000)
    (h : |q * r| ≤ 2 ^ k) : value? (mul .binary64 x y) = some (rounded (q * r)) := by
  obtain ⟨s, m, e, rfl, rfl⟩ := value?_eq_some.mp hx
  obtain ⟨t, n, f, rfl, rfl⟩ := value?_eq_some.mp hy
  have hsize : ((m * n * twoPow (e + f).toNat : ℕ) : ℚ) / (twoPow (-(e + f)).toNat : ℕ) =
      m * 2 ^ e * (n * 2 ^ f) := by
    rw [Nat.cast_mul, mul_div_assoc, ← zpow_eq_div, zpow_add₀ (by norm_num : (2 : ℚ) ≠ 0),
      Nat.cast_mul, mul_mul_mul_comm]
  rw [signed_mul_signed] at h ⊢
  rw [abs_signed, abs_of_nonneg (by positivity), ← hsize] at h
  rw [mul, value?_round (twoPow_pos _) hk h, hsize]

/-- A quotient within the range is the rounded quotient of the values. -/
theorem value?_div (hx : value? x = some q) (hy : value? y = some r) (hr : r ≠ 0) (hk : k ≤ 1000)
    (h : |q / r| ≤ 2 ^ k) : value? (div .binary64 x y) = some (rounded (q / r)) := by
  obtain ⟨s, m, e, rfl, rfl⟩ := value?_eq_some.mp hx
  obtain ⟨t, n, f, rfl, rfl⟩ := value?_eq_some.mp hy
  have hn : n ≠ 0 := by
    rintro rfl
    simp at hr
  have hsize : ((m * twoPow (e - f).toNat : ℕ) : ℚ) / (n * twoPow (f - e).toNat : ℕ) =
      m * 2 ^ e / (n * 2 ^ f) := by
    rw [mul_div_mul_comm, ← zpow_sub₀ (by norm_num : (2 : ℚ) ≠ 0), zpow_eq_div, Int.neg_sub,
      Nat.cast_mul, Nat.cast_mul, mul_div_mul_comm]
  rw [signed_div_signed] at h ⊢
  rw [abs_signed, abs_of_nonneg (by positivity), ← hsize] at h
  rw [div, if_neg hn, value?_round (Nat.mul_pos (Nat.pos_of_ne_zero hn) (twoPow_pos _)) hk h, hsize]

/-! ## Comparison -/

/-- Doubles are compared as their values are. -/
theorem lt_iff (hx : value? x = some q) (hy : value? y = some r) : lt x y = true ↔ q < r := by
  obtain ⟨s, m, e, rfl, rfl⟩ := value?_eq_some.mp hx
  obtain ⟨t, n, f, rfl, rfl⟩ := value?_eq_some.mp hy
  rw [lt, decide_eq_true_iff, ← zpow_mul_signedUnits (min_le_left e f),
    ← zpow_mul_signedUnits (min_le_right e f),
    mul_lt_mul_iff_right₀ (by positivity : (0 : ℚ) < 2 ^ min e f), Int.cast_lt]

/-- Whole numbers are compared as they are held. -/
theorem lt_ofNat_iff {n : ℕ} (hk : k ≤ 1000) (hn : n ≤ 2 ^ k) (hm : m ≤ 2 ^ k) :
    lt (ofNat .binary64 n) (ofNat .binary64 m) = true ↔ double n < double m := by
  rw [lt_iff (value?_ofNat hk hn) (value?_ofNat hk hm), Nat.cast_lt]

theorem eq_iff (hx : value? x = some q) (hy : value? y = some r) : eq x y = true ↔ q = r := by
  have hxy := lt_iff hx hy
  have hyx := lt_iff hy hx
  obtain ⟨s, m, e, rfl, -⟩ := value?_eq_some.mp hx
  obtain ⟨t, n, f, rfl, -⟩ := value?_eq_some.mp hy
  rw [eq, Bool.and_eq_true, Bool.not_eq_true', Bool.not_eq_true', ← Bool.not_eq_true,
    ← Bool.not_eq_true, hxy, hyx, not_lt, not_lt, le_antisymm_iff, and_comm]
  · rintro ⟨⟩
  · rintro ⟨⟩

/-- Clamping a double clamps its value to the unit interval. -/
theorem value?_clampUnit (hx : value? x = some q) :
    value? (clampUnit x) = some (max 0 (min 1 q)) := by
  have hzero : value? (.finite false 0 0) = some 0 := by simp [value?]
  have hone : value? (.finite false 1 0) = some 1 := by simp [value?]
  have hbelow := lt_iff hx hzero
  have habove := lt_iff hone hx
  rw [clampUnit]
  rcases lt_or_ge q 0 with hneg | hnonneg
  · rw [if_pos (hbelow.mpr hneg), max_eq_left ((min_le_right 1 q).trans hneg.le)]
    simp [value?]
  · rw [if_neg (mt hbelow.mp hnonneg.not_gt)]
    rcases lt_or_ge 1 q with hbig | hsmall
    · rw [if_pos (habove.mpr hbig), value?_ofNat (k := 0) (by decide) (by decide), cast_double,
        Nat.cast_one, rounded_one, min_eq_left hbig.le, max_eq_right zero_le_one]
    · rw [if_neg (mt habove.mp hsmall.not_gt), hx, min_eq_right hsmall, max_eq_right hnonneg]

/-! ## Whole parts -/

/-- The whole part of a double is the floor of its value. -/
theorem wholePart_eq (m : ℕ) (e : ℤ) : wholePart m e = ⌊(m * 2 ^ e : ℚ)⌋₊ := by
  rw [wholePart, zpow_eq_div, mul_div_assoc', ← Nat.cast_mul, Nat.floor_div_eq_div]

/-- The whole part as a byte is that of the value. -/
theorem toByte_eq (hx : value? x = some q) : toByte x = min 255 ⌊q⌋₊ := by
  obtain ⟨s, m, e, rfl, rfl⟩ := value?_eq_some.mp hx
  rw [toByte]
  cases s
  · rw [if_neg Bool.false_ne_true, wholePart_eq, signed_false]
  · have hneg : ⌊signed true (m * 2 ^ e : ℚ)⌋₊ = 0 :=
      Nat.floor_of_nonpos (neg_nonpos.mpr (by positivity))
    rw [if_pos rfl, hneg, min_eq_right (Nat.zero_le _)]

/-- The fraction of a positive number is cut off. -/
theorem trunc_eq_ofNat (hx : value? x = some q) (hq : 0 < q) :
    trunc .binary64 x = ofNat .binary64 ⌊q⌋₊ := by
  obtain ⟨s, m, e, rfl, rfl⟩ := value?_eq_some.mp hx
  cases s
  · rw [trunc, wholePart_eq]
    rfl
  · have hneg : signed true (m * 2 ^ e : ℚ) ≤ 0 := neg_nonpos.mpr (by positivity)
    exact absurd hq hneg.not_gt

end Floating

end KeywordCensus
