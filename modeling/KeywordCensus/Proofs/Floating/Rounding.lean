import Mathlib.Algebra.Order.Field.Power
import Mathlib.Data.Int.Log
import Mathlib.Data.Nat.Cast.Order.Field
import Mathlib.Data.Rat.Floor
import Mathlib.Tactic.Linarith
import Mathlib.Tactic.Ring
import KeywordCensus.Proofs.Floating.Range

/-!
# Rounding a rational number

Double precision has, near a number, the multiples of one power of two: the exponent of its last place
(`lastPlace`). A number that is not negative is rounded to the nearest of these multiples, a tie to the
even one (`nearest`), and a negative number as its size is (`rounded`).

The two laws of rounding are that it keeps order (`rounded_mono`) and keeps what has few enough bits
(`nearest_mul_zpow`); all bounds on rounded numbers come from the two. `abs_nearest_sub_le` says how far
a number is moved.
-/

namespace KeywordCensus

namespace Floating

variable {a b c d : ℕ} {k : ℕ} {e : ℤ} {q r : ℚ}

/-! ## Rounding to a whole number -/

/-- A common factor does not change how a quotient rounds. -/
theorem roundQuotient_mul_right (a b : ℕ) (hk : 0 < k) :
    roundQuotient (a * k) (b * k) = roundQuotient a b := by
  have hdouble : 2 * (a % b * k) = 2 * (a % b) * k := (Nat.mul_assoc ..).symm
  rw [roundQuotient, roundQuotient, Nat.mul_div_mul_right a b hk, Nat.mul_mod_mul_right, hdouble]
  simp only [Nat.mul_lt_mul_right hk]

/-- Equal quotients are rounded to the same number. -/
theorem roundQuotient_congr (hb : 0 < b) (hd : 0 < d) (h : a * d = c * b) :
    roundQuotient a b = roundQuotient c d := by
  rw [← roundQuotient_mul_right a b hd, ← roundQuotient_mul_right c d hb, h, Nat.mul_comm d b]

/-- The whole number nearest to a rational one, of two equally near ones the even one; zero for what
is negative. -/
def toWhole (q : ℚ) : ℕ := roundQuotient q.num.toNat q.den

theorem toWhole_div (a : ℕ) (hb : 0 < b) : toWhole (a / b) = roundQuotient a b := by
  have hnum : 0 ≤ ((a : ℚ) / b).num := Rat.num_nonneg.mpr (by positivity)
  refine roundQuotient_congr (Rat.den_pos _) hb ?_
  have hfrac : (((a : ℚ) / b).num : ℚ) / ((a : ℚ) / b).den = a / b := Rat.num_div_den _
  have hden : (((a : ℚ) / b).den : ℚ) ≠ 0 := Nat.cast_ne_zero.mpr (Rat.den_nz _)
  rw [div_eq_div_iff hden (Nat.cast_ne_zero.mpr hb.ne')] at hfrac
  have hcross : ((a : ℚ) / b).num * b = a * ((a : ℚ) / b).den := by exact_mod_cast hfrac
  rw [← Int.toNat_of_nonneg hnum] at hcross
  exact_mod_cast hcross

theorem toWhole_natCast (n : ℕ) : toWhole n = n := by
  have h := toWhole_div n Nat.one_pos
  rw [Nat.cast_one, div_one] at h
  rw [h, ← Nat.mul_one n, roundQuotient_exact n 1 Nat.one_pos, Nat.mul_one]

theorem toWhole_mono (h : q ≤ r) : toWhole q ≤ toWhole r := by
  have hcross : q.num.toNat * r.den ≤ r.num.toNat * q.den := by
    rcases le_total q 0 with hq | hq
    · rw [Int.toNat_of_nonpos (Rat.num_nonpos.mpr hq), Nat.zero_mul]
      exact Nat.zero_le _
    · have hint := (Rat.le_iff _ _).mp h
      rw [← Int.toNat_of_nonneg (Rat.num_nonneg.mpr hq),
        ← Int.toNat_of_nonneg (Rat.num_nonneg.mpr (hq.trans h))] at hint
      exact_mod_cast hint
  rw [toWhole, toWhole, ← roundQuotient_mul_right q.num.toNat q.den r.den_pos,
    ← roundQuotient_mul_right r.num.toNat r.den q.den_pos, Nat.mul_comm r.den q.den]
  exact roundQuotient_mono (Nat.mul_pos q.den_pos r.den_pos) hcross

/-- Twice the quotient and twice the rounded one are apart by one at most. -/
theorem roundQuotient_near (a : ℕ) (hb : 0 < b) :
    2 * roundQuotient a b * b ≤ 2 * a + b ∧ 2 * a ≤ 2 * roundQuotient a b * b + b := by
  have hdiv := Nat.div_add_mod a b
  have hmod := Nat.mod_lt a hb
  rw [roundQuotient]
  split
  · grind
  · split
    · grind
    -- A tie is as near to one number as to the other.
    · rcases Nat.mod_two_eq_zero_or_one (a / b) with heven | hodd
      · grind
      · grind

/-- Rounding to a whole number moves by a half at most. -/
theorem abs_toWhole_sub_le (h : 0 ≤ q) : |(toWhole q : ℚ) - q| ≤ 1 / 2 := by
  have hden : (0 : ℚ) < q.den := by exact_mod_cast q.den_pos
  have hsize : q * q.den = q.num.toNat := by
    rw [Rat.mul_den_eq_num]
    exact_mod_cast (Int.toNat_of_nonneg (Rat.num_nonneg.mpr h)).symm
  obtain ⟨habove, hbelow⟩ := roundQuotient_near q.num.toNat q.den_pos
  have habove' : 2 * (toWhole q : ℚ) * q.den ≤ (2 * q + 1) * q.den := by
    rw [add_mul, mul_assoc 2 q, hsize, one_mul]
    exact_mod_cast habove
  have hbelow' : 2 * q * q.den ≤ (2 * (toWhole q : ℚ) + 1) * q.den := by
    rw [add_mul, mul_assoc 2 q, hsize, one_mul]
    exact_mod_cast hbelow
  have habove'' := le_of_mul_le_mul_right habove' hden
  have hbelow'' := le_of_mul_le_mul_right hbelow' hden
  exact abs_le.mpr ⟨by linarith, by linarith⟩

/-! ## The last place -/

/-- The exponent of the last place that a positive number keeps. -/
def lastPlace (q : ℚ) : ℤ := max (-1074) (Int.log 2 q - 52)

/-- Larger numbers have no finer last place. -/
theorem lastPlace_mono (hq : 0 < q) (h : q ≤ r) : lastPlace q ≤ lastPlace r :=
  max_le_max le_rfl (sub_le_sub_right (Int.log_mono_right hq h) 52)

/-- A number has a last place no higher than that of any way to write it in 53 bits. -/
theorem lastPlace_le (hq : 0 < q) (he : -1074 ≤ e) (h : q < 2 ^ (e + 53)) : lastPlace q ≤ e := by
  have hlog : Int.log 2 q < e + 53 :=
    (Int.lt_zpow_iff_log_lt Nat.one_lt_two hq).mp (by exact_mod_cast h)
  rw [lastPlace]
  omega

/-- In units of its last place a number has at most 53 bits. -/
theorem lt_lastPlace (q : ℚ) : q < 2 ^ 53 * 2 ^ lastPlace q := by
  have hlt : q < (2 : ℚ) ^ (Int.log 2 q + 1) := by
    exact_mod_cast Int.lt_zpow_succ_log_self Nat.one_lt_two q
  refine lt_of_lt_of_le hlt ?_
  rw [← zpow_natCast, ← zpow_add₀ (by norm_num : (2 : ℚ) ≠ 0)]
  refine zpow_le_zpow_right₀ (by norm_num) ?_
  rw [lastPlace]
  omega

/-! ## Rounding to the last place -/

/-- A number that is not negative, rounded to its last place. -/
def nearest (q : ℚ) : ℚ := toWhole (q / 2 ^ lastPlace q) * 2 ^ lastPlace q

theorem nearest_nonneg (q : ℚ) : 0 ≤ nearest q := by
  rw [nearest]
  positivity

@[simp] theorem nearest_zero : nearest 0 = 0 := by
  have h : toWhole 0 = 0 := toWhole_natCast 0
  rw [nearest, zero_div, h, Nat.cast_zero, zero_mul]

/-- A multiple of the last place is an upper bound also after rounding. -/
theorem nearest_le (h : q ≤ k * 2 ^ lastPlace q) : nearest q ≤ k * 2 ^ lastPlace q := by
  have hpow : (0 : ℚ) < 2 ^ lastPlace q := by positivity
  have hwhole := toWhole_mono ((div_le_iff₀ hpow).mpr h)
  rw [toWhole_natCast] at hwhole
  exact mul_le_mul_of_nonneg_right (by exact_mod_cast hwhole) hpow.le

/-- A multiple of the last place is a lower bound also after rounding. -/
theorem le_nearest (h : k * 2 ^ lastPlace q ≤ q) : k * 2 ^ lastPlace q ≤ nearest q := by
  have hpow : (0 : ℚ) < 2 ^ lastPlace q := by positivity
  have hwhole := toWhole_mono ((le_div_iff₀ hpow).mpr h)
  rw [toWhole_natCast] at hwhole
  exact mul_le_mul_of_nonneg_right (by exact_mod_cast hwhole) hpow.le

/-- A multiple of the last place is kept. -/
theorem nearest_eq_self (h : q = k * 2 ^ lastPlace q) : nearest q = q :=
  le_antisymm ((nearest_le h.le).trans_eq h.symm) (h.le.trans (le_nearest h.ge))

/-- A power of two that is not below the last place is a multiple of it. -/
theorem two_zpow_eq_mul (he : lastPlace q ≤ e) :
    (2 : ℚ) ^ e = ((2 ^ (e - lastPlace q).toNat : ℕ) : ℚ) * 2 ^ lastPlace q := by
  rw [Nat.cast_pow, Nat.cast_ofNat, ← zpow_natCast, ← zpow_add₀ (by norm_num : (2 : ℚ) ≠ 0)]
  congr 1
  omega

/-- **What has at most 53 bits is kept.** -/
theorem nearest_mul_zpow (hk : k < 2 ^ 53) (he : -1074 ≤ e) :
    nearest (k * 2 ^ e) = k * 2 ^ e := by
  rcases Nat.eq_zero_or_pos k with rfl | hpos
  · rw [Nat.cast_zero, zero_mul, nearest_zero]
  have hq : (0 : ℚ) < k * 2 ^ e := by positivity
  have hplace : lastPlace (k * 2 ^ e) ≤ e := by
    refine lastPlace_le hq he ?_
    rw [zpow_add₀ (by norm_num : (2 : ℚ) ≠ 0), mul_comm]
    exact mul_lt_mul_of_pos_left (by exact_mod_cast hk) (by positivity)
  refine nearest_eq_self (k := k * 2 ^ (e - lastPlace (k * 2 ^ e)).toNat) ?_
  rw [Nat.cast_mul, mul_assoc, ← two_zpow_eq_mul hplace]

theorem nearest_natCast {n : ℕ} (h : n < 2 ^ 53) : nearest n = n := by
  have hkept := nearest_mul_zpow (e := 0) h (by norm_num)
  rwa [zpow_zero, mul_one] at hkept

/-- Powers of two down to the least place are doubles. -/
theorem nearest_two_zpow (he : -1074 ≤ e) : nearest (2 ^ e) = 2 ^ e := by
  have hkept := nearest_mul_zpow (k := 1) (Nat.one_lt_two_pow (by decide)) he
  rwa [Nat.cast_one, one_mul] at hkept

/-- **Rounding keeps order.** -/
theorem nearest_mono (hq : 0 ≤ q) (h : q ≤ r) : nearest q ≤ nearest r := by
  rcases hq.eq_or_lt with rfl | hpos
  · rw [nearest_zero]
    exact nearest_nonneg r
  rcases (lastPlace_mono hpos h).eq_or_lt with hplace | hplace
  · rw [nearest, nearest, hplace]
    have hpow : (0 : ℚ) < 2 ^ lastPlace r := by positivity
    exact mul_le_mul_of_nonneg_right
      (by exact_mod_cast toWhole_mono (div_le_div_of_nonneg_right h hpow.le)) hpow.le
  -- The power of two at the leading bit of the larger number is a multiple of both last places.
  · have hlead : lastPlace r = Int.log 2 r - 52 := by
      simp only [lastPlace] at hplace ⊢
      omega
    have hbelow : q ≤ 2 ^ Int.log 2 r := by
      refine (lt_lastPlace q).le.trans ?_
      rw [← zpow_natCast, ← zpow_add₀ (by norm_num : (2 : ℚ) ≠ 0)]
      exact zpow_le_zpow_right₀ (by norm_num) (by omega)
    have habove : (2 : ℚ) ^ Int.log 2 r ≤ r := by
      exact_mod_cast Int.zpow_log_le_self Nat.one_lt_two (hpos.trans_le h)
    have hq' := two_zpow_eq_mul (q := q) (e := Int.log 2 r) (by omega)
    have hr' := two_zpow_eq_mul (q := r) (e := Int.log 2 r) (by omega)
    calc nearest q ≤ 2 ^ Int.log 2 r := by
          rw [hq'] at hbelow ⊢
          exact nearest_le hbelow
      _ ≤ nearest r := by
          rw [hr'] at habove ⊢
          exact le_nearest habove

/-- Rounding again changes nothing. -/
theorem nearest_nearest (q : ℚ) : nearest (nearest q) = nearest q := by
  have hplace : -1074 ≤ lastPlace q := le_max_left _ _
  have hpow : (0 : ℚ) < 2 ^ lastPlace q := by positivity
  have hwhole : toWhole (q / 2 ^ lastPlace q) ≤ 2 ^ 53 := by
    have h := toWhole_mono ((div_le_iff₀ hpow).mpr (lt_lastPlace q).le)
    have hbound : toWhole (2 ^ 53) = 2 ^ 53 := by exact_mod_cast toWhole_natCast (2 ^ 53)
    rwa [hbound] at h
  rcases hwhole.eq_or_lt with hcarried | hfew
  · have hcarry : nearest q = 2 ^ (53 + lastPlace q) := by
      rw [nearest, hcarried, zpow_add₀ (by norm_num : (2 : ℚ) ≠ 0), Nat.cast_pow, Nat.cast_ofNat]
      rfl
    rw [hcarry]
    exact nearest_two_zpow (by omega)
  · exact nearest_mul_zpow hfew hplace

/-- Where all places are whole, so is the rounded number. -/
theorem nearest_eq_natCast (h : 0 ≤ lastPlace q) :
    nearest q = (toWhole (q / 2 ^ lastPlace q) * 2 ^ (lastPlace q).toNat : ℕ) := by
  rw [nearest, Nat.cast_mul, Nat.cast_pow, Nat.cast_ofNat, ← zpow_natCast, Int.toNat_of_nonneg h]

/-- A whole number is rounded to a whole number. -/
theorem exists_nearest_natCast (n : ℕ) : ∃ k : ℕ, nearest n = k := by
  rcases le_or_gt (lastPlace n) 0 with hplace | hplace
  · have hone := two_zpow_eq_mul hplace
    rw [zpow_zero] at hone
    refine ⟨n, nearest_eq_self (k := n * 2 ^ (0 - lastPlace n).toNat) ?_⟩
    rw [Nat.cast_mul, mul_assoc, ← hone, mul_one]
  · exact ⟨_, nearest_eq_natCast hplace.le⟩

/-- The whole part of a rounded number is kept. -/
theorem nearest_floor_nearest (q : ℚ) : nearest ⌊nearest q⌋₊ = ⌊nearest q⌋₊ := by
  rcases le_or_gt 0 (lastPlace q) with hplace | hplace
  · have hfloor : ((⌊nearest q⌋₊ : ℕ) : ℚ) = nearest q := by
      rw [nearest_eq_natCast hplace, Nat.floor_natCast]
    rw [hfloor, nearest_nearest]
  -- With places below one the number is less than 53 bits can count.
  · refine nearest_natCast ((Nat.floor_lt (nearest_nonneg q)).mpr ?_)
    have hbound : nearest q ≤ 2 ^ 53 * 2 ^ lastPlace q := by
      exact_mod_cast nearest_le (k := 2 ^ 53) (by exact_mod_cast (lt_lastPlace q).le)
    have hpow : (2 : ℚ) ^ lastPlace q < 1 := zpow_lt_one_of_neg₀ (by norm_num) hplace
    refine hbound.trans_lt ?_
    rw [Nat.cast_pow, Nat.cast_ofNat]
    exact mul_lt_of_lt_one_right (by positivity) hpow

/-- Rounding moves by half a unit of the last place at most. -/
theorem abs_nearest_sub_le (hq : 0 ≤ q) : |nearest q - q| ≤ 2 ^ lastPlace q / 2 := by
  have hpow : (0 : ℚ) < 2 ^ lastPlace q := by positivity
  have hunits : nearest q - q =
      (toWhole (q / 2 ^ lastPlace q) - q / 2 ^ lastPlace q) * 2 ^ lastPlace q := by
    rw [nearest, sub_mul, div_mul_cancel₀ q hpow.ne']
  rw [hunits, abs_mul, abs_of_pos hpow]
  calc |(toWhole (q / 2 ^ lastPlace q) : ℚ) - q / 2 ^ lastPlace q| * 2 ^ lastPlace q
      ≤ 1 / 2 * 2 ^ lastPlace q :=
        mul_le_mul_of_nonneg_right (abs_toWhole_sub_le (by positivity)) hpow.le
    _ = 2 ^ lastPlace q / 2 := by ring

/-- What is not below one grows by one part in `2 ^ 53` at most. -/
theorem nearest_le_add (hq : 1 ≤ q) : nearest q ≤ q + q / 2 ^ 53 := by
  have hpos : 0 < q := zero_lt_one.trans_le hq
  have hlog : 0 ≤ Int.log 2 q := by
    refine (Int.zpow_le_iff_le_log Nat.one_lt_two hpos).mp ?_
    rwa [zpow_zero]
  have hplace : lastPlace q = Int.log 2 q - (52 : ℕ) := by
    rw [lastPlace]
    omega
  have hunit : (2 : ℚ) ^ lastPlace q ≤ q / 2 ^ 52 := by
    rw [hplace, zpow_sub₀ (by norm_num : (2 : ℚ) ≠ 0), zpow_natCast]
    exact div_le_div_of_nonneg_right (by exact_mod_cast Int.zpow_log_le_self Nat.one_lt_two hpos)
      (by positivity)
  have hmove := (abs_le.mp (abs_nearest_sub_le hpos.le)).2
  calc nearest q ≤ q + 2 ^ lastPlace q / 2 := by linarith
    _ ≤ q + q / 2 ^ 52 / 2 := by linarith
    _ = q + q / 2 ^ 53 := by ring

/-- **The whole part of a rounded quotient is that of the quotient**, where 53 bits hold the number
that is divided: the quotient is too far below the next whole number to be rounded up to it. -/
theorem floor_nearest_div (hb : 0 < b) (hab : b ≤ a) (ha : a < 2 ^ 53) :
    ⌊nearest (a / b)⌋₊ = a / b := by
  have hb' : (0 : ℚ) < b := by exact_mod_cast hb
  have hle : (b : ℚ) ≤ a := by exact_mod_cast hab
  have hdiv : a / b < 2 ^ 53 := (Nat.div_le_self a b).trans_lt ha
  rw [Nat.floor_eq_iff (nearest_nonneg _)]
  constructor
  · rw [← nearest_natCast hdiv]
    exact nearest_mono (Nat.cast_nonneg _) Nat.cast_div_le
  · -- The quotient is at least one part in b below the next whole number, and rounding moves it by
    -- less.
    have hnext : (a + 1 : ℚ) / b ≤ (a / b : ℕ) + 1 := by
      rw [div_le_iff₀ hb']
      exact_mod_cast Nat.lt_mul_of_div_lt (Nat.lt_succ_self (a / b)) hb
    have hpart : (a : ℚ) / b / 2 ^ 53 < 1 / b := by
      rw [div_right_comm]
      refine div_lt_div_of_pos_right ?_ hb'
      rw [div_lt_one (by positivity)]
      exact_mod_cast ha
    calc nearest (a / b) ≤ a / b + a / b / 2 ^ 53 := nearest_le_add ((one_le_div hb').mpr hle)
      _ < a / b + 1 / b := by linarith
      _ = (a + 1) / b := by rw [add_div]
      _ ≤ (a / b : ℕ) + 1 := hnext

/-! ## Negative numbers -/

/-- A rational number rounded to double precision. -/
def rounded (q : ℚ) : ℚ := if q < 0 then -nearest (-q) else nearest q

theorem rounded_of_nonneg (h : 0 ≤ q) : rounded q = nearest q := if_neg h.not_gt

@[simp] theorem rounded_zero : rounded 0 = 0 := by
  rw [rounded_of_nonneg le_rfl, nearest_zero]

/-- Rounding is the same on both sides of zero. -/
theorem rounded_neg (q : ℚ) : rounded (-q) = -rounded q := by
  rcases lt_trichotomy q 0 with h | rfl | h
  · rw [rounded_of_nonneg (by linarith), rounded, if_pos h, neg_neg]
  · rw [neg_zero, rounded_zero, neg_zero]
  · rw [rounded_of_nonneg h.le, rounded, if_pos (by linarith), neg_neg]

theorem rounded_nonneg (h : 0 ≤ q) : 0 ≤ rounded q := by
  rw [rounded_of_nonneg h]
  exact nearest_nonneg q

theorem rounded_mono : Monotone rounded := by
  intro q r h
  rcases le_or_gt 0 q with hq | hq
  · rw [rounded_of_nonneg hq, rounded_of_nonneg (hq.trans h)]
    exact nearest_mono hq h
  · rcases le_or_gt 0 r with hr | hr
    · have hnonneg : 0 ≤ rounded (-q) := rounded_nonneg (by linarith)
      rw [rounded_neg] at hnonneg
      exact (by linarith : rounded q ≤ 0).trans (rounded_nonneg hr)
    · rw [rounded, if_pos hq, rounded, if_pos hr]
      exact neg_le_neg (nearest_mono (by linarith) (by linarith))

theorem rounded_natCast {n : ℕ} (h : n < 2 ^ 53) : rounded n = n := by
  rw [rounded_of_nonneg (Nat.cast_nonneg n), nearest_natCast h]

theorem rounded_intCast {z : ℤ} (h : z.natAbs < 2 ^ 53) : rounded z = z := by
  rcases Int.natAbs_eq z with hz | hz
  · rw [hz, Int.cast_natCast, rounded_natCast h]
  · rw [hz, Int.cast_neg, Int.cast_natCast, rounded_neg, rounded_natCast h]

theorem rounded_one : rounded 1 = 1 := by
  exact_mod_cast rounded_natCast (Nat.one_lt_two_pow (by decide : 53 ≠ 0))

/-- A bound by a power of two holds also after rounding. -/
theorem abs_rounded_le (h : |q| ≤ 2 ^ k) : |rounded q| ≤ 2 ^ k := by
  have hkept : rounded (2 ^ k) = 2 ^ k := by
    rw [rounded_of_nonneg (by positivity), ← zpow_natCast, nearest_two_zpow (by omega)]
  obtain ⟨hlow, hhigh⟩ := abs_le.mp h
  have hlow' := rounded_mono hlow
  have hhigh' := rounded_mono hhigh
  rw [rounded_neg, hkept] at hlow'
  rw [hkept] at hhigh'
  exact abs_le.mpr ⟨hlow', hhigh'⟩

/-! ## Whole numbers -/

/-- The whole number that stands for a whole number in double precision. -/
def double (n : ℕ) : ℕ := ⌊rounded n⌋₊

theorem cast_double (n : ℕ) : (double n : ℚ) = rounded n := by
  obtain ⟨k, hk⟩ := exists_nearest_natCast n
  rw [double, rounded_of_nonneg (Nat.cast_nonneg n), hk, Nat.floor_natCast]

theorem double_mono : Monotone double := fun _ _ h =>
  Nat.floor_mono (rounded_mono (Nat.cast_le.mpr h))

theorem double_of_lt {n : ℕ} (h : n < 2 ^ 53) : double n = n := by
  rw [double, rounded_natCast h, Nat.floor_natCast]

/-- A power of two bounds the double of a count as it bounds the count. -/
theorem double_le {n : ℕ} (h : n ≤ 2 ^ k) : double n ≤ 2 ^ k := by
  have hbound : |(n : ℚ)| ≤ 2 ^ k := by
    rw [abs_of_nonneg (Nat.cast_nonneg n)]
    exact_mod_cast h
  have hle := (le_abs_self _).trans (abs_rounded_le hbound)
  rw [← cast_double] at hle
  exact_mod_cast hle

theorem one_le_double {n : ℕ} (h : 1 ≤ n) : 1 ≤ double n := by
  rw [← double_of_lt (Nat.one_lt_two_pow (by decide : 53 ≠ 0))]
  exact double_mono h

end Floating

end KeywordCensus
