import KeywordCensus.Floating.Shortest
import KeywordCensus.Proofs.Floating.Range

/-!
# The range of shortest decimals

A shortest decimal is looked for on one grid after the other, from the place of the leading digit
downwards. Wherever it is found, it is at most one step of its grid above the number, and no step is
greater than the number's own bound: a shortest decimal is at most twice as large as that bound
(`atMost_shortest`). That tells where its first digit stands (`leading_le`).
-/

namespace KeywordCensus.Decimal

variable {m j k n : Nat} {q place : Int} {d : Decimal}

/-- Is a decimal at most so large? -/
def AtMost (y : Nat) (d : Decimal) : Prop := ScaledLe 10 d.digits d.exponent y

/-- The place of the first digit. -/
def leading (d : Decimal) : Int := length d.digits + d.exponent - 1

theorem length_pos (n : Nat) : 0 < length n := Nat.length_toDigits_pos

/-- A number is at least the power of ten that its first digit stands for. -/
theorem tenPow_length_le (hn : n ≠ 0) : 10 ^ (length n - 1) ≤ n := by
  rcases Nat.eq_zero_or_pos (length n - 1) with hone | hmore
  · rw [hone]
    exact Nat.pos_of_ne_zero hn
  · refine Nat.not_lt.mp fun hlt => ?_
    have hlength : length n ≤ length n - 1 := (Nat.length_toDigits_le_iff (by decide) hmore).mpr hlt
    omega

/-- **The first digit of a decimal stands no higher than its size allows.** -/
theorem leading_le {y : Nat} (hd : d.digits ≠ 0) (h : d.AtMost y) (hy : y < 10 ^ (j + 1)) :
    d.leading ≤ j := by
  have hfirst : ScaledLe 10 (1 * 10 ^ (length d.digits - 1)) d.exponent y := by
    rw [Nat.one_mul]
    exact Nat.le_trans (Nat.mul_le_mul_right _ (tenPow_length_le hd)) h
  rw [scaledLe_mul_pow (by decide)] at hfirst
  refine Int.not_lt.mp fun hlt => ?_
  have hpos := length_pos d.digits
  have hplace : ((j + 1 : Nat) : Int) ≤ d.exponent + (length d.digits - 1 : Nat) := by
    rw [leading] at hlt
    omega
  have hsmall := hfirst.anti hplace (by decide)
  rw [ScaledLe, Int.toNat_natCast, Int.toNat_neg_natCast, Nat.one_mul, Nat.pow_zero,
    Nat.mul_one] at hsmall
  omega

/-! ## The search -/

/-- Taking zeros over into the exponent changes nothing about the size. -/
theorem atMost_dropZerosUpTo {y : Nat} (most : Nat) (h : AtMost y ⟨n, place⟩) :
    AtMost y (dropZerosUpTo most n place) := by
  induction most generalizing n place with
  | zero => exact h
  | succ most ih =>
    rw [dropZerosUpTo]
    split
    · rename_i hzero
      refine ih ?_
      have hn : n / 10 * 10 ^ 1 = n := by omega
      show ScaledLe 10 (n / 10) (place + (1 : Nat)) y
      rw [← scaledLe_mul_pow (by decide), hn]
      exact h
    · exact h

/-- A hit on a grid is the last point below the number, or the first above it. -/
theorem neighbour?_le {fmt : FloatFormat} {digits : Nat} (h : neighbour? fmt m q place = some digits) :
    digits ≤ 4 * m * (twoPow (q - 2).toNat * tenPow (-place).toNat) /
      (tenPow place.toNat * twoPow (2 - q).toNat) + 1 := by
  unfold neighbour? at h
  simp only at h
  generalize 4 * m * (twoPow (q - 2).toNat * tenPow (-place).toNat) /
    (tenPow place.toNat * twoPow (2 - q).toNat) = below at h ⊢
  repeat' split at h
  all_goals cases h <;> omega

section Search

variable (hm : ScaledLe 2 m q (2 ^ k))

include hm

/-- The number on a grid is at most as large as the number. -/
theorem atMost_neighbour {fmt : FloatFormat} {digits : Nat} (hplace : ScaledLe 10 1 place (2 ^ k))
    (h : neighbour? fmt m q place = some digits) : AtMost (2 ^ (k + 1)) ⟨digits, place⟩ := by
  have hnumber : 4 * m * 2 ^ (q - 2).toNat ≤ 2 ^ k * 2 ^ (2 - q).toNat := by
    have hquarters : ScaledLe 2 (m * 2 ^ 2) (q - 2) (2 ^ k) := by
      rw [scaledLe_mul_pow (by decide), show q - 2 + ((2 : Nat) : Int) = q by omega]
      exact hm
    rw [ScaledLe, Int.neg_sub, Nat.mul_comm m] at hquarters
    exact hquarters
  have hstep : 10 ^ place.toNat ≤ 2 ^ k * 10 ^ (-place).toNat := by
    rw [ScaledLe, Nat.one_mul] at hplace
    exact hplace
  -- A neighbour is the quotient rounded down or one above it. Both bounds are scaled to the same
  -- unit.
  have hhit := neighbour?_le h
  have hbelow := Nat.div_mul_le_self (4 * m * (twoPow (q - 2).toNat * tenPow (-place).toNat))
    (tenPow place.toNat * twoPow (2 - q).toNat)
  refine Nat.le_of_mul_le_mul_right ?_ (Nat.two_pow_pos (2 - q).toNat)
  calc digits * 10 ^ place.toNat * 2 ^ (2 - q).toNat
      = digits * (10 ^ place.toNat * 2 ^ (2 - q).toNat) := Nat.mul_assoc ..
    _ ≤ 4 * m * (2 ^ (q - 2).toNat * 10 ^ (-place).toNat) +
          10 ^ place.toNat * 2 ^ (2 - q).toNat := by
        refine Nat.le_trans (Nat.mul_le_mul_right _ hhit) ?_
        rw [Nat.add_mul, Nat.one_mul]
        exact Nat.add_le_add_right hbelow _
    _ = 4 * m * 2 ^ (q - 2).toNat * 10 ^ (-place).toNat +
          10 ^ place.toNat * 2 ^ (2 - q).toNat := by rw [Nat.mul_assoc (4 * m)]
    _ ≤ 2 ^ k * 2 ^ (2 - q).toNat * 10 ^ (-place).toNat +
          2 ^ k * 10 ^ (-place).toNat * 2 ^ (2 - q).toNat :=
        Nat.add_le_add (Nat.mul_le_mul_right _ hnumber) (Nat.mul_le_mul_right _ hstep)
    _ = 2 ^ (k + 1) * 10 ^ (-place).toNat * 2 ^ (2 - q).toNat := by
        rw [Nat.pow_succ]
        grind

/-- The search for the shortest decimal ends with one within twice the bound, whichever grid it
stops at. -/
theorem atMost_shortestFrom {fmt : FloatFormat} (grids : Nat) (hplace : ScaledLe 10 1 place (2 ^ k)) :
    AtMost (2 ^ (k + 1)) (shortestFrom fmt m q grids place) := by
  induction grids generalizing place with
  | zero =>
    have hbelow := Nat.div_mul_le_self (m * twoPow q.toNat * tenPow (-place).toNat)
      (twoPow (-q).toNat * tenPow place.toNat)
    rw [shortestFrom]
    refine ScaledLe.trans_le (y := 2 ^ k) ?_ (Nat.pow_le_pow_right (by decide) (Nat.le_succ k))
    refine Nat.le_of_mul_le_mul_left ?_ (Nat.two_pow_pos (-q).toNat)
    rw [Nat.mul_left_comm]
    refine Nat.le_trans hbelow (Nat.le_trans (Nat.mul_le_mul_right _ hm) (Nat.le_of_eq ?_))
    rw [Nat.mul_comm (2 ^ k), Nat.mul_assoc]
    rfl
  | succ grids ih =>
    rw [shortestFrom]
    split
    · rename_i digits hdigits
      exact atMost_dropZerosUpTo _ (atMost_neighbour hm hplace hdigits)
    · exact ih (hplace.anti (Int.sub_le_self _ (by decide)) (by decide))

/-- The search begins at a place that is not above the number. -/
theorem scaledLe_leadingPlace : ScaledLe 10 1 (leadingPlace m q) (2 ^ k) := by
  rw [leadingPlace]
  simp only
  split
  · rename_i hwhole
    have hbound : m * twoPow q.toNat / twoPow (-q).toNat ≤ 2 ^ k :=
      Nat.div_le_of_le_mul (Nat.le_trans hm (Nat.le_of_eq (Nat.mul_comm ..)))
    generalize m * twoPow q.toNat / twoPow (-q).toNat = whole at hwhole hbound
    have hpos := length_pos whole
    have hplace : (length whole : Int) - 1 = (length whole - 1 : Nat) := by omega
    rw [hplace, ScaledLe, Int.toNat_natCast, Int.toNat_neg_natCast, Nat.one_mul, Nat.pow_zero,
      Nat.mul_one]
    exact Nat.le_trans (tenPow_length_le (Nat.pos_iff_ne_zero.mp hwhole)) hbound
  · rw [ScaledLe, Int.negOfNat_eq, Int.ofNat_eq_natCast, Int.toNat_neg_natCast]
    exact Nat.mul_le_mul (Nat.two_pow_pos k) (Nat.pow_pos (by decide))

/-- **A shortest decimal is at most twice as large as a bound of its number.** -/
theorem atMost_shortest (fmt : FloatFormat) : AtMost (2 ^ (k + 1)) (shortest fmt m q) :=
  atMost_shortestFrom hm 17 (scaledLe_leadingPlace hm)

end Search

end KeywordCensus.Decimal
