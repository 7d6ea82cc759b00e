import KeywordCensus.Floating.Basic
import Mathlib.Algebra.Group.Nat.Defs

/-!
# The range of floating-point numbers

How large a number can be is said with powers of two (`Floating.AtMost`), which survive the
operations: rounding at most doubles (`atMost_round`), a product has the sum of the exponents
(`atMost_mul`), and a quotient by a number that is not below one is no larger than what is divided
(`atMost_div`). Such a number is finite. The bounds are far from sharp; they keep the numbers of a
report away from the infinities.

Exponents are integers and powers are natural numbers, so a comparison is made with the negative part
of the exponent on the other side (`ScaledLe`). Any other way to split the exponent says the same
(`scaledLe_iff`).
-/

namespace KeywordCensus

/-! ## Scaled numbers -/

section Scaled

variable {b x x' y y' : Nat} {e e' : Int}

/-- Is `x * b ^ e` at most `y`? -/
def ScaledLe (b x : Nat) (e : Int) (y : Nat) : Prop := x * b ^ e.toNat ≤ y * b ^ (-e).toNat

/-- However an exponent is split into two powers, the comparison is the same. -/
theorem scaledLe_iff (hb : 0 < b) {p q : Nat} (h : (p : Int) - q = e) :
    ScaledLe b x e y ↔ x * b ^ p ≤ y * b ^ q := by
  -- The least powers are those of the definition.
  obtain ⟨d, hp, hq⟩ : ∃ d, p = e.toNat + d ∧ q = (-e).toNat + d :=
    ⟨p - e.toNat, by omega, by omega⟩
  rw [hp, hq, Nat.pow_add, Nat.pow_add, ← Nat.mul_assoc, ← Nat.mul_assoc,
    Nat.mul_le_mul_right_iff (Nat.pow_pos hb), ScaledLe]

theorem ScaledLe.mul (h : ScaledLe b x e y) (h' : ScaledLe b x' e' y') (hb : 0 < b) :
    ScaledLe b (x * x') (e + e') (y * y') := by
  refine (scaledLe_iff hb (p := e.toNat + e'.toNat) (q := (-e).toNat + (-e').toNat)
    (by omega)).mpr ?_
  rw [Nat.pow_add, Nat.pow_add, Nat.mul_mul_mul_comm, Nat.mul_mul_mul_comm y]
  exact Nat.mul_le_mul h h'

theorem ScaledLe.trans_le (h : ScaledLe b x e y) (hy : y ≤ y') : ScaledLe b x e y' :=
  Nat.le_trans h (Nat.mul_le_mul_right _ hy)

/-- A smaller exponent gives a smaller number. -/
theorem ScaledLe.anti (h : ScaledLe b x e y) (he : e' ≤ e) (hb : 0 < b) : ScaledLe b x e' y :=
  Nat.le_trans (Nat.mul_le_mul_left _ (Nat.pow_le_pow_right hb (by omega)))
    (Nat.le_trans h (Nat.mul_le_mul_left _ (Nat.pow_le_pow_right hb (by omega))))

/-- A power of the base can be taken over into the exponent. -/
theorem scaledLe_mul_pow (hb : 0 < b) (k : Nat) :
    ScaledLe b (x * b ^ k) e y ↔ ScaledLe b x (e + k) y := by
  rw [scaledLe_iff hb (p := k + e.toNat) (q := (-e).toNat) (by omega : _ = e + k), Nat.pow_add,
    ← Nat.mul_assoc, ScaledLe]

/-- A power of the base on the right of a bound comes off the exponent on its left. -/
theorem scaledLe_pow_mul (hb : 0 < b) (k : Nat) :
    ScaledLe b x e (y * b ^ k) ↔ ScaledLe b x (e - k) y := by
  rw [scaledLe_iff hb (p := e.toNat) (q := k + (-e).toNat) (by omega : _ = e - k), Nat.pow_add,
    ← Nat.mul_assoc, ScaledLe]

theorem scaledLe_zero (e : Int) : ScaledLe b 0 e y := by
  rw [ScaledLe, Nat.zero_mul]
  exact Nat.zero_le _

end Scaled

namespace Floating

/-! ## Rounding -/

section Rounding

variable {num den k : Nat} {negative : Bool} {x y : Floating}

/-- Is a number finite, and is its size at most a power of two? -/
def AtMost (k : Nat) (x : Floating) : Prop :=
  ∃ s m e, x = .finite s m e ∧ ScaledLe 2 m e (2 ^ k)

/-- Is a number finite and its size not below one? -/
def AtLeastOne (x : Floating) : Prop := ∃ s m e, x = .finite s m e ∧ ScaledLe 2 1 (-e) m

/-- Rounding adds less than one. -/
theorem roundQuotient_mul_le (a b : Nat) : roundQuotient a b * b ≤ a + b := by
  have hdiv : a / b * b ≤ a := Nat.div_mul_le_self a b
  have hround : roundQuotient a b ≤ a / b + 1 := by
    have hpar := Nat.mod_lt (a / b) (show 0 < 2 by decide)
    unfold roundQuotient
    simp only
    split
    · omega
    · split <;> omega
  calc roundQuotient a b * b ≤ (a / b + 1) * b := Nat.mul_le_mul_right b hround
    _ = a / b * b + b := by rw [Nat.add_mul, Nat.one_mul]
    _ ≤ a + b := Nat.add_le_add_right hdiv b

/-- The leading bit of a quotient that is at most a power of two. -/
theorem leadingBit_le (hnum : num ≠ 0) (h : num ≤ 2 ^ k * den) : leadingBit num den ≤ k := by
  have hden : den < 2 ^ (den.log2 + 1) := Nat.lt_log2_self
  have hlt : num < 2 ^ (k + den.log2 + 1) := by
    rw [Nat.add_assoc, Nat.pow_add]
    exact Nat.lt_of_le_of_lt h ((Nat.mul_lt_mul_left (Nat.two_pow_pos k)).mpr hden)
  have hlog : num.log2 < k + den.log2 + 1 := (Nat.log2_lt hnum).mpr hlt
  rw [leadingBit]
  split <;> omega

/-- A significand in units of a power of two that is small enough is at most twice the quotient. -/
theorem scaledLe_roundQuotient {e : Int} (he : e ≤ k) (hden : 0 < den) (h : num ≤ 2 ^ k * den) :
    ScaledLe 2 (roundQuotient (inUnits num den e).1 (inUnits num den e).2) e (2 ^ (k + 1)) := by
  have hunit : 2 ^ e.toNat ≤ 2 ^ k * 2 ^ (-e).toNat := by
    rw [← Nat.pow_add]
    exact Nat.pow_le_pow_right (by decide) (by omega)
  refine Nat.le_of_mul_le_mul_left ?_ hden
  calc den * (roundQuotient (inUnits num den e).1 (inUnits num den e).2 * 2 ^ e.toNat)
      = roundQuotient (inUnits num den e).1 (inUnits num den e).2 * (inUnits num den e).2 :=
        Nat.mul_left_comm ..
    _ ≤ num * 2 ^ (-e).toNat + den * 2 ^ e.toNat := roundQuotient_mul_le _ _
    _ ≤ 2 ^ k * den * 2 ^ (-e).toNat + den * (2 ^ k * 2 ^ (-e).toNat) :=
        Nat.add_le_add (Nat.mul_le_mul_right _ h) (Nat.mul_le_mul_left _ hunit)
    _ = den * (2 ^ (k + 1) * 2 ^ (-e).toNat) := by
        rw [Nat.pow_succ]
        grind

/-- The exponent of the last place that is kept. -/
def place (num den : Nat) : Int :=
  max FloatFormat.binary64.least (leadingBit num den - ((FloatFormat.binary64.precision : Int) - 1))

/-- The quotient in units of the last place, rounded. -/
def units (num den : Nat) : Nat :=
  roundQuotient (inUnits num den (place num den)).1 (inUnits num den (place num den)).2

/-- A quotient within a power of two has its last place below that power. -/
theorem place_lt (hnum : num ≠ 0) (h : num ≤ 2 ^ k * den) : place num den < k := by
  have hlead := leadingBit_le hnum h
  have hleast : FloatFormat.binary64.least = -1074 := by decide
  have hprecision : FloatFormat.binary64.precision = 53 := rfl
  rw [place, hleast, hprecision]
  omega

/-- **What is not too large stays finite**: it is given in units of the last place, or of the next
one if rounding carries over. -/
theorem round_eq (hnum : num ≠ 0) (h : num ≤ 2 ^ k * den) (hk : k ≤ 1000) :
    round .binary64 negative num den = .finite negative (units num den) (place num den) ∨
      units num den = 2 ^ 52 * 2 ^ 1 ∧
        round .binary64 negative num den = .finite negative (2 ^ 52) (place num den + 1) := by
  have hgreatest : ¬ FloatFormat.binary64.greatest < place num den + 1 := by
    have hlead := leadingBit_le hnum h
    have hleast : FloatFormat.binary64.least = -1074 := by decide
    have hmost : FloatFormat.binary64.greatest = 971 := by decide
    have hprecision : FloatFormat.binary64.precision = 53 := rfl
    rw [place, hleast, hmost, hprecision]
    omega
  have hround : round .binary64 negative num den =
      let carried := units num den = twoPow FloatFormat.binary64.precision
      let significand := if carried then 2 ^ 52 else units num den
      let exponent := if carried then place num den + 1 else place num den
      if FloatFormat.binary64.greatest < exponent then .infinite negative
      else .finite negative significand exponent := if_neg hnum
  rw [hround]
  by_cases hcarried : units num den = twoPow FloatFormat.binary64.precision
  · simp only [if_pos hcarried, if_neg hgreatest]
    exact .inr ⟨hcarried, trivial⟩
  · simp only [if_neg hcarried]
    rw [if_neg (by omega)]
    exact .inl rfl

/-- **Rounding at most doubles.** -/
theorem atMost_round (hden : 0 < den) (h : num ≤ 2 ^ k * den) (hk : k ≤ 1000) :
    AtMost (k + 1) (round .binary64 negative num den) := by
  by_cases hnum : num = 0
  · rw [round, if_pos hnum]
    exact ⟨_, _, _, rfl, scaledLe_zero _⟩
  have hunits : ScaledLe 2 (units num den) (place num den) (2 ^ (k + 1)) :=
    scaledLe_roundQuotient (Int.le_of_lt (place_lt hnum h)) hden h
  rcases round_eq hnum h hk with hround | ⟨hcarried, hround⟩
  · exact ⟨_, _, _, hround, hunits⟩
  · rw [hcarried, scaledLe_mul_pow (by decide)] at hunits
    exact ⟨_, _, _, hround, hunits⟩

theorem atMost_ofNat {n : Nat} (h : n ≤ 2 ^ k) (hk : k ≤ 1000) :
    AtMost (k + 1) (ofNat .binary64 n) :=
  atMost_round Nat.one_pos (Nat.le_trans h (Nat.le_of_eq (Nat.mul_one _).symm)) hk

theorem leadingBit_one {n : Nat} (hn : n ≠ 0) : leadingBit n 1 = n.log2 := by
  have hlog : twoPow n.log2 ≤ n := Nat.log2_self_le hn
  have hunit : ((n.log2 : Int) - (Nat.log2 1 : Int)) = n.log2 := by
    rw [show Nat.log2 1 = 0 from rfl]
    omega
  rw [leadingBit]
  simp only [hunit, inUnits, Int.toNat_natCast, Int.toNat_neg_natCast]
  rw [if_pos]
  rw [Nat.one_mul]
  exact Nat.le_trans hlog (Nat.le_of_eq (Nat.mul_one n).symm)

/-- A positive number is not rounded below one. -/
theorem atLeastOne_ofNat {n : Nat} (hn : n ≠ 0) (h : n ≤ 2 ^ k) (hk : k ≤ 1000) :
    AtLeastOne (ofNat .binary64 n) := by
  have hplace : 2 ^ (place n 1).toNat ≤ n := by
    refine Nat.le_trans (Nat.pow_le_pow_right (by decide) ?_) (Nat.log2_self_le hn)
    have hleast : FloatFormat.binary64.least = -1074 := by decide
    have hprecision : FloatFormat.binary64.precision = 53 := rfl
    rw [place, leadingBit_one hn, hleast, hprecision]
    omega
  have hunits : 2 ^ (-place n 1).toNat ≤ units n 1 := by
    -- The number has at least as many units as one has.
    have hpos : 0 < 1 * twoPow (place n 1).toNat := Nat.mul_pos Nat.one_pos (twoPow_pos _)
    rw [← roundQuotient_exact (2 ^ (-place n 1).toNat) _ hpos]
    refine roundQuotient_mono hpos ?_
    rw [Nat.one_mul, Nat.mul_comm]
    exact Nat.mul_le_mul_right _ hplace
  have hone : ScaledLe 2 1 (-place n 1) (units n 1) := by
    rw [ScaledLe, Nat.one_mul]
    exact Nat.le_trans hunits (Nat.le_mul_of_pos_right _ (Nat.two_pow_pos _))
  rcases round_eq hn (Nat.le_trans h (Nat.le_of_eq (Nat.mul_one _).symm)) hk with
    hround | ⟨hcarried, hround⟩
  · exact ⟨_, _, _, hround, hone⟩
  · -- A carry moves the point by one place.
    rw [hcarried, scaledLe_pow_mul (by decide)] at hone
    refine ⟨_, _, _, hround, ?_⟩
    rw [Int.neg_add]
    exact hone

/-! ## Arithmetic -/

/-- Products stay within the product of the bounds, up to one doubling for the rounding. -/
theorem atMost_mul {j : Nat} (hx : AtMost j x) (hy : AtMost k y) (h : j + k ≤ 1000) :
    AtMost (j + k + 1) (mul .binary64 x y) := by
  obtain ⟨s, m, e, rfl, hm⟩ := hx
  obtain ⟨s', m', e', rfl, hm'⟩ := hy
  have hproduct := hm.mul hm' (by decide)
  rw [← Nat.pow_add] at hproduct
  exact atMost_round (twoPow_pos _) hproduct h

/-- Dividing by at least one stays within the bound, up to one doubling for the rounding. -/
theorem atMost_div (hx : AtMost k x) (hy : AtLeastOne y) (h : k ≤ 1000) :
    AtMost (k + 1) (div .binary64 x y) := by
  obtain ⟨s, m, e, rfl, hm⟩ := hx
  obtain ⟨s', m', e', rfl, hm'⟩ := hy
  have hpos : m' ≠ 0 := by
    rintro rfl
    rw [ScaledLe, Nat.zero_mul, Nat.one_mul] at hm'
    exact absurd (Nat.two_pow_pos _) (Nat.not_lt.mpr hm')
  have hquotient : m * 2 ^ (e - e').toNat ≤ 2 ^ k * (m' * 2 ^ (e' - e).toNat) := by
    have hscaled := hm.mul hm' (by decide)
    rw [ScaledLe, Nat.mul_one, ← Int.sub_eq_add_neg, Int.neg_sub, Nat.mul_assoc] at hscaled
    exact hscaled
  rw [div, if_neg hpos]
  exact atMost_round (Nat.mul_pos (Nat.pos_of_ne_zero hpos) (twoPow_pos _)) hquotient h

end Rounding

end Floating

end KeywordCensus
