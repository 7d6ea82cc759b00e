import KeywordCensus.Power

/-!
# Binary floating-point numbers

Numbers of the IEEE 754 interchange formats as exact data: a sign, a significand and the exponent
of its last place. `round` sends a quotient of natural numbers to the nearest representable number,
a tie to the even significand; every arithmetic operation is the exact result, rounded once.

Main statements: `roundQuotient_mono` (rounding a quotient to a whole number keeps order) and
`roundQuotient_exact` (a whole quotient is kept).
-/

namespace KeywordCensus

/-- An interchange format, given by the width of its significand and of its exponent field. -/
structure FloatFormat where
  /-- Bits of the significand, the leading one included. -/
  precision : Nat
  /-- Bits of the exponent field. -/
  exponentBits : Nat
  deriving DecidableEq, Repr

/-- Double precision: 53 significand bits, 11 exponent bits. -/
def FloatFormat.binary64 : FloatFormat := ⟨53, 11⟩

/-- Single precision: 24 significand bits, 8 exponent bits. -/
def FloatFormat.binary32 : FloatFormat := ⟨24, 8⟩

/-- The exponent of the last place of the smallest numbers. -/
def FloatFormat.least (fmt : FloatFormat) : Int :=
  3 - twoPow (fmt.exponentBits - 1) - fmt.precision

/-- The exponent of the last place of the largest numbers. -/
def FloatFormat.greatest (fmt : FloatFormat) : Int :=
  twoPow (fmt.exponentBits - 1) - fmt.precision

/-- A floating-point datum: the finite one is `± significand * 2 ^ exponent`. -/
inductive Floating where
  /-- Not a number. -/
  | nan
  /-- An infinity with its sign. -/
  | infinite (negative : Bool)
  /-- A number with its sign, also for zero. -/
  | finite (negative : Bool) (significand : Nat) (exponent : Int)
  deriving DecidableEq, Repr, Inhabited

namespace Floating

/-! ## Rounding -/

/-- The whole number nearest to `a / b`, of two equally near ones the even one. -/
def roundQuotient (a b : Nat) : Nat :=
  let q := a / b
  let r := a % b
  if 2 * r < b then q else if b < 2 * r then q + 1 else q + q % 2

theorem roundQuotient_exact (q b : Nat) (hb : 0 < b) : roundQuotient (q * b) b = q := by
  simp [roundQuotient, Nat.mul_div_cancel q hb, hb]

/-- Rounding to a whole number keeps order. -/
theorem roundQuotient_mono {a a' b : Nat} (hb : 0 < b) (h : a ≤ a') :
    roundQuotient a b ≤ roundQuotient a' b := by
  have ha := Nat.div_add_mod a b
  have ha' := Nat.div_add_mod a' b
  have hr := Nat.mod_lt a hb
  have hr' := Nat.mod_lt a' hb
  have hq : a / b ≤ a' / b := Nat.div_le_div_right h
  have hpar := Nat.mod_lt (a / b) (show 0 < 2 by decide)
  rcases Nat.lt_or_eq_of_le hq with hlt | heq
  · unfold roundQuotient
    simp only
    split
    · split
      · omega
      · split <;> omega
    · split
      · split
        · omega
        · split <;> omega
      · split
        · omega
        · split <;> omega
  · have hmod : a % b ≤ a' % b := by
      rw [heq] at ha
      omega
    unfold roundQuotient
    simp only [← heq]
    split
    · split
      · omega
      · split <;> omega
    · split
      · exact Nat.le_of_eq (by rw [if_neg (by omega), if_pos (by omega)])
      · rw [if_neg (by omega)]
        split <;> omega

/-- Numerator and denominator of `num / den` counted in units of `2 ^ e`. -/
def inUnits (num den : Nat) (e : Int) : Nat × Nat :=
  (num * twoPow (-e).toNat, den * twoPow e.toNat)

/-- The exponent of the leading bit of a positive quotient. -/
def leadingBit (num den : Nat) : Int :=
  let k : Int := (Nat.log2 num : Int) - Nat.log2 den
  let u := inUnits num den k
  if u.2 ≤ u.1 then k else k - 1

/-- The number of the format nearest to `± num / den`; a tie goes to the even significand, and what
is too large becomes infinite. -/
def round (fmt : FloatFormat) (negative : Bool) (num den : Nat) : Floating :=
  if num = 0 then .finite negative 0 fmt.least
  else
    let e := max fmt.least (leadingBit num den - (fmt.precision - 1))
    let u := inUnits num den e
    let q := roundQuotient u.1 u.2
    let carried := q = twoPow fmt.precision
    let significand := if carried then twoPow (fmt.precision - 1) else q
    let exponent := if carried then e + 1 else e
    if fmt.greatest < exponent then .infinite negative
    else .finite negative significand exponent

/-- The number of the format nearest to a natural number. -/
def ofNat (fmt : FloatFormat) (n : Nat) : Floating := round fmt false n 1

/-! ## Arithmetic -/

/-- The number with the other sign. -/
def neg : Floating → Floating
  | .nan => .nan
  | .infinite s => .infinite (!s)
  | .finite s m e => .finite (!s) m e

/-- The signed significand of a finite number in units of `2 ^ unit`, for `unit ≤ e`. -/
def signedUnits (negative : Bool) (m : Nat) (e unit : Int) : Int :=
  let size : Int := m * twoPow (e - unit).toNat
  if negative then -size else size

/-- The sum, rounded. An exact zero is negative only if both terms are. -/
def add (fmt : FloatFormat) : Floating → Floating → Floating
  | .nan, _ => .nan
  | _, .nan => .nan
  | .infinite s, .infinite s' => if s = s' then .infinite s else .nan
  | .infinite s, .finite .. => .infinite s
  | .finite .., .infinite s => .infinite s
  | .finite s m e, .finite s' m' e' =>
    let unit := min e e'
    let sum := signedUnits s m e unit + signedUnits s' m' e' unit
    if sum = 0 then .finite (s && s') 0 fmt.least
    else round fmt (decide (sum < 0)) (sum.natAbs * twoPow unit.toNat) (twoPow (-unit).toNat)

/-- The difference, rounded. -/
def sub (fmt : FloatFormat) (x y : Floating) : Floating := add fmt x (neg y)

/-- The product, rounded. -/
def mul (fmt : FloatFormat) : Floating → Floating → Floating
  | .nan, _ => .nan
  | _, .nan => .nan
  | .infinite s, .infinite s' => .infinite (s != s')
  | .infinite s, .finite s' m _ => if m = 0 then .nan else .infinite (s != s')
  | .finite s m _, .infinite s' => if m = 0 then .nan else .infinite (s != s')
  | .finite s m e, .finite s' m' e' =>
    round fmt (s != s') (m * m' * twoPow (e + e').toNat) (twoPow (-(e + e')).toNat)

/-- The quotient, rounded. -/
def div (fmt : FloatFormat) : Floating → Floating → Floating
  | .nan, _ => .nan
  | _, .nan => .nan
  | .infinite _, .infinite _ => .nan
  | .infinite s, .finite s' _ _ => .infinite (s != s')
  | .finite s _ _, .infinite s' => .finite (s != s') 0 fmt.least
  | .finite s m e, .finite s' m' e' =>
    if m' = 0 then if m = 0 then .nan else .infinite (s != s')
    else round fmt (s != s') (m * twoPow (e - e').toNat) (m' * twoPow (e' - e).toNat)

/-! ## Comparison -/

/-- Is `x` less than `y`? Nothing is less or greater than `nan`. -/
def lt : Floating → Floating → Bool
  | .nan, _ => false
  | _, .nan => false
  | .infinite s, .infinite s' => s && !s'
  | .infinite s, .finite .. => s
  | .finite .., .infinite s => !s
  | .finite s m e, .finite s' m' e' =>
    let unit := min e e'
    decide (signedUnits s m e unit < signedUnits s' m' e' unit)

/-- Are the two numbers equal? Both zeros are, and `nan` equals nothing. -/
def eq : Floating → Floating → Bool
  | .nan, _ => false
  | _, .nan => false
  | x, y => !lt x y && !lt y x

/-- The order of two numbers, for a sort. -/
def order (x y : Floating) : Ordering :=
  if lt x y then .lt else if lt y x then .gt else .eq

/-- The number moved into the interval from zero to one; `nan` and both zeros stay. -/
def clampUnit (x : Floating) : Floating :=
  if lt x (.finite false 0 0) then .finite false 0 FloatFormat.binary64.least
  else if lt (.finite false 1 0) x then ofNat .binary64 1
  else x

/-! ## Whole parts -/

/-- The whole part of the size of a finite number. -/
def wholePart (m : Nat) (e : Int) : Nat := m * twoPow e.toNat / twoPow (-e).toNat

/-- The number without its fraction. -/
def trunc (fmt : FloatFormat) : Floating → Floating
  | .finite s m e => round fmt s (wholePart m e) 1
  | x => x

/-- The nearest whole number, a half going away from zero. -/
def nearestWhole (fmt : FloatFormat) : Floating → Floating
  | .finite s m e =>
    if 0 ≤ e then .finite s m e
    else round fmt s (wholePart (2 * m + twoPow (-e).toNat) (e - 1)) 1
  | x => x

/-- The whole part as a byte: what is below zero gives 0, what is above 255 gives 255, and `nan`
gives 0. -/
def toByte : Floating → Nat
  | .nan => 0
  | .infinite s => if s then 0 else 255
  | .finite s m e => if s then 0 else min 255 (wholePart m e)

/-! ## Bit patterns -/

/-- Put the sign bit in front of a pattern. -/
def withSign (fmt : FloatFormat) (negative : Bool) (pattern : Nat) : Nat :=
  if negative then twoPow (fmt.precision + fmt.exponentBits - 1) + pattern else pattern

/-- The bit pattern of a datum. -/
def toBits (fmt : FloatFormat) : Floating → Nat
  | .nan => (twoPow (fmt.exponentBits + 1) - 1) * twoPow (fmt.precision - 2)
  | .infinite s => withSign fmt s ((twoPow fmt.exponentBits - 1) * twoPow (fmt.precision - 1))
  | .finite s m e =>
    let hidden := twoPow (fmt.precision - 1)
    if m < hidden then withSign fmt s m
    else withSign fmt s ((e - fmt.least + 1).toNat * hidden + (m - hidden))

/-- The datum with a given bit pattern. -/
def ofBits (fmt : FloatFormat) (bits : Nat) : Floating :=
  let hidden := twoPow (fmt.precision - 1)
  let fraction := bits % hidden
  let field := bits / hidden % twoPow fmt.exponentBits
  let negative := decide (twoPow (fmt.precision + fmt.exponentBits - 1) ≤ bits)
  if field = twoPow fmt.exponentBits - 1 then
    if fraction = 0 then .infinite negative else .nan
  else if field = 0 then .finite negative fraction fmt.least
  else .finite negative (hidden + fraction) (fmt.least + field - 1)

example : toBits .binary64 (ofNat .binary64 3) = 0x4008000000000000 := by decide +kernel

example : toBits .binary64 (div .binary64 (ofNat .binary64 4) (ofNat .binary64 3))
    = 0x3ff5555555555555 := by decide +kernel

example : toBits .binary64 (add .binary64 (div .binary64 (ofNat .binary64 1) (ofNat .binary64 10))
    (div .binary64 (ofNat .binary64 2) (ofNat .binary64 10))) = 0x3fd3333333333334 := by
  decide +kernel

example : ofBits .binary64 1 = .finite false 1 (-1074) := by decide +kernel

example : ofBits .binary64 0x7fefffffffffffff = .finite false (twoPow 53 - 1) 971 := by
  decide +kernel

end Floating

end KeywordCensus
