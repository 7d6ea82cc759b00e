import KeywordCensus.Floating.Basic

/-!
# Shortest decimals

The decimal with the fewest digits that reads back as a given binary floating-point number; among
those the nearest, of two equally near ones the even one. The search is exact: the reals that round
to `m * 2 ^ q` form an interval whose ends belong to it iff `m` is even, and on the grid of
`n`-digit decimals only the two neighbours of the number can lie in it if any does.
-/

namespace KeywordCensus

/-- The decimal `digits * 10 ^ exponent`. -/
structure Decimal where
  /-- The digits, read as one number. -/
  digits : Nat
  /-- The power of ten of the last digit. -/
  exponent : Int
  deriving DecidableEq, Repr

namespace Decimal

/-- How many decimal digits a number has; zero has one. -/
def length (n : Nat) : Nat := (Nat.toDigits 10 n).length

/-- Take at most so many trailing zeros of the digits over into the exponent. -/
def dropZerosUpTo : Nat → Nat → Int → Decimal
  | 0, n, k => ⟨n, k⟩
  | most + 1, n, k => if n ≠ 0 ∧ n % 10 = 0 then dropZerosUpTo most (n / 10) (k + 1) else ⟨n, k⟩

/-- Take trailing zeros of the digits over into the exponent. -/
def dropZeros (d : Decimal) : Decimal := dropZerosUpTo (length d.digits) d.digits d.exponent

/-- The decimal exponent of the leading digit of `m * 2 ^ q`, for positive `m`. -/
def leadingPlace (m : Nat) (q : Int) : Int :=
  let whole := m * twoPow q.toNat / twoPow (-q).toNat
  if 0 < whole then length whole - 1
  else
    let inverse := (twoPow (-q).toNat + m - 1) / m
    Int.negOfNat (length (inverse - 1))

/-- The neighbour of `m * 2 ^ q` on the grid of multiples of `10 ^ k` that reads back, the nearer
one if both do. -/
def neighbour? (fmt : FloatFormat) (m : Nat) (q k : Int) : Option Nat :=
  let mid := 4 * m
  let low := mid - (if m = twoPow (fmt.precision - 1) ∧ fmt.least < q then 1 else 2)
  let high := mid + 2
  let ten := tenPow k.toNat * twoPow (2 - q).toNat
  let two := twoPow (q - 2).toNat * tenPow (-k).toNat
  let below := mid * two / ten
  let above := below + 1
  let closed := m % 2 = 0
  let belowFits := 0 < below ∧ (low * two < below * ten ∨ closed ∧ low * two = below * ten)
  let aboveFits := above * ten < high * two ∨ closed ∧ above * ten = high * two
  if belowFits then
    if aboveFits then
      let down := mid * two - below * ten
      let up := above * ten - mid * two
      some (if down < up then below else if up < down then above else below + below % 2)
    else some below
  else if aboveFits then some above
  else none

/-- The first hit on the grids of multiples of `10 ^ k`, `10 ^ (k - 1)`, and so on. -/
def shortestFrom (fmt : FloatFormat) (m : Nat) (q : Int) : Nat → Int → Decimal
  | 0, k => ⟨m * twoPow q.toNat * tenPow (-k).toNat / (twoPow (-q).toNat * tenPow k.toNat), k⟩
  | grids + 1, k =>
    match neighbour? fmt m q k with
    | some digits => dropZeros ⟨digits, k⟩
    | none => shortestFrom fmt m q grids (k - 1)

/-- The shortest decimal that reads back as `m * 2 ^ q`, for positive `m`; seventeen digits always
do, in both formats. -/
def shortest (fmt : FloatFormat) (m : Nat) (q : Int) : Decimal :=
  shortestFrom fmt m q 17 (leadingPlace m q)

end Decimal

/-- Which numbers are written with a point at its place and which with an exponent, and what follows
a whole number. -/
structure DecimalStyle where
  /-- The least and the greatest exponent of the leading digit that is written positionally; without
  bounds every number is. -/
  positional : Option (Int × Int)
  /-- The end of a whole number in positional form. -/
  wholeEnd : List Char

namespace DecimalStyle

/-- Display of a number in running text: never an exponent, no point in a whole number. -/
def plain : DecimalStyle := ⟨none, []⟩

/-- A number in a JSON document: positional from `1e-5` to below `1e16`, and whole numbers end in
`.0`. -/
def json : DecimalStyle := ⟨some (-5, 15), ['.', '0']⟩

/-- Write a decimal with a point at its place. -/
def writePositional (style : DecimalStyle) (digits : List Char) (exponent : Int) : List Char :=
  let point : Int := digits.length + exponent
  if point ≤ 0 then ['0', '.'] ++ List.replicate (-point).toNat '0' ++ digits
  else if 0 ≤ exponent then digits ++ List.replicate exponent.toNat '0' ++ style.wholeEnd
  else digits.take point.toNat ++ '.' :: digits.drop point.toNat

/-- Write a decimal with one digit before the point and a signed exponent. -/
def writeScientific (digits : List Char) (leading : Int) : List Char :=
  let fraction := digits.drop 1
  digits.take 1 ++ (if fraction.isEmpty then [] else '.' :: fraction) ++ 'e' ::
    (if leading < 0 then '-' else '+') :: Nat.toDigits 10 leading.natAbs

/-- Write a decimal. -/
def write (style : DecimalStyle) (d : Decimal) : List Char :=
  if d.digits = 0 then '0' :: style.wholeEnd
  else
    let digits := Nat.toDigits 10 d.digits
    let leading : Int := digits.length + d.exponent - 1
    match style.positional with
    | none => writePositional style digits d.exponent
    | some (lo, hi) =>
      if lo ≤ leading ∧ leading ≤ hi then writePositional style digits d.exponent
      else writeScientific digits leading

/-- Write a floating-point number by its shortest decimal. -/
def writeFloating (style : DecimalStyle) (fmt : FloatFormat) : Floating → List Char
  | .nan => ['N', 'a', 'N']
  | .infinite s => (if s then ['-'] else []) ++ ['i', 'n', 'f']
  | .finite s m e =>
    (if s then ['-'] else []) ++
      style.write (if m = 0 then ⟨0, 0⟩ else Decimal.shortest fmt m e)

end DecimalStyle

end KeywordCensus
