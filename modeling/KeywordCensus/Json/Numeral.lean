import KeywordCensus.Json.Basic
import KeywordCensus.Text.Split

/-!
# Numerals of JSON documents

A numeral is an optional minus sign, an integer part without a leading zero, an optional fraction
and an optional exponent. A numeral with neither fraction nor exponent is a whole number if it fits
into 64 bits; every other one is read as a double-precision number: its leading digits, as many as
fit into 64 bits, are rounded to a number, which is then scaled by powers of ten, each of them
rounded. What becomes infinite on the way is refused.
-/

namespace KeywordCensus.Numeral

/-- The value of a decimal digit. -/
def digitValue (c : Char) : Nat := c.toNat - '0'.toNat

/-- The greatest number of 64 bits. -/
def limit : Nat := twoPow 64 - 1

/-- The leading digits collected so far, and the power of ten that stands for the digits left
out. -/
structure Significand where
  /-- The collected digits, read as one number of at most 64 bits. -/
  digits : Nat
  /-- The power of ten to scale by. -/
  exponent : Int
  /-- Whether a digit has been left out. -/
  full : Bool
  deriving DecidableEq, Repr

/-- Collect the digits of an integer part: a digit that no longer fits is left out, and with it all
that follow. -/
def collectWhole : Significand → List Char → Significand
  | acc, [] => acc
  | acc, c :: rest =>
    let next := acc.digits * 10 + digitValue c
    if acc.full ∨ limit < next then
      collectWhole ⟨acc.digits, acc.exponent + 1, true⟩ rest
    else collectWhole ⟨next, acc.exponent, false⟩ rest

/-- Collect the digits of a fraction, up to the first that no longer fits. -/
def collectFraction : Significand → List Char → Significand
  | acc, [] => acc
  | acc, c :: rest =>
    let next := acc.digits * 10 + digitValue c
    if limit < next then acc
    else collectFraction ⟨next, acc.exponent - 1, acc.full⟩ rest

/-- A power of ten as a double-precision number. -/
def powerOfTen (k : Nat) : Floating := Floating.ofNat .binary64 (tenPow k)

/-- Divide by `10 ^ 308` while the exponent is too small for one division, then divide once. -/
def scaleDown : Nat → Floating → Nat → Floating
  | 0, x, _ => x
  | steps + 1, x, k =>
    if k ≤ 308 then Floating.div .binary64 x (powerOfTen k)
    else scaleDown steps (Floating.div .binary64 x (powerOfTen 308)) (k - 308)

/-- The double-precision number `digits * 10 ^ exponent`, if it is finite. The scaling by
`10 ^ 308` is repeated only until nothing but zero can be left. -/
def scale (digits : Nat) (exponent : Int) : Option Floating :=
  let x := Floating.ofNat .binary64 digits
  if exponent < 0 then
    if exponent < -2000 then some (.finite false 0 FloatFormat.binary64.least)
    else some (scaleDown 8 x exponent.natAbs)
  else if digits = 0 then some x
  else if 308 < exponent then none
  else match Floating.mul .binary64 x (powerOfTen exponent.toNat) with
    | .infinite _ => none
    | y => some y

/-- Give a number its sign. -/
def signed (negative : Bool) (x : Floating) : JsonNumber :=
  .floating (if negative then Floating.neg x else x)

/-- A numeral without fraction and exponent. -/
def readWhole (negative : Bool) (whole : List Char) : Option JsonNumber :=
  let acc := collectWhole ⟨0, 0, false⟩ whole
  if acc.full then (scale acc.digits acc.exponent).map (signed negative)
  else if !negative then some (.whole acc.digits)
  else if acc.digits = 0 ∨ twoPow 63 < acc.digits then
    some (signed true (Floating.ofNat .binary64 acc.digits))
  else some (.whole (-acc.digits))

/-- The value of at least one digit and nothing else. -/
def readDigits (digits : List Char) : Option Nat :=
  if digits.isEmpty ∨ !digits.all Char.isDigit then none
  else some (digits.foldl (fun n c => n * 10 + digitValue c) 0)

/-- The value of an exponent part: an optional sign and at least one digit. -/
def readExponent : List Char → Option Int
  | '+' :: digits => (readDigits digits).map Int.ofNat
  | '-' :: digits => (readDigits digits).map Int.negOfNat
  | digits => (readDigits digits).map Int.ofNat

/-- The digits of an integer part and of a fraction. -/
def collect (whole : List Char) : Option (List Char) → Significand
  | none => collectWhole ⟨0, 0, false⟩ whole
  | some fraction => collectFraction (collectWhole ⟨0, 0, false⟩ whole) fraction

/-- The power of ten of an exponent part, if there is one. -/
def power? : Option (List Char) → Option Int
  | none => some 0
  | some part => readExponent part

/-- A numeral with a fraction, an exponent or both. -/
def readScaled (negative : Bool) (whole : List Char) (fraction : Option (List Char))
    (exponent : Option (List Char)) : Option JsonNumber := do
  let power ← power? exponent
  let acc := collect whole fraction
  (scale acc.digits (acc.exponent + power)).map (signed negative)

/-- Is this an integer part: digits without a superfluous leading zero? -/
def isIntegerPart : List Char → Bool
  | [] => false
  | ['0'] => true
  | c :: rest => c != '0' && (c :: rest).all Char.isDigit

/-- Does a character announce an exponent? -/
def isExponentMark (c : Char) : Bool := c = 'e' || c = 'E'

/-- Cut off a minus sign. -/
def cutSign : List Char → Bool × List Char
  | '-' :: rest => (true, rest)
  | cs => (false, cs)

/-- Read a numeral from behind its fraction on. -/
def readAfterFraction (negative : Bool) (whole fraction : List Char) :
    List Char → Option JsonNumber
  | [] => readScaled negative whole (some fraction) none
  | c :: rest =>
    if isExponentMark c then readScaled negative whole (some fraction) (some rest) else none

/-- Read a numeral from behind its integer part on. -/
def readAfterWhole (negative : Bool) (whole : List Char) : List Char → Option JsonNumber
  | [] => readWhole negative whole
  | c :: rest =>
    if c = '.' then
      let fraction := rest.takeWhile Char.isDigit
      if fraction.isEmpty then none
      else readAfterFraction negative whole fraction (rest.dropWhile Char.isDigit)
    else if isExponentMark c then readScaled negative whole none (some rest)
    else none

/-- Read a numeral, all of it. -/
def read (numeral : List Char) : Option JsonNumber :=
  let (negative, body) := cutSign numeral
  let whole := body.takeWhile Char.isDigit
  if isIntegerPart whole then readAfterWhole negative whole (body.dropWhile Char.isDigit)
  else none

example : read "-0".toList = some (.floating (.finite true 0 (-1074))) := by decide +kernel

example : read "18446744073709551615".toList = some (.whole 18446744073709551615) := by
  decide +kernel

example : read "1e400".toList = none := by decide +kernel

example : read "01".toList = none := by decide +kernel

example : read "1.".toList = none := by decide +kernel

end KeywordCensus.Numeral
