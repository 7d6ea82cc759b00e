import KeywordCensus.Floating.Shortest

/-!
# Colours

A colour has a red, a green and a blue channel of one byte each. It is written with six hexadecimal
digits, or as a style value with an optional opacity.
-/

namespace KeywordCensus

/-- A colour by its channels. -/
structure Colour where
  /-- Red. -/
  red : UInt8
  /-- Green. -/
  green : UInt8
  /-- Blue. -/
  blue : UInt8
  deriving DecidableEq, Repr, Inhabited

namespace Colour

/-- Full green. -/
def pureGreen : Colour := ⟨0, 255, 0⟩

/-- Full red. -/
def pureRed : Colour := ⟨255, 0, 0⟩

/-- Red and green in equal parts. -/
def yellow : Colour := ⟨255, 255, 0⟩

/-- Red with less green. -/
def hotOrange : Colour := ⟨255, 100, 0⟩

/-! ## Hexadecimal form -/

/-- A hexadecimal digit, letters in upper case. -/
def hexDigit (n : Nat) : Char :=
  if n < 10 then Char.ofNat ('0'.toNat + n) else Char.ofNat ('A'.toNat + (n - 10))

/-- The value of a hexadecimal digit in either case. -/
def hexValue? (c : Char) : Option Nat :=
  if c.isDigit then some (c.toNat - '0'.toNat)
  else if 'a' ≤ c ∧ c ≤ 'f' then some (c.toNat - 'a'.toNat + 10)
  else if 'A' ≤ c ∧ c ≤ 'F' then some (c.toNat - 'A'.toNat + 10)
  else none

/-- The two digits of a channel. -/
def writeChannel (n : UInt8) : List Char := [hexDigit (n.toNat / 16), hexDigit (n.toNat % 16)]

/-- A hash sign and the two digits of each channel. -/
def writeHex (c : Colour) : List Char :=
  '#' :: writeChannel c.red ++ writeChannel c.green ++ writeChannel c.blue

/-- The hexadecimal form of a colour. -/
def toHex (c : Colour) : String := String.ofList (writeHex c)

/-- How reading a hexadecimal form fails to give a colour. -/
inductive HexFailure where
  /-- The text is no colour. -/
  | notAColour
  /-- A pair of bytes splits a character in two, and reading breaks off. -/
  | splitCharacter
  deriving DecidableEq, Repr

/-- Take the characters that two bytes hold from the front: none if the cut splits a character. -/
def takeTwoBytes? : List Char → Option (List Char × List Char)
  | [] => none
  | c :: rest =>
    if c.utf8Size = 2 then some ([c], rest)
    else if c.utf8Size = 1 then
      match rest with
      | d :: rest => if d.utf8Size = 1 then some ([c, d], rest) else none
      | [] => none
    else none

/-- The value of a channel: two digits, or a plus sign and one digit. -/
def readChannel? : List Char → Option UInt8
  | ['+', d] => (hexValue? d).map UInt8.ofNat
  | [a, b] => do
    let high ← hexValue? a
    let low ← hexValue? b
    some (UInt8.ofNat (high * 16 + low))
  | _ => none

/-- Read one channel from the front. -/
def nextChannel (cs : List Char) : Except HexFailure (UInt8 × List Char) :=
  match takeTwoBytes? cs with
  | none => .error .splitCharacter
  | some (pair, rest) =>
    match readChannel? pair with
    | none => .error .notAColour
    | some n => .ok (n, rest)

/-- The number of bytes of a text. -/
def byteLength (cs : List Char) : Nat := cs.foldr (fun c n => c.utf8Size + n) 0

/-- Read a colour from three pairs of bytes after any number of hash signs. -/
def ofHex (s : String) : Except HexFailure Colour :=
  let digits := s.toList.dropWhile (· = '#')
  if byteLength digits ≠ 6 then .error .notAColour
  else do
    let (red, rest) ← nextChannel digits
    let (green, rest) ← nextChannel rest
    let (blue, _) ← nextChannel rest
    return ⟨red, green, blue⟩

/-! ## Style form -/

/-- The decimal digits of a channel. -/
def channelText (n : UInt8) : List Char := Nat.toDigits 10 n.toNat

/-- The three channels with commas between them. -/
def channelList (c : Colour) : List Char :=
  channelText c.red ++ [',', ' '] ++ channelText c.green ++ [',', ' '] ++ channelText c.blue

/-- The style value of a colour. The opacity, a single-precision number, is written only if it is
less than one. -/
def toStyle (c : Colour) (opacity : Floating) : String :=
  String.ofList <|
    if Floating.lt opacity (Floating.ofNat .binary32 1) then
      ['r', 'g', 'b', 'a', '('] ++ channelList c ++ [',', ' '] ++
        DecimalStyle.plain.writeFloating .binary32 opacity ++ [')']
    else ['r', 'g', 'b', '('] ++ channelList c ++ [')']

end Colour

end KeywordCensus
