/-!
# Texts and bytes

The names of files and the paths to them are bytes. Bytes are written as texts, too: each character
stands for the byte with its number. `Text.toBytes` writes a text in bytes, as UTF-8 does, and
`Text.ofBytes` is the text that bytes show. Bytes that are no character are shown as a mark, one for
each stretch that could have begun a character, so different bytes may be shown alike.
-/

namespace KeywordCensus.Text

/-- The bytes of a text, as UTF-8 has them. -/
def bytes (s : String) : List UInt8 := s.toList.flatMap String.utf8EncodeChar

/-- A text in bytes, a character for each byte. -/
@[irreducible] def toBytes (s : String) : String :=
  String.ofList ((bytes s).map fun b => Char.ofNat b.toNat)

/-- What is shown for bytes that are no character. -/
def replacement : Char := '\uFFFD'

/-- A character that has been begun. -/
structure Begun where
  /-- The number that its bytes give so far. -/
  number : Nat
  /-- How many bytes come after the next one. -/
  later : Nat
  /-- The least byte that may come next. -/
  low : Nat
  /-- The greatest byte that may come next. -/
  high : Nat

/-- Read the first byte of a character: what is shown for it at once, and what it begins. The bounds
of the byte after it leave out long forms, surrogates, and numbers beyond the last character. -/
def readFirst (b : Nat) : List Char × Option Begun :=
  if b ≤ 0x7F then ([Char.ofNat b], none)
  else if 0xC2 ≤ b ∧ b ≤ 0xDF then ([], some ⟨b - 0xC0, 0, 0x80, 0xBF⟩)
  else if 0xE0 ≤ b ∧ b ≤ 0xEF then
    ([], some ⟨b - 0xE0, 1, if b = 0xE0 then 0xA0 else 0x80, if b = 0xED then 0x9F else 0xBF⟩)
  else if 0xF0 ≤ b ∧ b ≤ 0xF4 then
    ([], some ⟨b - 0xF0, 2, if b = 0xF0 then 0x90 else 0x80, if b = 0xF4 then 0x8F else 0xBF⟩)
  else ([replacement], none)

/-- Read one byte more: what is shown by it, and the character that it begins or continues. -/
def readByte : Option Begun → Nat → List Char × Option Begun
  | none, b => readFirst b
  | some c, b =>
    if c.low ≤ b ∧ b ≤ c.high then
      match c.later with
      | 0 => ([Char.ofNat (64 * c.number + b % 64)], none)
      | later + 1 => ([], some ⟨64 * c.number + b % 64, later, 0x80, 0xBF⟩)
    else (replacement :: (readFirst b).1, (readFirst b).2)

/-- What bytes show after the beginning of a character, if there is one. -/
def showFrom : Option Begun → List Nat → List Char
  | none, [] => []
  | some _, [] => [replacement]
  | begun, b :: rest => (readByte begun b).1 ++ showFrom (readByte begun b).2 rest

/-- The text that bytes show. -/
def ofBytes (s : String) : String := String.ofList (showFrom none (s.toList.map Char.toNat))

example : ofBytes (toBytes "é/€") = "é/€" := by decide +kernel

/-- Three bytes of a character of four, and a byte that begins none. -/
example : ofBytes "a\u00F0\u009F\u0098b\u00FE" = "a\uFFFDb\uFFFD" := by decide +kernel

end KeywordCensus.Text
