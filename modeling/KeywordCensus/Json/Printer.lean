import KeywordCensus.Floating.Shortest
import KeywordCensus.Json.Quoted
import KeywordCensus.Json.Basic

/-!
# Writing JSON documents

Two forms: compact, without any blank, and indented by two spaces a level, where an empty container
stays on its line. Fields are written in the order in which the value holds them.
-/

namespace KeywordCensus.Json

/-- The digits of a whole number, with a sign if it is negative. -/
def writeWhole (n : Int) : List Char :=
  if n < 0 then '-' :: Nat.toDigits 10 n.natAbs else Nat.toDigits 10 n.natAbs

/-- The text of a number. -/
def writeNumber : JsonNumber → List Char
  | .whole n => writeWhole n
  | .floating x => DecimalStyle.json.writeFloating .binary64 x

/-- The text of a truth value. -/
def writeBool (b : Bool) : List Char :=
  if b then ['t', 'r', 'u', 'e'] else ['f', 'a', 'l', 's', 'e']

mutual

/-- The compact text of a value. -/
def writeCompact : Json → List Char
  | .null => ['n', 'u', 'l', 'l']
  | .bool b => writeBool b
  | .number n => writeNumber n
  | .text s => Quoted.quote s
  | .array items => '[' :: writeItems items ++ [']']
  | .object fields => '\x7b' :: writeFields fields ++ ['\x7d']

/-- Values with commas between them. -/
def writeItems : List Json → List Char
  | [] => []
  | [item] => writeCompact item
  | item :: rest => writeCompact item ++ ',' :: writeItems rest

/-- Fields with commas between them. -/
def writeFields : List (String × Json) → List Char
  | [] => []
  | [(key, value)] => Quoted.quote key ++ ':' :: writeCompact value
  | (key, value) :: rest => Quoted.quote key ++ ':' :: writeCompact value ++ ',' :: writeFields rest

end

/-- A new line at a level of indentation. -/
def newline (level : Nat) : List Char := '\n' :: List.replicate (2 * level) ' '

mutual

/-- The indented text of a value that begins at a level. -/
def writeIndentedAt (level : Nat) : Json → List Char
  | .null => ['n', 'u', 'l', 'l']
  | .bool b => writeBool b
  | .number n => writeNumber n
  | .text s => Quoted.quote s
  | .array [] => ['[', ']']
  | .array (item :: rest) =>
    '[' :: newline (level + 1) ++ writeIndentedAt (level + 1) item ++
      writeIndentedItems (level + 1) rest ++ newline level ++ [']']
  | .object [] => ['\x7b', '\x7d']
  | .object ((key, value) :: rest) =>
    '\x7b' :: newline (level + 1) ++ Quoted.quote key ++ [':', ' '] ++
      writeIndentedAt (level + 1) value ++ writeIndentedFields (level + 1) rest ++
      newline level ++ ['\x7d']

/-- Further values, each after a comma on a line of its own. -/
def writeIndentedItems (level : Nat) : List Json → List Char
  | [] => []
  | item :: rest =>
    ',' :: newline level ++ writeIndentedAt level item ++ writeIndentedItems level rest

/-- Further fields, each after a comma on a line of its own. -/
def writeIndentedFields (level : Nat) : List (String × Json) → List Char
  | [] => []
  | (key, value) :: rest =>
    ',' :: newline level ++ Quoted.quote key ++ [':', ' '] ++ writeIndentedAt level value ++
      writeIndentedFields level rest

end

/-- The compact text of a value. -/
def compact (v : Json) : String := String.ofList (writeCompact v)

/-- The indented text of a value. -/
def indented (v : Json) : String := String.ofList (writeIndentedAt 0 v)

end KeywordCensus.Json
