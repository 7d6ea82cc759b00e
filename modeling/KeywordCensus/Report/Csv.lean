import KeywordCensus.Report.Table

/-!
# Delimited text

A table as lines of fields with a delimiter between neighbours. A field that holds the delimiter, a
quote or an end of line is put between quotes, and each quote in it is written twice.
-/

namespace KeywordCensus.Csv

/-- Must a character stand between quotes? -/
def isSpecial (delimiter c : Char) : Bool := c = delimiter || c = '"' || c = '\n' || c = '\r'

/-- A text with each quote in it written twice. -/
def doubleQuotes (cs : List Char) : List Char :=
  cs.flatMap fun c => if c = '"' then ['"', '"'] else [c]

/-- The written form of a field. -/
def writeField (delimiter : Char) (cs : List Char) : List Char :=
  if cs.any (isSpecial delimiter) then '"' :: doubleQuotes cs ++ ['"'] else cs

/-- The written form of a row: its fields, and the end of the line. -/
def writeLine (delimiter : Char) (fields : List (List Char)) : List Char :=
  Text.join delimiter (fields.map (writeField delimiter)) ++ ['\n']

/-- One line of fields. -/
def line (delimiter : Char) (fields : List String) : String :=
  String.ofList (writeLine delimiter (fields.map String.toList))

/-- The lines of a table. -/
def document (delimiter : Char) (rows : List (List String)) : String :=
  String.ofList (rows.flatMap fun row => writeLine delimiter (row.map String.toList))

example : line ',' ["plain", "a,b", "say \"hi\""] = "plain,\"a,b\",\"say \"\"hi\"\"\"\n" := by
  decide +kernel

example : line ';' ["a,b"] = "a,b\n" := by decide +kernel

end KeywordCensus.Csv
