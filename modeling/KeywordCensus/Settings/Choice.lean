/-!
# Choices

The settings whose value is one of a few words.
-/

namespace KeywordCensus

/-- The format of a report. -/
inductive ReportFormat where
  /-- A heat map. -/
  | html
  /-- One line for each file, one field for each keyword. -/
  | csv
  /-- All files and keywords. -/
  | json
  deriving DecidableEq, Repr

namespace ReportFormat

/-- All formats. -/
def all : List ReportFormat := [html, csv, json]

/-- The word for a format. -/
def word : ReportFormat → String
  | html => "html"
  | csv => "csv"
  | json => "json"

/-- The format that a word stands for. -/
def ofWord? (word : String) : Option ReportFormat := all.find? fun f => f.word == word

end ReportFormat

/-- An order of keywords. -/
inductive KeywordOrder where
  /-- By all uses. -/
  | mostUsed
  /-- By the mean number of uses in a file. -/
  | averageUses
  deriving DecidableEq, Repr

namespace KeywordOrder

/-- All orders. -/
def all : List KeywordOrder := [mostUsed, averageUses]

/-- The word for an order. -/
def word : KeywordOrder → String
  | mostUsed => "most-used"
  | averageUses => "avg-uses"

/-- The order that a word stands for. -/
def ofWord? (word : String) : Option KeywordOrder := all.find? fun o => o.word == word

end KeywordOrder

end KeywordCensus
