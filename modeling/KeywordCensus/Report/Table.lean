import KeywordCensus.Census.Basic

/-!
# The usage table

One row for each file, the shortest file first, and one column for each of the most used keywords:
how often the file uses the keyword.
-/

namespace KeywordCensus

/-- The keywords that a report shows: the first ones in descending order. -/
def Census.shownKeywords (c : Census) (order : KeywordOrder) (count : Nat) : List Usage :=
  (c.keywordsBy order true).take count

namespace Table

/-- The titles of the columns that are always there. -/
def fixedTitles : List String := ["EssenceFile", "LOC", "Repo"]

/-- The first row: the titles of the columns. -/
def header (keywords : List Usage) : List String := fixedTitles ++ keywords.map Usage.name

/-- The row of a file. -/
def row (keywords : List Usage) (depth : Nat) (file : Specification) : List String :=
  [file.pathText depth, toString file.lines, file.repository.getD ""] ++
    keywords.map fun k => toString (file.uses k.name)

/-- The rows of the table, with at most so many keywords. -/
def rows (c : Census) (depth count : Nat) : List (List String) :=
  let keywords := c.shownKeywords .mostUsed count
  header keywords :: (c.filesByLines false).map (row keywords depth)

end Table

end KeywordCensus
