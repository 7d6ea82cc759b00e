import KeywordCensus.Report.Table

/-!
# The heat map

What a page about a census shows: a column for each of the first keywords in some order, a row for
each of the longest files, and in each cell the number of uses with its colour.
-/

namespace KeywordCensus

/-- The column of a keyword. -/
structure HeatColumn where
  /-- The keyword. -/
  name : String
  /-- All its uses. -/
  total : Nat
  /-- Its mean number of uses. -/
  average : Floating
  /-- The least number of uses in a file. -/
  least : Option Nat
  /-- The greatest number of uses in a file. -/
  greatest : Option Nat
  /-- The number of files that use it. -/
  fileCount : Nat

/-- A number of uses and its colour. -/
structure HeatCell where
  /-- The number of uses. -/
  uses : Nat
  /-- The colour. -/
  colour : Colour

/-- The row of a file. -/
structure HeatRow where
  /-- The path as it is shown. -/
  path : String
  /-- The repository, empty if there is none. -/
  repository : String
  /-- The number of lines. -/
  lines : Nat
  /-- The cells, one for each column. -/
  cells : List HeatCell

/-- What a page shows. -/
structure HeatMap where
  /-- The release of the parser, if it is known. -/
  release : Option String
  /-- The number of files of the census. -/
  fileCount : Nat
  /-- The number of keywords of the census. -/
  keywordCount : Nat
  /-- The columns. -/
  columns : List HeatColumn
  /-- The rows. -/
  rows : List HeatRow
  /-- The files that were skipped. -/
  skipped : List SkippedFile

namespace HeatMap

/-- The column of a keyword. -/
def column (u : Usage) : HeatColumn :=
  ⟨u.name, u.total, u.averageOrZero, u.least, u.greatest, u.fileCount⟩

/-- The cell of a keyword in the row of a file. -/
def cell (file : Specification) (u : Usage) : HeatCell :=
  let uses := u.usesIn file
  ⟨uses, u.colour uses⟩

/-- The row of a file. -/
def row (keywords : List Usage) (depth : Nat) (file : Specification) : HeatRow :=
  ⟨file.pathText depth, file.repository.getD "", file.lines, keywords.map (cell file)⟩

/-- The files that are shown: the longest ones, as many as a limit allows. -/
def shownFiles (c : Census) (limit : Option Nat) : List Specification :=
  match limit with
  | none => c.filesByLines true
  | some count => (c.filesByLines true).take count

/-- The heat map of a census. -/
def ofCensus (c : Census) (settings : ReportSettings) : HeatMap :=
  let keywords := c.shownKeywords settings.keywordOrder settings.maxKeywords
  { release := c.version.bind VersionInfo.release
    fileCount := c.files.length
    keywordCount := c.keywords.length
    columns := keywords.map column
    rows := (shownFiles c settings.maxFiles).map (row keywords settings.pathDepth)
    skipped := c.skipped }

end HeatMap

end KeywordCensus
