import KeywordCensus.FileTree.Disk
import KeywordCensus.Json.Printer
import KeywordCensus.Report.Csv
import KeywordCensus.Report.Page

/-!
# Reports

A report shows a census in one of the formats and is written to a file; missing directories on the
way are made, and something other than a file in its place is left alone.
-/

namespace KeywordCensus

/-- Why a report is not written. -/
inductive ReportError where
  /-- What stands at the path is no file. -/
  | notAFile (path : Path)
  /-- A file operation fails. -/
  | io (cause : IoError)
  deriving DecidableEq, Repr

/-- The text of an error. -/
def ReportError.message : ReportError → String
  | .notAFile path => s!"Must be a valid file: {path.shown}"
  | .io cause => s!"IO error: {cause.message}"

namespace Census

/-- The report as a page with a heat map, made at a given moment. -/
def toPage (c : Census) (settings : ReportSettings) (moment : String) : String :=
  (HeatMap.ofCensus c settings).page moment

/-- The report as delimited text. -/
def toCsv (c : Census) (settings : ReportSettings) (delimiter : Char) : String :=
  Csv.document delimiter (Table.rows c settings.pathDepth settings.maxKeywords)

/-- The report as an indented document. -/
def toDocument (c : Census) (settings : ReportSettings) : String :=
  (c.toJson settings.pathDepth).indented

/-- The report in the format of the settings. -/
def report (c : Census) (settings : ReportSettings) (moment : String) : String :=
  match settings.format with
  | .html => c.toPage settings moment
  | .csv => c.toCsv settings ','
  | .json => c.toDocument settings

/-- Write the report to its file on a disk. -/
def writeReport (c : Census) (disk : Disk) (settings : ReportSettings) (moment : String) :
    FileAction ReportError Unit := do
  let t ← get
  -- Checked first, so that a refusal leaves no new directory behind.
  if t.pathExists settings.output && !t.isFile settings.output then
    throw (.notAFile settings.output)
  ExceptT.adapt ReportError.io do
    disk.makeWay settings.output
    disk.writeText settings.output (c.report settings moment)

end Census

end KeywordCensus
