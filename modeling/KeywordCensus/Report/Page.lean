import KeywordCensus.Report.HeatMap

/-!
# The page of a heat map

A page is a list of pieces: markup, which is fixed, and values, which are shown text. Only values
are escaped, so that none of them can be taken for markup.
-/

namespace KeywordCensus

/-- A piece of a page. -/
inductive Piece where
  /-- Fixed text. -/
  | markup (s : String)
  /-- Text that is shown. -/
  | value (s : String)
  deriving DecidableEq, Repr

namespace Piece

/-- The written form of a shown character. -/
def escapeChar (c : Char) : List Char :=
  if c = '&' then "&amp;".toList
  else if c = '<' then "&lt;".toList
  else if c = '>' then "&gt;".toList
  else if c = '"' then "&quot;".toList
  else if c = '\'' then "&#x27;".toList
  else if c = '/' then "&#x2F;".toList
  else [c]

/-- The written form of shown text. -/
def escape (cs : List Char) : List Char := cs.flatMap escapeChar

/-- The written form of a piece. -/
def write : Piece → List Char
  | .markup s => s.toList
  | .value s => escape s.toList

end Piece

namespace HeatMap

/-- Lines of markup. -/
def lines (texts : List String) : Piece := .markup (String.join (texts.map fun s => s ++ "\n"))

/-- A number as shown text. -/
def number (n : Nat) : Piece := .value (toString n)

/-- A number that may be missing as shown text. -/
def number? (n : Option Nat) : Piece := .value ((n.map toString).getD "")

/-- A mean as shown text, rounded to two places. -/
def mean (x : Floating) : Piece :=
  let hundred := Floating.ofNat .binary64 100
  let rounded := Floating.div .binary64
    (Floating.nearestWhole .binary64 (Floating.mul .binary64 hundred x)) hundred
  .value (String.ofList (DecimalStyle.plain.writeFloating .binary64 rounded))

/-- The beginning of the page. -/
def top : List Piece :=
  [lines ["<!DOCTYPE html>", "<html lang=\"en\">", "<head>", "  <meta charset=\"utf-8\">",
    "  <title>Essence keyword usage</title>", "  <style>",
    "    body \x7b font-family: system-ui, sans-serif; margin: 1.5rem; color: #222; \x7d",
    "    table \x7b border-collapse: collapse; font-size: 0.8rem; \x7d",
    "    th, td \x7b border: 1px solid #ccc; padding: 0.2rem 0.4rem; text-align: right; \x7d",
    "    th.file, td.file \x7b text-align: left; white-space: nowrap; \x7d",
    "    thead th \x7b position: sticky; top: 0; background: #f4f4f4; \x7d",
    "    th.keyword \x7b writing-mode: vertical-rl; transform: rotate(180deg); \x7d",
    "    .summary \x7b margin-bottom: 1rem; \x7d",
    "    .skipped \x7b margin-top: 2rem; font-size: 0.8rem; color: #666; \x7d",
    "  </style>", "</head>", "<body>", "  <h1>Essence keyword usage</h1>",
    "  <div class=\"summary\">"]]

/-- The release of the parser, where known. -/
def releasePieces (m : HeatMap) : List Piece :=
  match m.release with
  | none => []
  | some release => if release.isEmpty then [] else [.markup " with conjure ", .value release]

/-- How many files were skipped, unless none was. -/
def skippedCount (m : HeatMap) : List Piece :=
  if m.skipped.isEmpty then []
  else [number m.skipped.length, .markup " files could not be parsed."]

/-- The summary above the table, made at a given moment. -/
def summary (m : HeatMap) (moment : String) : List Piece :=
  [.markup "    <p>Generated ", .value moment] ++ m.releasePieces ++
  [.markup ".</p>\n    <p>\n      ", number m.fileCount, .markup " files, ", number m.keywordCount,
    .markup " keywords\n      (showing ", number m.columns.length, .markup " keywords and ",
    number m.rows.length, .markup " files).\n      "] ++ m.skippedCount ++
  [.markup "\n    </p>\n  </div>\n\n"]

/-- The title of a column. -/
def columnPieces (column : HeatColumn) : List Piece :=
  [.markup "\n        <th class=\"keyword\" title=\"total ", number column.total, .markup ", avg ",
    mean column.average, .markup ", min ", number? column.least, .markup ", max ",
    number? column.greatest, .markup ", in ", number column.fileCount, .markup " files\">",
    .value column.name, .markup "</th>\n        "]

/-- A cell of a row. -/
def cellPieces (cell : HeatCell) : List Piece :=
  [.markup "\n        <td style=\"background-color: ", .value cell.colour.toHex, .markup "\">",
    number cell.uses, .markup "</td>\n        "]

/-- The row of a file. -/
def rowPieces (row : HeatRow) : List Piece :=
  [.markup "\n      <tr>\n        <td class=\"file\" title=\"", .value row.repository,
    .markup "\">", .value row.path, .markup "</td>\n        <td>", number row.lines,
    .markup "</td>\n        "] ++ row.cells.flatMap cellPieces ++ [.markup "\n      </tr>\n      "]

/-- The table. -/
def table (m : HeatMap) : List Piece :=
  [lines ["  <table>", "    <thead>", "      <tr>", "        <th class=\"file\">File</th>",
      "        <th>LOC</th>"], .markup "        "] ++ m.columns.flatMap columnPieces ++
  [.markup "\n      </tr>\n    </thead>\n    <tbody>\n      "] ++ m.rows.flatMap rowPieces ++
  [.markup "\n    </tbody>\n  </table>\n\n  "]

/-- The item of a skipped file. -/
def skippedPieces (s : SkippedFile) : List Piece :=
  [.markup "\n      <li><code>", .value s.path, .markup "</code>: ", .value s.reason,
    .markup "</li>\n      "]

/-- The list of the skipped files, unless there is none. -/
def skippedList (m : HeatMap) : List Piece :=
  if m.skipped.isEmpty then []
  else
    [.markup
      "\n  <div class=\"skipped\">\n    <h2>Skipped files</h2>\n    <ul>\n      "] ++
    m.skipped.flatMap skippedPieces ++ [.markup "\n    </ul>\n  </div>\n  "]

/-- The pieces of the page, made at a given moment. -/
def pieces (m : HeatMap) (moment : String) : List Piece :=
  top ++ m.summary moment ++ m.table ++ m.skippedList ++ [.markup "\n</body>\n</html>\n"]

/-- The text of the page, made at a given moment. -/
def page (m : HeatMap) (moment : String) : String :=
  String.ofList ((m.pieces moment).flatMap Piece.write)

end HeatMap

end KeywordCensus
