import KeywordCensus.Proofs.Report.Markup
import KeywordCensus.Report.Basic

/-!
# The outline of a page

What a page shows comes from files that anybody may have written. Here it is shown that none of it
can be taken for markup. The outline of a page, which is everything but the texts between its tags
and its attribute values, is spelled out in `HeatMap.pageOutline`, and only the numbers of columns,
rows and skipped files enter into it. The texts are listed in the order in which they stand on the
page (`HeatMap.shownTexts`), each one with the region in which it stands.

Each block of a page is surveyed on its own: its markup is run through the reader once, with the
gaps left open.
-/

namespace KeywordCensus

open Markup

namespace HeatMap

/-! ## What a page shows -/

/-- The text of a piece. -/
def contents : Piece → String
  | .markup s => s
  | .value s => s

/-- The texts of a column: five in its title, and its name. -/
def columnTexts (k : HeatColumn) : List (Region × String) :=
  [(.value, toString k.total), (.value, contents (mean k.average)),
    (.value, (k.least.map toString).getD ""), (.value, (k.greatest.map toString).getD ""),
    (.value, toString k.fileCount), (.text, k.name)]

/-- The texts of a cell: its colour, and the number of uses. -/
def cellTexts (cell : HeatCell) : List (Region × String) :=
  [(.value, cell.colour.toHex), (.text, toString cell.uses)]

/-- The texts of a row: the repository in the title of the path, the path, and the number of lines
before the cells. -/
def rowTexts (row : HeatRow) : List (Region × String) :=
  [(.value, row.repository), (.text, row.path), (.text, toString row.lines)] ++
    row.cells.flatMap cellTexts

/-- The texts of a skipped file. -/
def skippedTexts (s : SkippedFile) : List (Region × String) :=
  [(.text, s.path), (.text, s.reason)]

/-- The release, unless it is unknown or empty. -/
def shownRelease (m : HeatMap) : List String := m.release.toList.filter fun s => !s.isEmpty

/-- The number of skipped files, unless there is none. -/
def shownCount (m : HeatMap) : List String :=
  if m.skipped.isEmpty then [] else [toString m.skipped.length]

/-- The texts of the summary. -/
def summaryTexts (m : HeatMap) (moment : String) : List (Region × String) :=
  [(.text, moment)] ++ m.shownRelease.map (fun s => (.text, s)) ++
  [(.text, toString m.fileCount), (.text, toString m.keywordCount),
    (.text, toString m.columns.length), (.text, toString m.rows.length)] ++
  m.shownCount.map fun s => (.text, s)

/-- The texts of a page, in the order in which they stand there. -/
def shownTexts (m : HeatMap) (moment : String) : List (Region × String) :=
  m.summaryTexts moment ++ (m.columns.flatMap columnTexts ++ m.rows.flatMap rowTexts) ++
  m.skipped.flatMap skippedTexts

/-! ## Its outline -/

/-- A text several times. -/
def copies (n : Nat) (s : String) : List Char := (List.replicate n s.toList).flatten

/-- The outline of a row with so many cells. -/
def rowOutline (columns : Nat) : List Char :=
  "<tr><td class=\"\" title=\"\"></td><td></td>".toList ++ copies columns "<td style=\"\"></td>" ++
    "</tr>".toList

/-- The outline of a table. -/
def tableOutline (columns rows : Nat) : List Char :=
  "<table><thead><tr><th class=\"\"></th><th></th>".toList ++
    copies columns "<th class=\"\" title=\"\"></th>" ++ "</tr></thead><tbody>".toList ++
    (List.replicate rows (rowOutline columns)).flatten ++ "</tbody></table>".toList

/-- The outline of the list of so many skipped files. -/
def skippedOutline (skipped : Nat) : List Char :=
  if skipped = 0 then []
  else
    "<div class=\"\"><h2></h2><ul>".toList ++ copies skipped "<li><code></code></li>" ++
      "</ul></div>".toList

/-- The outline of the beginning of a page. -/
def topOutline : List Char :=
  ("<!DOCTYPE html><html lang=\"\"><head><meta charset=\"\"><title></title>" ++
    "<style></style></head><body><h1></h1><div class=\"\">").toList

/-- The outline of a page with so many columns, rows and skipped files. -/
def pageOutline (columns rows skipped : Nat) : List Char :=
  topOutline ++ "<p></p><p></p></div>".toList ++ tableOutline columns rows ++
    skippedOutline skipped ++ "</body></html>".toList

/-! ## Block by block -/

theorem reads_top : Reads .text top [] topOutline .text := by
  have hsurvey : survey .text (top.map slot) = some ([], topOutline, .text) := by
    unfold topOutline
    -- The kernel is slow at literals, so they are spelled out for it.
    simp only [top, lines, List.map_cons, List.map_nil, slot, survey,
      String.toList_join, String.toList_append, List.flatMap_cons, List.flatMap_nil,
      -String.reduceToList]
    repeat rw [String.toList_ofList]
    decide +kernel
  exact reads_of_survey hsurvey

theorem releasePieces_eq (m : HeatMap) :
    m.releasePieces = m.shownRelease.flatMap fun s => [.markup " with conjure ", .value s] := by
  unfold releasePieces shownRelease
  cases m.release with
  | none => rfl
  | some release => cases h : release.isEmpty <;> simp [h]

theorem skippedCount_eq (m : HeatMap) : m.skippedCount =
    m.shownCount.flatMap fun s => [.value s, .markup " files could not be parsed."] := by
  unfold skippedCount shownCount
  cases m.skipped.isEmpty <;> rfl

/-- The release adds one text, or none, and no markup. -/
theorem reads_releasePieces (m : HeatMap) :
    Reads .text m.releasePieces (m.shownRelease.map fun s => (.text, s)) [] .text := by
  have hblock (s : String) :
      Reads .text [.markup " with conjure ", .value s] [(.text, s)] [] .text := by
    refine reads_of_survey (?_ : survey .text _ = some ([.text], [], .text))
    simp only [List.map_cons, List.map_nil, slot, survey, -String.reduceToList]
    repeat rw [String.toList_ofList]
    rfl
  have hall := Reads.flatMap fun s (_ : s ∈ m.shownRelease) => hblock s
  rw [← List.map_eq_flatMap, List.flatten_replicate_nil] at hall
  rw [releasePieces_eq]
  exact hall

theorem reads_skippedCount (m : HeatMap) :
    Reads .text m.skippedCount (m.shownCount.map fun s => (.text, s)) [] .text := by
  have hblock (s : String) : Reads .text [.value s, .markup " files could not be parsed."]
      [(.text, s)] [] .text := by
    refine reads_of_survey (?_ : survey .text _ = some ([.text], [], .text))
    simp only [List.map_cons, List.map_nil, slot, survey, -String.reduceToList]
    repeat rw [String.toList_ofList]
    rfl
  have hall := Reads.flatMap fun s (_ : s ∈ m.shownCount) => hblock s
  rw [← List.map_eq_flatMap, List.flatten_replicate_nil] at hall
  rw [skippedCount_eq]
  exact hall

theorem reads_summary (m : HeatMap) (moment : String) :
    Reads .text (m.summary moment) (m.summaryTexts moment) "<p></p><p></p></div>".toList
      .text := by
  have hmoment : Reads .text [.markup "    <p>Generated ", .value moment] [(.text, moment)]
      "<p>".toList .text := by
    refine reads_of_survey (?_ : survey .text _ = some ([.text], "<p>".toList, .text))
    simp only [List.map_cons, List.map_nil, slot, survey, -String.reduceToList]
    repeat rw [String.toList_ofList]
    rfl
  have hnumbers : Reads .text
      [.markup ".</p>\n    <p>\n      ", number m.fileCount, .markup " files, ",
        number m.keywordCount, .markup " keywords\n      (showing ", number m.columns.length,
        .markup " keywords and ", number m.rows.length, .markup " files).\n      "]
      [(.text, toString m.fileCount), (.text, toString m.keywordCount),
        (.text, toString m.columns.length), (.text, toString m.rows.length)]
      "</p><p>".toList .text := by
    refine reads_of_survey
      (?_ : survey .text _ = some ([.text, .text, .text, .text], "</p><p>".toList, .text))
    simp only [number, List.map_cons, List.map_nil, slot, survey, -String.reduceToList]
    repeat rw [String.toList_ofList]
    rfl
  have hend : Reads .text [.markup "\n    </p>\n  </div>\n\n"] [] "</p></div>".toList .text := by
    apply reads_markup
    repeat rw [String.toList_ofList]
    rfl
  -- The four parts in their order, of which the release and the count may be empty.
  have hall := (((hmoment.append m.reads_releasePieces).append hnumbers).append
    m.reads_skippedCount).append hend
  rw [List.append_nil] at hall
  exact hall

theorem reads_columnPieces (column : HeatColumn) :
    Reads .text (columnPieces column) (columnTexts column)
      "<th class=\"\" title=\"\"></th>".toList .text := by
  refine reads_of_survey (?_ : survey .text _ =
    some ([.value, .value, .value, .value, .value, .text], _, .text))
  simp only [columnPieces, mean, number, number?, List.map_cons, List.map_nil, slot, survey,
    -String.reduceToList]
  repeat rw [String.toList_ofList]
  rfl

theorem reads_cellPieces (cell : HeatCell) :
    Reads .text (cellPieces cell) (cellTexts cell) "<td style=\"\"></td>".toList .text := by
  refine reads_of_survey (?_ : survey .text _ = some ([.value, .text], _, .text))
  simp only [cellPieces, number, List.map_cons, List.map_nil, slot, survey,
    -String.reduceToList]
  repeat rw [String.toList_ofList]
  rfl

/-- A row has the outline of as many cells as it has. -/
theorem reads_rowPieces (row : HeatRow) :
    Reads .text (rowPieces row) (rowTexts row) (rowOutline row.cells.length) .text := by
  have hbegin : Reads .text
      [.markup "\n      <tr>\n        <td class=\"file\" title=\"", .value row.repository,
        .markup "\">", .value row.path, .markup "</td>\n        <td>", number row.lines,
        .markup "</td>\n        "]
      [(.value, row.repository), (.text, row.path), (.text, toString row.lines)]
      "<tr><td class=\"\" title=\"\"></td><td></td>".toList .text := by
    refine reads_of_survey (?_ : survey .text _ = some ([.value, .text, .text], _, .text))
    simp only [number, List.map_cons, List.map_nil, slot, survey, -String.reduceToList]
    repeat rw [String.toList_ofList]
    rfl
  have hcells := Reads.flatMap fun cell (_ : cell ∈ row.cells) => reads_cellPieces cell
  have hend : Reads .text [.markup "\n      </tr>\n      "] [] "</tr>".toList .text := by
    apply reads_markup
    repeat rw [String.toList_ofList]
    rfl
  have hall := (hbegin.append hcells).append hend
  rw [List.append_nil] at hall
  exact hall

/-- All rows have as many cells as there are columns. -/
def Rectangular (m : HeatMap) : Prop := ∀ row ∈ m.rows, row.cells.length = m.columns.length

/-- A rectangular table shows its columns and then its rows, in an outline fixed by their numbers.
-/
theorem reads_table {m : HeatMap} (h : m.Rectangular) :
    Reads .text m.table (m.columns.flatMap columnTexts ++ m.rows.flatMap rowTexts)
      (tableOutline m.columns.length m.rows.length) .text := by
  have hbegin : Reads .text
      [lines ["  <table>", "    <thead>", "      <tr>", "        <th class=\"file\">File</th>",
        "        <th>LOC</th>"], .markup "        "] []
      "<table><thead><tr><th class=\"\"></th><th></th>".toList .text := by
    refine reads_of_survey (?_ : survey .text _ = some ([], _, .text))
    simp only [lines, List.map_cons, List.map_nil, slot, survey, String.toList_join,
      String.toList_append, List.flatMap_cons, List.flatMap_nil, -String.reduceToList]
    repeat rw [String.toList_ofList]
    rfl
  have hcolumns := Reads.flatMap fun column (_ : column ∈ m.columns) => reads_columnPieces column
  have hmiddle : Reads .text [.markup "\n      </tr>\n    </thead>\n    <tbody>\n      "] []
      "</tr></thead><tbody>".toList .text := by
    apply reads_markup
    repeat rw [String.toList_ofList]
    rfl
  have hrows : Reads .text (m.rows.flatMap rowPieces) (m.rows.flatMap rowTexts)
      (List.replicate m.rows.length (rowOutline m.columns.length)).flatten .text := by
    refine Reads.flatMap fun row hrow => ?_
    -- Every row has as many cells as there are columns.
    rw [← h row hrow]
    exact reads_rowPieces row
  have hend : Reads .text [.markup "\n    </tbody>\n  </table>\n\n  "] []
      "</tbody></table>".toList .text := by
    apply reads_markup
    repeat rw [String.toList_ofList]
    rfl
  have hall := (((hbegin.append hcolumns).append hmiddle).append hrows).append hend
  rw [List.append_nil, List.append_nil] at hall
  exact hall

theorem reads_skippedPieces (s : SkippedFile) :
    Reads .text (skippedPieces s) (skippedTexts s) "<li><code></code></li>".toList .text := by
  refine reads_of_survey (?_ : survey .text _ = some ([.text, .text], _, .text))
  simp only [skippedPieces, List.map_cons, List.map_nil, slot, survey, -String.reduceToList]
  repeat rw [String.toList_ofList]
  rfl

theorem reads_skippedList (m : HeatMap) :
    Reads .text m.skippedList (m.skipped.flatMap skippedTexts) (skippedOutline m.skipped.length)
      .text := by
  have hbegin : Reads .text
      [.markup "\n  <div class=\"skipped\">\n    <h2>Skipped files</h2>\n    <ul>\n      "] []
      "<div class=\"\"><h2></h2><ul>".toList .text := by
    apply reads_markup
    repeat rw [String.toList_ofList]
    rfl
  have hitems := Reads.flatMap fun s (_ : s ∈ m.skipped) => reads_skippedPieces s
  have hend : Reads .text [.markup "\n    </ul>\n  </div>\n  "] [] "</ul></div>".toList .text := by
    apply reads_markup
    repeat rw [String.toList_ofList]
    rfl
  have hall := (hbegin.append hitems).append hend
  rw [List.append_nil] at hall
  unfold skippedList skippedOutline
  cases h : m.skipped with
  | nil => exact reads_nil .text
  | cons s others =>
    rw [h] at hall
    exact hall

/-- The page as a whole: every text in its region, and an outline that only the numbers of columns,
rows and skipped files decide. -/
theorem reads_pieces {m : HeatMap} (h : m.Rectangular) (moment : String) :
    Reads .text (m.pieces moment) (m.shownTexts moment)
      (pageOutline m.columns.length m.rows.length m.skipped.length) .text := by
  have hend : Reads .text [.markup "\n</body>\n</html>\n"] [] "</body></html>".toList .text := by
    apply reads_markup
    repeat rw [String.toList_ofList]
    rfl
  have hall := (((reads_top.append (m.reads_summary moment)).append (reads_table h)).append
    m.reads_skippedList).append hend
  rw [List.append_nil, List.nil_append] at hall
  exact hall

end HeatMap

end KeywordCensus
