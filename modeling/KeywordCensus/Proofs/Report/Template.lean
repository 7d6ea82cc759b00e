import KeywordCensus.Proofs.Census.Ranking
import KeywordCensus.Proofs.Report.Outline
import KeywordCensus.Report.Basic

/-!
# The template of a page

What the page of a census must look like is said here without a word about how it is made. Its shape
(`Census.shape`) is four facts: how many keywords are shown, how many files, how many were skipped,
and whether a release is named. Each shape has a template (`Shape.template`): fixed markup, with a
gap for each text. What goes into the gaps is read off the census (`Census.pageTexts`): keywords
and files in the order of the report, their numbers, and the skipped files.

The page of a census is the template of its shape with these texts in the gaps, each in its escaped
form (`Census.shows_toPage`). So two censuses of one shape have pages that differ in nothing else.
-/

namespace KeywordCensus

open Markup

/-- What the template of a page depends on. -/
structure Shape where
  /-- The number of keywords that are shown. -/
  columns : Nat
  /-- The number of files that are shown. -/
  rows : Nat
  /-- The number of skipped files. -/
  skipped : Nat
  /-- Is a release named? -/
  release : Bool
  deriving DecidableEq

namespace Shape

/-- Slots several times. -/
def repeated (n : Nat) (slots : List Slot) : List Slot := (List.replicate n slots).flatten

/-- The summary above the table. -/
def summary (s : Shape) : List Slot :=
  [.fixed "    <p>Generated ", .gap] ++ (if s.release then [.fixed " with conjure ", .gap] else []) ++
  [.fixed ".</p>\n    <p>\n      ", .gap, .fixed " files, ", .gap,
    .fixed " keywords\n      (showing ", .gap, .fixed " keywords and ", .gap,
    .fixed " files).\n      "] ++
  (if s.skipped = 0 then [] else [.gap, .fixed " files could not be parsed."]) ++
  [.fixed "\n    </p>\n  </div>\n\n"]

/-- The title of a column. -/
def column : List Slot :=
  [.fixed "\n        <th class=\"keyword\" title=\"total ", .gap, .fixed ", avg ", .gap,
    .fixed ", min ", .gap, .fixed ", max ", .gap, .fixed ", in ", .gap, .fixed " files\">", .gap,
    .fixed "</th>\n        "]

/-- A cell of a row. -/
def cell : List Slot :=
  [.fixed "\n        <td style=\"background-color: ", .gap, .fixed "\">", .gap,
    .fixed "</td>\n        "]

/-- The row of a file. -/
def row (s : Shape) : List Slot :=
  [.fixed "\n      <tr>\n        <td class=\"file\" title=\"", .gap, .fixed "\">", .gap,
    .fixed "</td>\n        <td>", .gap, .fixed "</td>\n        "] ++ repeated s.columns cell ++
  [.fixed "\n      </tr>\n      "]

/-- The table. -/
def table (s : Shape) : List Slot :=
  [.fixed "  <table>\n    <thead>\n      <tr>\n        <th class=\"file\">File</th>\n        <th>LOC</th>\n",
    .fixed "        "] ++ repeated s.columns column ++
  [.fixed "\n      </tr>\n    </thead>\n    <tbody>\n      "] ++ repeated s.rows s.row ++
  [.fixed "\n    </tbody>\n  </table>\n\n  "]

/-- The item of a skipped file. -/
def item : List Slot :=
  [.fixed "\n      <li><code>", .gap, .fixed "</code>: ", .gap, .fixed "</li>\n      "]

/-- The list of the skipped files. -/
def skippedList (s : Shape) : List Slot :=
  if s.skipped = 0 then []
  else
    [.fixed "\n  <div class=\"skipped\">\n    <h2>Skipped files</h2>\n    <ul>\n      "] ++
      repeated s.skipped item ++ [.fixed "\n    </ul>\n  </div>\n  "]

/-- The template of a page; its beginning is the same on all pages. -/
def template (s : Shape) : List Slot :=
  HeatMap.top.map slot ++ s.summary ++ s.table ++ s.skippedList ++ [.fixed "\n</body>\n</html>\n"]

/-- The outline of a page. -/
def outline (s : Shape) : List Char := HeatMap.pageOutline s.columns s.rows s.skipped

end Shape

namespace Census

/-- The release that a page names: one that is known and not empty. -/
def namedRelease (c : Census) : Option String :=
  (c.version.bind VersionInfo.release).filter fun s => !s.isEmpty

/-- The shape of the page of a census. -/
def shape (c : Census) (settings : ReportSettings) : Shape where
  columns := min settings.maxKeywords c.keywords.length
  rows := settings.maxFiles.elim c.files.length fun n => min n c.files.length
  skipped := c.skipped.length
  release := c.namedRelease.isSome

/-- The texts about a keyword: its numbers, which stand in the title of its column, and its name. -/
def keywordTexts (u : Usage) : List (Region × String) :=
  [(.value, toString u.total), (.value, HeatMap.contents (HeatMap.mean u.averageOrZero)),
    (.value, (u.least.map toString).getD ""), (.value, (u.greatest.map toString).getD ""),
    (.value, toString u.fileCount), (.text, u.name)]

/-- The texts about a file: its repository, path and lines, and for each keyword its colour and the
number of its uses in the file. -/
def fileTexts (keywords : List Usage) (depth : Nat) (f : Specification) : List (Region × String) :=
  [(.value, f.repository.getD ""), (.text, f.pathText depth), (.text, toString f.lines)] ++
    keywords.flatMap fun u =>
      [(.value, (u.colour (f.uses u.name)).toHex), (.text, toString (f.uses u.name))]

/-- The texts above the table. -/
def summaryTexts (c : Census) (settings : ReportSettings) (moment : String) :
    List (Region × String) :=
  [(.text, moment)] ++ c.namedRelease.toList.map (fun s => (.text, s)) ++
  [(.text, toString c.files.length), (.text, toString c.keywords.length),
    (.text, toString (c.shape settings).columns), (.text, toString (c.shape settings).rows)] ++
  if c.skipped.isEmpty then [] else [(.text, toString c.skipped.length)]

/-- The texts that the page of a census shows, in the order in which they stand there. -/
def pageTexts (c : Census) (settings : ReportSettings) (moment : String) :
    List (Region × String) :=
  let keywords := c.shownKeywords settings.keywordOrder settings.maxKeywords
  c.summaryTexts settings moment ++ (keywords.flatMap keywordTexts ++
    (HeatMap.shownFiles c settings.maxFiles).flatMap (fileTexts keywords settings.pathDepth)) ++
  c.skipped.flatMap fun s => [(.text, s.path), (.text, s.reason)]

/-- How a page shows a census. -/
structure Shows (c : Census) (settings : ReportSettings) (moment : String) (page : List Char) :
    Prop where
  /-- Its outline is that of its shape. -/
  outline : Markup.outline .text page = some ((c.shape settings).outline, .text)
  /-- So are its marks. -/
  marks : page.filter isMark = (c.shape settings).outline.filter isMark
  /-- It is the template of its shape with the texts of the census in the gaps, each in its escaped
  form. -/
  fills : Fills .text (c.shape settings).template (c.pageTexts settings moment) page .text
  /-- The texts stand between tags and in attribute values. -/
  placed : ∀ shown ∈ c.pageTexts settings moment, shown.1 = .text ∨ shown.1 = .value
  /-- No escaped form holds a mark, and each one can be read back. -/
  escaped : ∀ shown ∈ c.pageTexts settings moment,
    Piece.unescape (Piece.escape shown.2.toList) = shown.2.toList ∧
      ∀ d ∈ Piece.escape shown.2.toList, isMark d = false

variable (c : Census) (settings : ReportSettings) (moment : String)

/-! ## The heat map of a census has its shape -/

theorem length_keywordsBy (order : KeywordOrder) (descending : Bool) :
    (c.keywordsBy order descending).length = c.keywords.length := by
  cases order with
  | mostUsed => exact (List.mergeSort_perm ..).length_eq
  | averageUses => exact (List.mergeSort_perm ..).length_eq

theorem length_shownKeywords :
    (c.shownKeywords settings.keywordOrder settings.maxKeywords).length =
      (c.shape settings).columns := by
  rw [shownKeywords, List.length_take, length_keywordsBy]
  rfl

theorem length_shownFiles :
    (HeatMap.shownFiles c settings.maxFiles).length = (c.shape settings).rows := by
  have hlength := (perm_filesByLines c true).length_eq
  unfold HeatMap.shownFiles shape
  cases settings.maxFiles with
  | none => exact hlength
  | some n =>
    rw [List.length_take, hlength]
    rfl

theorem length_columns :
    (HeatMap.ofCensus c settings).columns.length = (c.shape settings).columns :=
  (List.length_map _).trans (length_shownKeywords c settings)

theorem length_rows : (HeatMap.ofCensus c settings).rows.length = (c.shape settings).rows :=
  (List.length_map _).trans (length_shownFiles c settings)

/-- The rows of a census have a cell for each column. -/
theorem rectangular_ofCensus : (HeatMap.ofCensus c settings).Rectangular := by
  intro row hrow
  obtain ⟨file, -, rfl⟩ := List.mem_map.mp hrow
  rw [HeatMap.row, List.length_map]
  show _ = (List.map HeatMap.column _).length
  rw [List.length_map]

theorem shownRelease_ofCensus :
    (HeatMap.ofCensus c settings).shownRelease = c.namedRelease.toList := by
  show (c.version.bind VersionInfo.release).toList.filter _ = _
  rw [namedRelease]
  cases c.version.bind VersionInfo.release with
  | none => rfl
  | some s =>
    rw [Option.toList_some, List.filter_cons, Option.filter_some]
    split
    · rfl
    · rfl

/-! ## Its pieces make up the template -/

/-- Blocks with one template make up that template, once for each of them. -/
theorem map_slot_flatMap {α : Type} {block : α → List Piece} {slots : List Slot} {xs : List α}
    (h : ∀ x ∈ xs, (block x).map slot = slots) :
    (xs.flatMap block).map slot = Shape.repeated xs.length slots := by
  rw [List.map_flatMap, List.flatMap_congr h, List.flatMap_def, List.map_const', Shape.repeated]

theorem map_slot_summary : ((HeatMap.ofCensus c settings).summary moment).map slot =
    (c.shape settings).summary := by
  -- The release and the number of skipped files are there or not, as the shape says.
  have hrelease : (HeatMap.ofCensus c settings).releasePieces.map slot =
      if (c.shape settings).release then [.fixed " with conjure ", .gap] else [] := by
    rw [HeatMap.releasePieces_eq, shownRelease_ofCensus]
    show _ = if c.namedRelease.isSome then _ else _
    cases c.namedRelease with
    | none => rfl
    | some s => rfl
  have hskipped : (HeatMap.ofCensus c settings).skippedCount.map slot =
      if (c.shape settings).skipped = 0 then [] else [.gap, .fixed " files could not be parsed."] := by
    unfold HeatMap.skippedCount
    show _ = if c.skipped.length = 0 then _ else _
    show List.map slot (if c.skipped.isEmpty then _ else _) = _
    cases c.skipped with
    | nil => rfl
    | cons s others => rfl
  rw [HeatMap.summary, Shape.summary, List.map_append, List.map_append, List.map_append,
    List.map_append, hrelease, hskipped]
  rfl

/-- The slots of the table are those of its shape. -/
theorem map_slot_table :
    (HeatMap.ofCensus c settings).table.map slot = (c.shape settings).table := by
  have hcolumns : ((HeatMap.ofCensus c settings).columns.flatMap HeatMap.columnPieces).map slot =
      Shape.repeated _ Shape.column := map_slot_flatMap fun _ _ => rfl
  have hrow : ∀ row ∈ (HeatMap.ofCensus c settings).rows,
      (HeatMap.rowPieces row).map slot = (c.shape settings).row := by
    intro row hrow
    have hcells : (row.cells.flatMap HeatMap.cellPieces).map slot =
        Shape.repeated row.cells.length Shape.cell := map_slot_flatMap fun _ _ => rfl
    rw [rectangular_ofCensus c settings row hrow, length_columns] at hcells
    rw [HeatMap.rowPieces, List.map_append, List.map_append, hcells]
    rfl
  rw [HeatMap.table, Shape.table]
  simp only [List.map_append, hcolumns, map_slot_flatMap hrow, length_columns, length_rows]
  rfl

theorem map_slot_skippedList :
    (HeatMap.ofCensus c settings).skippedList.map slot = (c.shape settings).skippedList := by
  have hitems : (c.skipped.flatMap HeatMap.skippedPieces).map slot =
      Shape.repeated c.skipped.length Shape.item := map_slot_flatMap fun _ _ => rfl
  show List.map slot (if c.skipped.isEmpty then [] else _) =
    if c.skipped.length = 0 then [] else _
  by_cases hnone : c.skipped = []
  · rw [hnone]
    rfl
  · rw [if_neg (mt List.isEmpty_iff.mp hnone), if_neg (mt List.length_eq_zero_iff.mp hnone)]
    show List.map slot (_ ++ c.skipped.flatMap HeatMap.skippedPieces ++ _) = _
    rw [List.map_append, List.map_append, hitems]
    rfl

/-- The slots of the page are the template of its shape, in which no text of the corpus occurs. -/
theorem map_slot_pieces : ((HeatMap.ofCensus c settings).pieces moment).map slot =
    (c.shape settings).template := by
  rw [HeatMap.pieces, Shape.template]
  simp only [List.map_append, map_slot_summary, map_slot_table, map_slot_skippedList]
  rfl

/-! ## Its texts are those of the census -/

/-- The texts the page shows are those of the census, in the order of the template. -/
theorem shownTexts_ofCensus :
    (HeatMap.ofCensus c settings).shownTexts moment = c.pageTexts settings moment := by
  have hcount : (HeatMap.ofCensus c settings).shownCount =
      if c.skipped.isEmpty then [] else [toString c.skipped.length] := rfl
  have hsummary : (HeatMap.ofCensus c settings).summaryTexts moment =
      c.summaryTexts settings moment := by
    rw [HeatMap.summaryTexts, summaryTexts, shownRelease_ofCensus, length_columns, length_rows,
      hcount]
    cases c.skipped.isEmpty <;> rfl
  have hrow (f : Specification) :
      HeatMap.rowTexts (HeatMap.row (c.shownKeywords settings.keywordOrder settings.maxKeywords)
        settings.pathDepth f) =
      fileTexts (c.shownKeywords settings.keywordOrder settings.maxKeywords) settings.pathDepth f :=
    congrArg (_ ++ ·) (List.flatMap_map ..)
  rw [HeatMap.shownTexts, pageTexts, hsummary]
  show _ ++ ((List.map HeatMap.column _).flatMap _ ++ (List.map _ _).flatMap _) ++ _ = _
  rw [List.flatMap_map, List.flatMap_map]
  simp only [hrow]
  rfl

/-- Read region by region, the page is its template filled with the texts of the census. -/
theorem shows_page : c.Shows settings moment (c.toPage settings moment).toList := by
  have hreads := HeatMap.reads_pieces (rectangular_ofCensus c settings) moment
  rw [length_columns, length_rows, shownTexts_ofCensus] at hreads
  have hfills := hreads.fills
  rw [map_slot_pieces] at hfills
  rw [toPage, HeatMap.page, String.toList_ofList]
  refine ⟨hreads.outline, filter_of_outline hreads.outline, hfills, fun shown hshown => ?_,
    fun shown _ => ⟨Piece.unescape_escape _, fun d hd => isMark_of_mem_escape hd⟩⟩
  have htag := ne_tag_of_fills hfills shown hshown
  cases hregion : shown.1 with
  | text => exact .inl rfl
  | tag => exact absurd hregion htag
  | value => exact .inr rfl

/-- **No text that a page shows can be taken for markup.** The page of a census is the template of
its shape, with the texts of the census in the gaps, each in its escaped form and between tags or in
an attribute value; its marks are those of the shape, whatever the texts are. So pages of one shape
have the same marks, and what stands in a gap of one stands in the same place of the other. -/
theorem shows_toPage :
    (∀ (c : Census) (settings : ReportSettings) (moment : String),
      c.Shows settings moment (c.toPage settings moment).toList) ∧
    ∀ (c c' : Census) (settings settings' : ReportSettings) (moment moment' : String),
      c.shape settings = c'.shape settings' →
        (c.toPage settings moment).toList.filter isMark =
          (c'.toPage settings' moment').toList.filter isMark ∧
        (c.pageTexts settings moment).map (·.1) = (c'.pageTexts settings' moment').map (·.1) := by
  refine ⟨shows_page, fun c c' settings settings' moment moment' hshape => ⟨?_, ?_⟩⟩
  · rw [(shows_page c settings moment).marks, (shows_page c' settings' moment').marks, hshape]
  · refine Option.some.inj ?_
    rw [← regions_of_fills (shows_page c settings moment).fills,
      ← regions_of_fills (shows_page c' settings' moment').fills, hshape]

/-- The census of one file whose tree has one key, and of a skipped file. -/
def ofPair (key path repository reason : String) : Census :=
  ⟨Index.ofFiles
    [⟨⟨path⟩, .object [(key, .null)], SortedMap.ofList [(key, 1)], 1, some repository⟩],
    [⟨path, reason⟩], none⟩

/-- A census with texts that look like tags and attributes. -/
def hostileCensus : Census :=
  ofPair "</th><script>" "/a\"><b>.essence" "\" onclick=\"" "<!--"

/-- A census of the same shape. -/
def harmlessCensus : Census := ofPair "find" "/a.essence" "o/r" "timeout"

/-- The settings of a page. -/
def pageSettings : ReportSettings := ⟨⟨"page.html"⟩, .html, 20, none, 0, .mostUsed⟩

/-- The only keyword is shown. -/
theorem shownKeywords_ofPair (key path repository reason : String) :
    (ofPair key path repository reason).shownKeywords .mostUsed 20 =
      (ofPair key path repository reason).keywords := by
  show List.take 20 (List.mergeSort [_] _) = _
  rw [List.mergeSort_singleton]
  rfl

/-- Its page shows one keyword and one file, whatever they are called. -/
theorem shape_ofPair (key path repository reason : String) (settings : ReportSettings) :
    (ofPair key path repository reason).shape settings =
      ⟨min settings.maxKeywords 1, settings.maxFiles.elim 1 fun n => min n 1, 1, false⟩ := rfl

/-- A keyword that looks like a tag is shown as the name of its column, and the page has the same
marks as one with a harmless keyword. -/
theorem shows_toPage_hostile :
    (∃ before after, hostileCensus.pageTexts pageSettings "now" =
      before ++ (.text, "</th><script>") :: after) ∧
    hostileCensus.Shows pageSettings "now" (hostileCensus.toPage pageSettings "now").toList ∧
    (hostileCensus.toPage pageSettings "now").toList.filter isMark =
      (harmlessCensus.toPage pageSettings "then").toList.filter isMark := by
  obtain ⟨hshows, halike⟩ := shows_toPage
  have hshape : hostileCensus.shape pageSettings = harmlessCensus.shape pageSettings := by
    rw [hostileCensus, harmlessCensus, shape_ofPair, shape_ofPair]
  -- The hostile name is the title of a column, and so among the texts of the page.
  have hname : (hostileCensus.keywords.flatMap keywordTexts)[5]? =
      some (.text, "</th><script>") := by
    decide +kernel
  have hmem : (.text, "</th><script>") ∈ hostileCensus.pageTexts pageSettings "now" := by
    refine List.mem_append_left _ (List.mem_append_right _ (List.mem_append_left _ ?_))
    show _ ∈ (hostileCensus.shownKeywords .mostUsed 20).flatMap keywordTexts
    rw [hostileCensus, shownKeywords_ofPair]
    exact List.mem_of_getElem? hname
  exact ⟨List.append_of_mem hmem, hshows _ _ _, (halike _ _ _ _ "now" "then" hshape).1⟩

end Census

end KeywordCensus
