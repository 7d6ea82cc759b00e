import KeywordCensus.Proofs.Report.UsageTable
import KeywordCensus.Report.HeatMap

/-!
# The heat map and the table agree

The two reports choose their keywords and files on their own: the table lists all files, the shortest
first, and the heat map only the longest. They count on their own as well: a cell of the table is a
count of the file, and what a cell of the heat map says must also be what the keyword has on record
about the file. In a consistent index these are the same (`recorded_eq_uses`), so that both reports
say the same about every file that both show (`HeatMap.Agrees`).
-/

namespace KeywordCensus

/-- The uses in a file that a keyword has on record. -/
def Usage.recorded (u : Usage) (f : Specification) : Nat :=
  ((u.files.get? f.path.text).map FileUse.uses).getD 0

namespace HeatMap

variable {c : Census} {depth : Nat} {limit : Option Nat} {usages : List Usage}

/-- What a report says about a file: its path, lines and repository, and its uses of each keyword. -/
def line (usages : List Usage) (depth : Nat) (f : Specification) : List String :=
  [f.pathText depth, toString f.lines, f.repository.getD ""] ++
    usages.map fun u => toString (u.recorded f)

/-- What a row of a heat map says, in the order of a table. -/
def fields (r : HeatRow) : List String :=
  [r.path, toString r.lines, r.repository] ++ r.cells.map fun cell => toString cell.uses

/-- Does a heat map with a limit on its files agree with a table, both with a limit on their
keywords? Both show some keywords and leave out others; the table shows some files, and the heat map
shows some and omits others. -/
structure Agrees (c : Census) (depth keywordLimit : Nat) (limit : Option Nat) (map : HeatMap)
    (table : List (List String)) (usages others : List Usage)
    (listed shown omitted : List Specification) : Prop where
  /-- The keywords are those of the census with the most uses, as many as there may be, -/
  keywords : (usages ++ others).Perm c.keywords
  mostUsed : (usages ++ others).Pairwise (Census.RanksBefore Usage.total Usage.name true)
  keywordCount : usages.length = min keywordLimit c.keywords.length
  /-- they are known to the census under their names, -/
  known : ∀ u ∈ usages, c.keyword? u.name = some u
  /-- and each of them has its column in both reports. -/
  columns : map.columns = usages.map column
  /-- The table lists every file, -/
  everyFile : listed.Perm c.files ∧ (listed.map Specification.path).Nodup
  /-- and its first row tells the columns of the heat map. -/
  table : table = (["EssenceFile", "LOC", "Repo"] ++ map.columns.map HeatColumn.name) ::
    listed.map (line usages depth)
  /-- A file that is shown has the same row in both reports, -/
  rows : map.rows.map fields = shown.map (line usages depth)
  /-- and its cells are what the keywords have on record. -/
  cells : List.Forall₂ (fun f (r : HeatRow) => r.cells.map HeatCell.uses =
    usages.map fun u => u.recorded f) shown map.rows
  /-- The files that are shown are the longest ones, as many as there may be. -/
  split : (shown ++ omitted).Perm c.files
  ranked : (shown ++ omitted).Pairwise
    (Census.RanksBefore Specification.lines (fun f => f.path.shown) true)
  longest : ∀ f ∈ shown, ∀ g ∈ omitted, g.lines ≤ f.lines
  count : shown.length = limit.elim c.files.length (fun n => min n c.files.length)
  /-- Without a limit both reports show the same files. -/
  all : limit = none → shown.Perm listed

section Consistent

variable (hc : c.index.Consistent)

include hc

theorem keyword?_of_mem {u : Usage} (hu : u ∈ c.keywords) : c.keyword? u.name = some u := by
  obtain ⟨keyword, hkeyword⟩ := SortedMap.mem_values.mp hu
  rw [Census.keyword?, Census.name_eq_key hc hkeyword]
  exact hkeyword

/-- **What a keyword has on record about a file is the count of the file.** -/
theorem recorded_eq_uses {u : Usage} (hu : u ∈ c.keywords) {f : Specification} (hf : f ∈ c.files) :
    u.recorded f = f.uses u.name := by
  obtain ⟨keyword, hkeyword⟩ := SortedMap.mem_values.mp hu
  have hfile := (Index.get?_byPath hc.keyed).mpr ⟨(Index.mem_values_iff hc.keyed).mp hf, rfl⟩
  have hname := Census.name_eq_key hc hkeyword
  rw [hc.counted] at hkeyword
  obtain ⟨-, rfl⟩ := Usage.tally?_eq_some_iff.mp hkeyword
  rw [Usage.recorded, Usage.tally_files, Usage.get?_usesOf, hfile, Option.bind_some, hname]
  by_cases hused : f.uses keyword = 0
  · rw [Usage.useOf?_eq_none hused, hused]
    rfl
  · rw [Usage.useOf?_eq_some hused]
    rfl

variable (depth) (husages : ∀ u ∈ usages, u ∈ c.keywords) {f : Specification} (hf : f ∈ c.files)

include husages hf

/-- The row of a file in a table says what is on record, -/
theorem row_eq_line : Table.row usages depth f = line usages depth f := by
  have hcells : (usages.map fun u => toString (f.uses u.name)) =
      usages.map fun u => toString (u.recorded f) :=
    List.map_congr_left fun u hu => by rw [recorded_eq_uses hc (husages u hu) hf]
  rw [Table.row, hcells, line]

/-- and so does its row in a heat map. -/
theorem cells_row : (row usages depth f).cells.map HeatCell.uses =
    usages.map fun u => u.recorded f := by
  show (usages.map (cell f)).map HeatCell.uses = _
  rw [List.map_map]
  exact List.map_congr_left fun u hu => (recorded_eq_uses hc (husages u hu) hf).symm

/-- The texts of a row of the page are those of the line. -/
theorem fields_row : fields (row usages depth f) = line usages depth f := by
  have hcells := congrArg (List.map (toString : Nat → String)) (cells_row depth hc husages hf)
  rw [List.map_map, List.map_map] at hcells
  exact congrArg ([f.pathText depth, toString f.lines, f.repository.getD ""] ++ ·) hcells

end Consistent

/-- The files that are shown are the first ones in the order of a heat map. -/
theorem shownFiles_append (c : Census) (limit : Option Nat) :
    ∃ omitted, shownFiles c limit ++ omitted = c.filesByLines true ∧
      (shownFiles c limit).length = limit.elim c.files.length (fun n => min n c.files.length) ∧
      (limit = none → omitted = []) := by
  have hlength := (Census.perm_filesByLines c true).length_eq
  cases limit with
  | none => exact ⟨[], List.append_nil _, hlength, fun _ => rfl⟩
  | some n =>
    refine ⟨(c.filesByLines true).drop n, List.take_append_drop .., ?_, fun h => by cases h⟩
    rw [shownFiles, List.length_take, hlength]
    rfl

/-- Table and page of a consistent index agree, whatever the settings, as long as both rank by use.
-/
theorem agrees_of_consistent (hc : c.index.Consistent) {settings : ReportSettings}
    (horder : settings.keywordOrder = .mostUsed) :
    ∃ usages others listed shown omitted,
      Agrees c settings.pathDepth settings.maxKeywords settings.maxFiles (ofCensus c settings)
        (Table.rows c settings.pathDepth settings.maxKeywords) usages others listed shown
        omitted := by
  obtain ⟨omitted, hsplit, hcount, hall⟩ := shownFiles_append c settings.maxFiles
  have hlisted := Census.perm_filesByLines c false
  have hfiles := Census.perm_filesByLines c true
  have hranked := Census.ranked_filesByLines hc true
  -- The files of the page are the first ones of the ranking, and the others follow.
  rw [← hsplit] at hfiles hranked
  have husages : ∀ u ∈ c.shownKeywords .mostUsed settings.maxKeywords, u ∈ c.keywords :=
    fun u hu => (Census.perm_keywordsBy c true).mem_iff.mp (List.mem_of_mem_take hu)
  have hshown : ∀ f ∈ shownFiles c settings.maxFiles, f ∈ c.files :=
    fun f hf => hfiles.mem_iff.mp (List.mem_append_left _ hf)
  have hrows : (ofCensus c settings).rows = (shownFiles c settings.maxFiles).map
      (row (c.shownKeywords .mostUsed settings.maxKeywords) settings.pathDepth) := by
    rw [ofCensus, horder]
  have hcolumns : (ofCensus c settings).columns =
      (c.shownKeywords .mostUsed settings.maxKeywords).map column := by
    rw [ofCensus, horder]
  have hkeywords : c.shownKeywords .mostUsed settings.maxKeywords ++
      (c.keywordsBy .mostUsed true).drop settings.maxKeywords = c.keywordsBy .mostUsed true :=
    List.take_append_drop ..
  have hperm : (c.shownKeywords .mostUsed settings.maxKeywords ++
      (c.keywordsBy .mostUsed true).drop settings.maxKeywords).Perm c.keywords := by
    rw [hkeywords]
    exact Census.perm_keywordsBy c true
  have hmostUsed : (c.shownKeywords .mostUsed settings.maxKeywords ++
      (c.keywordsBy .mostUsed true).drop settings.maxKeywords).Pairwise
        (Census.RanksBefore Usage.total Usage.name true) := by
    rw [hkeywords]
    exact Census.ranked_keywordsBy hc true
  refine ⟨c.shownKeywords .mostUsed settings.maxKeywords,
    (c.keywordsBy .mostUsed true).drop settings.maxKeywords, c.filesByLines false,
    shownFiles c settings.maxFiles, omitted, ?_⟩
  constructor
  case keywords => exact hperm
  case mostUsed => exact hmostUsed
  case keywordCount =>
    rw [Census.shownKeywords, List.length_take, (Census.perm_keywordsBy c true).length_eq]
  case known => exact fun u hu => keyword?_of_mem hc (husages u hu)
  case columns => exact hcolumns
  case everyFile => exact ⟨hlisted, (hlisted.map _).nodup_iff.mpr (Index.nodup_paths hc)⟩
  case table =>
    have hlines := List.map_congr_left fun f hf =>
      row_eq_line settings.pathDepth hc husages (hlisted.mem_iff.mp hf)
    rw [Table.rows, hlines, Table.header, hcolumns, List.map_map]
    rfl
  case rows =>
    rw [hrows, List.map_map]
    exact List.map_congr_left fun f hf => fields_row _ hc husages (hshown f hf)
  case cells =>
    rw [hrows, List.forall₂_map_right_iff, List.forall₂_same]
    exact fun f hf => cells_row _ hc husages (hshown f hf)
  case split => exact hfiles
  case ranked => exact hranked
  case longest =>
    intro f hf g hg
    -- What is left out is ranked behind what is shown.
    rcases (List.pairwise_append.mp hranked).2.2 f hf g hg with hmore | ⟨hequal, -⟩
    · exact Nat.le_of_lt hmore
    · exact Nat.le_of_eq hequal.symm
  case count => exact hcount
  case all =>
    intro hnone
    rw [hall hnone, List.append_nil] at hfiles
    exact hfiles.trans hlisted.symm

/-- The settings of a heat map with less files and keywords than there are. -/
def shortReport : ReportSettings := ⟨⟨"/report"⟩, .html, 2, some 2, 1, .mostUsed⟩

end HeatMap

end KeywordCensus
