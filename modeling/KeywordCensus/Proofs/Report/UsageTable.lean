import KeywordCensus.Proofs.Census.Discovery
import KeywordCensus.Proofs.Census.Ranking
import KeywordCensus.Proofs.FileTree.Growth
import KeywordCensus.Report.Table

/-!
# The usage table adds up

The cells of the table are counts of files, and the order of its columns is told by usages, which are
kept apart from the files. In a consistent index the usage of a keyword is what its column says: the
sum, the number of files and the bounds of the counts that are not zero (`AddsUpTo`,
`addsUpTo_column`). The rows are all files, the columns the keywords with the most uses, both ranked.
-/

namespace KeywordCensus

namespace Table

variable {c : Census} {u : Usage} {numbers : List Nat} {depth count : Nat}

/-- Do counts, one for each file, add up to what is known about a keyword? -/
structure AddsUpTo (numbers : List Nat) (u : Usage) : Prop where
  total : numbers.sum = u.total
  fileCount : (numbers.filter (· ≠ 0)).length = u.fileCount
  least : (numbers.filter (· ≠ 0)).min? = u.least
  greatest : (numbers.filter (· ≠ 0)).max? = u.greatest

/-- It does not matter in which order the files come. -/
theorem AddsUpTo.perm {others : List Nat} (h : AddsUpTo numbers u) (hperm : others.Perm numbers) :
    AddsUpTo others u where
  total := hperm.sum_nat.trans h.total
  fileCount := (hperm.filter _).length_eq.trans h.fileCount
  least := (Usage.min?_perm (hperm.filter _)).trans h.least
  greatest := (Usage.max?_perm (hperm.filter _)).trans h.greatest

/-- The counts that are not zero are those of the files that use the keyword. -/
theorem amounts_useOf? (keyword : String) (files : List Specification) :
    (files.filterMap (Usage.useOf? keyword)).map FileUse.uses =
      (files.map fun f => f.uses keyword).filter (· ≠ 0) := by
  induction files with
  | nil => rfl
  | cons f rest ih =>
    rw [List.filterMap_cons, List.map_cons]
    by_cases hused : f.uses keyword = 0
    · rw [Usage.useOf?_eq_none hused, List.filter_cons_of_neg (by simpa using hused)]
      exact ih
    · rw [Usage.useOf?_eq_some hused, List.filter_cons_of_pos (by simpa using hused)]
      exact congrArg (List.cons _) ih

/-- The amounts of a keyword are what the files use of it, less the zeros. -/
theorem amounts_usesOf (keyword : String) (files : SortedMap Specification) :
    Usage.amounts (Usage.usesOf keyword files) =
      (files.values.map fun f => f.uses keyword).filter (· ≠ 0) := by
  rw [← amounts_useOf?, Usage.amounts, Usage.usesOf, SortedMap.values_filterMap]

/-- Zeros add nothing. -/
theorem sum_filter_ne_zero (numbers : List Nat) :
    (numbers.filter (· ≠ 0)).sum = numbers.sum := by
  induction numbers with
  | nil => rfl
  | cons n rest ih =>
    by_cases hn : n = 0
    · rw [List.filter_cons_of_neg (by simpa using hn), ih, List.sum_cons, hn, Nat.zero_add]
    · rw [List.filter_cons_of_pos (by simpa using hn), List.sum_cons, List.sum_cons, ih]

/-- **The counts of all files add up to the usage that a consistent index lists.** -/
theorem addsUpTo_of_keyword? {i : Index} (hi : i.Consistent) {keyword : String}
    (hu : i.keywords.get? keyword = some u) :
    AddsUpTo (i.files.values.map fun f => f.uses keyword) u := by
  rw [hi.counted] at hu
  obtain ⟨-, rfl⟩ := Usage.tally?_eq_some_iff.mp hu
  have hsize : (Usage.tally keyword (Usage.usesOf keyword (Index.byPath i.files))).fileCount =
      (Usage.amounts (Usage.usesOf keyword (Index.byPath i.files))).length := by
    rw [Usage.amounts, SortedMap.values, List.length_map, List.length_map]
    rfl
  -- The sums do not depend on the order of the files, by path or as shown.
  refine AddsUpTo.perm ?_ ((Index.perm_byPath hi.keyed).symm.map _)
  constructor
  · rw [← sum_filter_ne_zero, ← amounts_usesOf]
    rfl
  · rw [← amounts_usesOf, hsize]
  · rw [← amounts_usesOf]
    rfl
  · rw [← amounts_usesOf]
    rfl

/-! ## Columns -/

/-- What stands at one position of each row. -/
def column (rows : List (List String)) (position : Nat) : List (Option String) :=
  rows.map fun row => row[position]?

theorem length_row (keywords : List Usage) (depth : Nat) (f : Specification) :
    (row keywords depth f).length = 3 + keywords.length := by
  rw [row, List.length_append, List.length_map]
  rfl

/-- The cells of a keyword are the counts of the files. -/
theorem column_rows {keywords : List Usage} {i : Nat} (hu : keywords[i]? = some u)
    (files : List Specification) : column (files.map (row keywords depth)) (3 + i) =
      (files.map fun f => f.uses u.name).map fun n => some (toString n) := by
  rw [column, List.map_map, List.map_map]
  refine List.map_congr_left fun f _ => ?_
  show (row keywords depth f)[3 + i]? = some (toString (f.uses u.name))
  rw [row, List.getElem?_append_right (Nat.le_add_right 3 i), List.length_cons, List.length_cons,
    List.length_singleton, Nat.add_sub_cancel_left, List.getElem?_map, hu]
  rfl

/-- **A column adds up to the usage of its keyword**, if the rows are those of all files. -/
theorem addsUpTo_column (hc : c.index.Consistent) (hmem : u ∈ c.keywords)
    {files : List Specification} (hfiles : files.Perm c.files) :
    AddsUpTo (files.map fun f => f.uses u.name) u := by
  obtain ⟨keyword, hu⟩ := SortedMap.mem_values.mp hmem
  rw [Census.name_eq_key hc hu]
  exact (addsUpTo_of_keyword? hc hu).perm (hfiles.map _)

/-! ## The whole table -/

/-- Is this a table of a census, and do its columns add up? -/
structure AddsUp (c : Census) (depth count : Nat) (header : List String)
    (rows : List (List String)) : Prop where
  /-- All rows have the same number of columns. -/
  width : ∀ row ∈ header :: rows, row.length = 3 + min count c.keywords.length
  /-- There is one row for each file, those with few lines first. -/
  files : ∃ files : List Specification, files.Perm c.files ∧
    (files.map Specification.path).Nodup ∧
    files.Pairwise (Census.RanksBefore Specification.lines (fun f => f.path.shown) false) ∧
    rows.map (List.take 3) =
      files.map fun f => [f.pathText depth, toString f.lines, f.repository.getD ""]
  /-- There is one column for each of the keywords with the most uses, and it adds up to them. -/
  keywords : ∃ shown omitted : List Usage, (shown ++ omitted).Perm c.keywords ∧
    (shown ++ omitted).Pairwise (Census.RanksBefore Usage.total Usage.name true) ∧
    (∀ u ∈ shown, ∀ v ∈ omitted, v.total ≤ u.total) ∧
    header = ["EssenceFile", "LOC", "Repo"] ++ shown.map Usage.name ∧
    ∀ i u, shown[i]? = some u → ∃ numbers : List Nat,
      column rows (3 + i) = numbers.map (fun n => some (toString n)) ∧ AddsUpTo numbers u

/-- The table of a consistent index adds up. -/
theorem addsUp_of_consistent (hc : c.index.Consistent) (depth count : Nat) :
    AddsUp c depth count (header (c.shownKeywords .mostUsed count))
      ((c.filesByLines false).map (row (c.shownKeywords .mostUsed count) depth)) := by
  have hfiles := Census.perm_filesByLines c false
  have hkeywords := Census.perm_keywordsBy c true
  have hranked := Census.ranked_keywordsBy hc true
  have hlength : (c.shownKeywords .mostUsed count).length = min count c.keywords.length := by
    rw [Census.shownKeywords, List.length_take, hkeywords.length_eq]
  -- The keywords that are shown are the first ones of the ranking.
  have hsplit : c.shownKeywords .mostUsed count ++ (c.keywordsBy .mostUsed true).drop count =
      c.keywordsBy .mostUsed true := List.take_append_drop ..
  rw [← hsplit] at hkeywords hranked
  refine ⟨?_, ⟨c.filesByLines false, hfiles, ?_, Census.ranked_filesByLines hc false, ?_⟩,
    ⟨_, _, hkeywords, hranked, ?_, rfl, ?_⟩⟩
  · rw [← hlength]
    refine List.forall_mem_cons.mpr ⟨?_, List.forall_mem_map.mpr fun f _ => length_row _ depth f⟩
    rw [header, List.length_append, List.length_map]
    rfl
  · exact (hfiles.map _).nodup_iff.mpr (Index.nodup_paths hc)
  · rw [List.map_map]
    exact List.map_congr_left fun f _ => rfl
  · -- What is left out is ranked behind what is shown.
    intro u hu v hv
    rcases (List.pairwise_append.mp hranked).2.2 u hu v hv with hless | ⟨hequal, -⟩
    · exact Nat.le_of_lt hless
    · exact Nat.le_of_eq hequal.symm
  · intro i u hu
    have hmem : u ∈ c.keywords := hkeywords.mem_iff.mp
      (List.mem_append_left _ (List.mem_of_getElem? hu))
    exact ⟨_, column_rows hu _, addsUpTo_column hc hmem hfiles⟩

/-- A number is known from its digits. -/
theorem toString_inj {m n : Nat} (h : toString m = toString n) : m = n := by
  have hdigits := congrArg (Nat.ofDigitChars 10 · 0) (String.ofList_injective h)
  simpa only [Nat.ofDigitChars_ten_toDigits] using hdigits

/-- In a table that adds up with all keywords, each of them is used in as many files as there are rows
that say so. -/
theorem fileCount_of_addsUp {titles : List String} {rest : List (List String)}
    (hrows : Table.rows c depth c.keywords.length = titles :: rest)
    (h : AddsUp c depth c.keywords.length titles rest) (hu : u ∈ c.keywords) :
    u.fileCount = (c.files.filterMap (Usage.useOf? u.name)).length := by
  obtain ⟨hheader, hrest⟩ := List.cons.inj hrows
  obtain ⟨shown, omitted, hperm, -, -, htitles, hcolumns⟩ := h.keywords
  have hnames : (c.shownKeywords .mostUsed c.keywords.length).map Usage.name =
      shown.map Usage.name := List.append_cancel_left (hheader.trans htitles)
  -- As many keywords are shown as there are, so none is omitted.
  have hwidth := congrArg List.length hnames
  rw [List.length_map, List.length_map, Census.shownKeywords, List.length_take,
    (Census.perm_keywordsBy c true).length_eq, Nat.min_self] at hwidth
  have hnone : omitted = [] := by
    have hlength := hperm.length_eq
    rw [List.length_append] at hlength
    exact List.length_eq_zero_iff.mp (by omega)
  rw [hnone, List.append_nil] at hperm
  obtain ⟨i, hi⟩ := List.mem_iff_getElem?.mp (hperm.mem_iff.mpr hu)
  obtain ⟨numbers, hcolumn, hadds⟩ := hcolumns i u hi
  obtain ⟨v, hv, hname⟩ : ∃ v, (c.shownKeywords .mostUsed c.keywords.length)[i]? = some v ∧
      v.name = u.name := by
    have hthere := congrArg (fun names : List String => names[i]?) hnames
    simp only [List.getElem?_map, hi, Option.map_some] at hthere
    exact Option.map_eq_some_iff.mp hthere
  -- The cells of its column are the counts of the files.
  rw [← hrest, column_rows hv, hname] at hcolumn
  have hnumbers : ((c.filesByLines false).map fun f => f.uses u.name) = numbers :=
    (List.map_inj_right fun _ _ heq => toString_inj (Option.some.inj heq)).mp hcolumn
  rw [← hadds.fileCount, ← hnumbers, ← amounts_useOf?, List.length_map,
    ((Census.perm_filesByLines c false).filterMap _).length_eq]

/-- And so does the table of every census that a run returns. -/
theorem addsUp_rows_of_ofOracle {settings : CensusSettings} {t : FileTree} {oracle : Oracle}
    (h : Census.ofOracle settings t oracle = .ok c) (depth count : Nat) :
    ∃ header rows, Table.rows c depth count = header :: rows ∧
      AddsUp c depth count header rows :=
  ⟨_, _, rfl, addsUp_of_consistent (Census.consistent_of_ofOracle h) depth count⟩

/-- **The usage table of a census adds up**, with any number of keywords and of names of each path:
it has one row for each file and one column for each of the most used keywords, both in order, and
every column sums up to the total of its keyword. So it is for the census of one pass. It is so however
the candidates are cut into parts exactly if no files are mixed up that are shown alike. -/
theorem addsUp_rows (settings : CensusSettings) (t : FileTree) (oracle : Oracle) (depth : Nat) :
    (∀ c, Census.ofOracle settings t oracle = .ok c → ∀ count, ∃ header rows,
      Table.rows c depth count = header :: rows ∧ AddsUp c depth count header rows) ∧
    ((∀ c, Census.Outcome settings t oracle c → ∀ count, ∃ header rows,
        Table.rows c depth count = header :: rows ∧ AddsUp c depth count header rows) ↔
      Census.Unmixed settings t oracle) := by
  refine ⟨fun c h count => addsUp_rows_of_ofOracle h depth count, fun h => ?_,
    fun hunmixed c h count => ?_⟩
  · refine Census.unmixed_of_fileCounts fun c houtcome keyword u hu hname => ?_
    obtain ⟨header, rows, hrows, hadds⟩ := h c houtcome c.keywords.length
    have hcount := fileCount_of_addsUp hrows hadds (SortedMap.mem_values.mpr ⟨keyword, hu⟩)
    rw [hcount, hname]
  · exact addsUp_rows_of_ofOracle (Census.ofOracle_of_outcome h hunmixed) depth count

/-- A tree with three specifications, two of which have equally many lines. -/
def tiedTree : FileTree :=
  ⟨.directory [("a.essence", .file "find x\nletting y\n".toUTF8 0o644),
    ("b.essence", .file "given x\n".toUTF8 0o644),
    ("c.essence", .file "find x\n".toUTF8 0o644)], [], List.forall_mem_nil _⟩

/-- The settings for all of that tree. -/
def tiedSettings : CensusSettings :=
  ⟨⟨"/"⟩, [], .binary ⟨"/conjure"⟩, ⟨60000⟩, SortedMap.empty, none, none, false⟩

/-- An oracle by whose answers two keywords are used equally often. -/
def tiedOracle : Oracle :=
  ⟨fun p => .ok (if p.text = "/b.essence" then .object [("given", .object [("given", .null)])]
    else .object [("find", .null), ("letting", .null), ("given", .null)]), .ok ⟨none, none⟩⟩

/-- The table without one keyword, which is used as often as the last one that is shown. -/
theorem addsUp_rows_tied : ∃ c, Census.ofOracle tiedSettings tiedTree tiedOracle = .ok c ∧
    c.files.map Specification.lines = [2, 1, 1] ∧
    c.keywords.map (fun u => (u.name, u.total)) = [("find", 2), ("given", 4), ("letting", 2)] ∧
    ∃ header rows, Table.rows c 1 2 = header :: rows ∧ AddsUp c 1 2 header rows := by
  have hread : (Census.ofOracle tiedSettings tiedTree tiedOracle).toOption.map
      (fun c => (c.files.map Specification.lines, c.keywords.map fun u => (u.name, u.total))) =
        some ([2, 1, 1], [("find", 2), ("given", 4), ("letting", 2)]) := by
    decide +kernel
  obtain ⟨c, hc, hpair⟩ := Option.map_eq_some_iff.mp hread
  obtain ⟨hlines, htotals⟩ := Prod.mk.inj hpair
  have hcensus := eq_ok_of_toOption hc
  exact ⟨c, hcensus, hlines, htotals, (addsUp_rows tiedSettings tiedTree tiedOracle 1).1 c hcensus 2⟩

end Table

end KeywordCensus
