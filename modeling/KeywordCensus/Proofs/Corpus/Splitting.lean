import KeywordCensus.Proofs.Corpus.Reachable

/-!
# Indexing files in parts

A list of files may be cut into neighbouring parts, each part indexed from nothing, and the results
put together two by two. `Split` is such a plan, and `Index.Gathers` is what it may give, with the
files of each usage met in any order.

Whatever the plan, the first of the files that are shown alike is listed (`get?_of_gathers`), and a
usage has the uses of all files that are listed, and of no files but those of the plan
(`exists_spans`). Files that are shown alike without being the same file make the difference: in one
pass only the first of them counts, but another one may come first in its part. So all plans give the
index of one pass if no such file has a keyword (`eq_ofFiles_of_gathers`), and otherwise some plan does
not (`ne_ofFiles_of_mergesTo`).
-/

namespace KeywordCensus

universe u v

/-- A plan for a list: a part of it as it stands, or the plans of two neighbouring parts. A part may
be empty. -/
inductive Split (α : Type u) where
  /-- Elements that are taken one after the other. -/
  | piece (elements : List α)
  /-- Two parts whose results are put together. -/
  | join (left right : Split α)

namespace Split

variable {α : Type u} {β : Type v}

/-- The list that a plan is for. -/
def toList : Split α → List α
  | .piece elements => elements
  | .join left right => left.toList ++ right.toList

/-- The plan for what some elements give. -/
def filterMap (f : α → Option β) : Split α → Split β
  | .piece elements => .piece (elements.filterMap f)
  | .join left right => .join (left.filterMap f) (right.filterMap f)

theorem toList_filterMap (f : α → Option β) (plan : Split α) :
    (plan.filterMap f).toList = plan.toList.filterMap f := by
  induction plan with
  | piece elements => rfl
  | join left right ihleft ihright =>
    rw [filterMap, toList, ihleft, ihright, toList, List.filterMap_append]

end Split

namespace Index

variable {i j r : Index} {files more : List Specification} {file : Specification}
  {collection : Specification → Prop} {plan : Split Specification} {keyword : String}

/-! ## Indexing in one pass -/

/-- The files of a list, each under what is shown of its path. -/
def placed (files : List Specification) : List (String × Specification) :=
  files.map fun file => (file.path.shown, file)

/-- Of the files that are shown as a key, the first one stands under it. -/
theorem get?_placed (key : String) (files : List Specification) :
    Entries.get? key (placed files) = files.find? fun file => file.path.shown = key := by
  induction files with
  | nil => rfl
  | cons file rest ih =>
    rw [placed, List.map_cons, Entries.get?, List.find?_cons]
    by_cases hkey : file.path.shown = key
    · rw [if_pos hkey, decide_eq_true hkey]
    · rw [if_neg hkey, decide_eq_false hkey]
      exact ih

/-- Adding files one after the other inserts them into the files, each under its shown path. -/
theorem files_foldl_add (hsound : ∀ file ∈ files, file.Sound) (i : Index) :
    (files.foldl add i).files =
      (placed files).foldl (fun m e => m.insertIfNew e.1 e.2) i.files := by
  induction files generalizing i with
  | nil => rfl
  | cons file rest ih =>
    obtain ⟨hfile, hrest⟩ := List.forall_mem_cons.mp hsound
    rw [List.foldl_cons, ih hrest, files_add hfile]
    rfl

/-- Of the files that are shown alike, the first one is listed. -/
theorem get?_ofFiles (hsound : ∀ file ∈ files, file.Sound) (key : String) :
    (ofFiles files).files.get? key = files.find? fun file => file.path.shown = key := by
  rw [ofFiles, files_foldl_add hsound, SortedMap.get?_foldl_insertIfNew, get?_placed]
  exact Option.none_or

theorem built_foldl_add (i : Index) (hi : Built collection i)
    (h : ∀ file ∈ files, collection file) : Built collection (files.foldl add i) := by
  induction files generalizing i with
  | nil => exact hi
  | cons file rest ih =>
    obtain ⟨hfile, hrest⟩ := List.forall_mem_cons.mp h
    exact ih (i.add file) (.add hi hfile) hrest

theorem built_ofFiles (h : ∀ file ∈ files, collection file) : Built collection (ofFiles files) :=
  built_foldl_add empty .empty h

/-- A fold of additions of sound files keeps an index consistent. -/
theorem consistent_foldl_add (hi : i.Consistent) (hsound : ∀ file ∈ files, file.Sound) :
    (files.foldl add i).Consistent := by
  induction files generalizing i with
  | nil => exact hi
  | cons file rest ih =>
    obtain ⟨hfile, hrest⟩ := List.forall_mem_cons.mp hsound
    exact ih (consistent_add hi hfile) hrest

/-- One pass gives a consistent index, whatever is shown of the paths. -/
theorem consistent_ofFiles (hsound : ∀ file ∈ files, file.Sound) : (ofFiles files).Consistent :=
  consistent_foldl_add consistent_empty hsound

/-! ## Indexing by a plan -/

/-- What indexing files by a plan may give: every part is indexed from nothing, and neighbours are
merged with the files of each usage met in any order. -/
inductive Gathers : Split Specification → Index → Prop
  /-- The files of a part are added one after the other. -/
  | piece (files : List Specification) : Gathers (.piece files) (ofFiles files)
  /-- Neighbours are merged. -/
  | join {left right : Split Specification} {i j r : Index} :
      Gathers left i → Gathers right j → MergesTo i j r → Gathers (.join left right) r

/-- Every plan can be carried out. -/
theorem exists_gathers (plan : Split Specification) : ∃ i, Gathers plan i := by
  induction plan with
  | piece files => exact ⟨_, .piece files⟩
  | join left right ihleft ihright =>
    obtain ⟨i, hi⟩ := ihleft
    obtain ⟨j, hj⟩ := ihright
    exact ⟨_, .join hi hj (mergesTo_merge i j)⟩

/-- **Of the files that are shown alike, the first one of the plan is listed.** -/
theorem get?_of_gathers (h : Gathers plan i) (hsound : ∀ f ∈ plan.toList, f.Sound) (key : String) :
    i.files.get? key = plan.toList.find? fun file => file.path.shown = key := by
  induction h with
  | piece files => exact get?_ofFiles hsound key
  | join _ _ hmerge ihleft ihright =>
    obtain ⟨hleft, hright⟩ := List.forall_mem_append.mp hsound
    rw [hmerge.files, SortedMap.get?_union, ihleft hleft, ihright hright, Split.toList,
      List.find?_append]

theorem first_of_find? {key : String}
    (h : (files.find? fun file => file.path.shown = key) = some file) :
    file ∈ files ∧ file.path.shown = key := by
  have hshown := List.find?_some h
  exact ⟨List.mem_of_find?_eq_some h, of_decide_eq_true hshown⟩

/-- Every file of an index that gathers a plan is a file of the plan. -/
theorem mem_of_gathers (h : Gathers plan i) (hsound : ∀ f ∈ plan.toList, f.Sound) {key : String}
    (hfile : i.files.get? key = some file) : file ∈ plan.toList ∧ file.path.shown = key := by
  rw [get?_of_gathers h hsound] at hfile
  exact first_of_find? hfile

theorem keyed_of_gathers (h : Gathers plan i) (hsound : ∀ f ∈ plan.toList, f.Sound) :
    Keyed i.files := fun _ _ hfile => (mem_of_gathers h hsound hfile).2

/-- Something is listed for every file, be it this file or one that is shown alike. -/
theorem get?_ne_none (h : Gathers plan i) (hsound : ∀ f ∈ plan.toList, f.Sound)
    (hfile : file ∈ plan.toList) : i.files.get? file.path.shown ≠ none := by
  rw [get?_of_gathers h hsound, ne_eq, List.find?_eq_none]
  intro hnone
  exact hnone file hfile (decide_eq_true rfl)

/-! ## The uses of a keyword -/

/-- Are these the uses of a keyword in an index of some files? Such are those of all files that are
listed, and maybe those of files that are not. -/
structure Spans (files : List Specification) (i : Index) (keyword : String)
    (uses : SortedMap FileUse) : Prop where
  /-- The usage is their tally. -/
  counted : i.keywords.get? keyword = Usage.tally? keyword uses
  /-- Each of them is that of a file, under its path. -/
  given : ∀ text use, uses.get? text = some use → use.file ∈ files ∧ use.file.path.text = text ∧
    Usage.useOf? keyword use.file = some use
  /-- No file that is listed is left out. -/
  listed : ∀ key file use, i.files.get? key = some file → Usage.useOf? keyword file = some use →
    uses.get? file.path.text = some use

theorem file_of_useOf? {use : FileUse} (h : Usage.useOf? keyword file = some use) :
    use.file = file := (Usage.useOf?_eq_some_iff.mp h).1.symm

theorem uses_ne_zero {use : FileUse} (h : Usage.useOf? keyword file = some use) :
    file.uses keyword ≠ 0 := by
  obtain ⟨rfl, huses, hpos⟩ := Usage.useOf?_eq_some_iff.mp h
  rw [← huses]
  exact Nat.one_le_iff_ne_zero.mp hpos

/-- Where they are the uses of listed files only, they are those that are recomputed from these. -/
theorem Spans.eq_usesOf {uses : SortedMap FileUse} (h : Spans files i keyword uses)
    (hkeyed : Keyed i.files)
    (hlisted : ∀ text use, uses.get? text = some use →
      i.files.get? use.file.path.shown = some use.file) :
    uses = Usage.usesOf keyword (byPath i.files) := by
  refine SortedMap.ext_get? fun text => Option.ext fun use => ?_
  rw [Usage.get?_usesOf, Option.bind_eq_some_iff]
  constructor
  · intro huse
    obtain ⟨-, htext, hof⟩ := h.given text use huse
    exact ⟨use.file, (get?_byPath hkeyed).mpr ⟨hlisted text use huse, htext⟩, hof⟩
  · rintro ⟨file, hfile, hof⟩
    obtain ⟨hlisted, rfl⟩ := (get?_byPath hkeyed).mp hfile
    exact h.listed _ file use hlisted hof

/-- There are not less uses than listed files have, and where there are not more, they are those of the
listed files. -/
theorem Spans.eq_of_size {uses : SortedMap FileUse} (h : Spans files i keyword uses)
    (hkeyed : Keyed i.files)
    (hsize : uses.size ≤ (Usage.usesOf keyword (byPath i.files)).size) :
    uses = Usage.usesOf keyword (byPath i.files) := by
  have hfound : ∀ text use, (Usage.usesOf keyword (byPath i.files)).get? text = some use →
      uses.get? text = some use := by
    intro text use huse
    rw [Usage.get?_usesOf, Option.bind_eq_some_iff] at huse
    obtain ⟨file, hfile, hof⟩ := huse
    obtain ⟨hlisted, rfl⟩ := (get?_byPath hkeyed).mp hfile
    exact h.listed _ file use hlisted hof
  have hsubset : (Usage.usesOf keyword (byPath i.files)).keys ⊆ uses.keys := by
    intro text htext
    obtain ⟨use, huse⟩ := SortedMap.mem_keys.mp htext
    exact SortedMap.mem_keys.mpr ⟨use, hfound text use huse⟩
  have hperm := (List.subperm_of_subset (SortedMap.nodup_keys _) hsubset).perm_of_length_le (by
    rw [SortedMap.keys, SortedMap.keys, List.length_map, List.length_map]
    exact hsize)
  refine SortedMap.ext_get? fun text => Option.ext fun use => ⟨fun huse => ?_, hfound text use⟩
  obtain ⟨other, hother⟩ :=
    SortedMap.mem_keys.mp (hperm.mem_iff.mpr (SortedMap.mem_keys.mpr ⟨use, huse⟩))
  rw [hfound text other hother] at huse
  rw [hother, huse]

/-- One pass has the uses of the listed files. -/
theorem spans_ofFiles (hsound : ∀ f ∈ files, f.Sound) (keyword : String) :
    Spans files (ofFiles files) keyword
      (Usage.usesOf keyword (byPath (ofFiles files).files)) := by
  have hconsistent := consistent_ofFiles hsound
  refine ⟨hconsistent.counted keyword, fun text use huse => ?_, fun key file use hfile hof => ?_⟩
  · rw [Usage.get?_usesOf] at huse
    obtain ⟨file, hfile, hof⟩ := Option.bind_eq_some_iff.mp huse
    obtain ⟨hfile, htext⟩ := (get?_byPath hconsistent.keyed).mp hfile
    obtain rfl := file_of_useOf? hof
    exact ⟨(mem_of_gathers (.piece files) hsound hfile).1, htext, hof⟩
  · rw [← hconsistent.keyed key file hfile] at hfile
    rw [Usage.get?_usesOf, (get?_byPath hconsistent.keyed).mpr ⟨hfile, rfl⟩]
    exact hof

/-- **Whatever the plan, the uses of a keyword are those of listed files and of other files of the
plan**: what a merge takes over from the right is left out only if something that is shown alike has
been listed on the left. -/
theorem exists_spans (h : Gathers plan i) (hsound : ∀ f ∈ plan.toList, f.Sound) (keyword : String) :
    ∃ uses, Spans plan.toList i keyword uses := by
  induction h with
  | piece files => exact ⟨_, spans_ofFiles hsound keyword⟩
  | @join left right i j r hl hr hmerge ihleft ihright =>
    obtain ⟨hleft, hright⟩ := List.forall_mem_append.mp hsound
    obtain ⟨uses, huses⟩ := ihleft hleft
    obtain ⟨others, hothers⟩ := ihright hright
    refine ⟨uses.union others, ?_, fun text use huse => ?_, fun key file use hfile hof => ?_⟩
    · have hcombines := hmerge.keywords keyword
      rw [huses.counted, hothers.counted] at hcombines
      exact Usage.tally?_of_combines (fun text use huse => (hothers.given text use huse).2.1)
        hcombines
    · rw [SortedMap.get?_union, Option.or_eq_some_iff] at huse
      rcases huse with huse | ⟨-, huse⟩
      · obtain ⟨hmem, hrest⟩ := huses.given text use huse
        exact ⟨List.mem_append_left _ hmem, hrest⟩
      · obtain ⟨hmem, hrest⟩ := hothers.given text use huse
        exact ⟨List.mem_append_right _ hmem, hrest⟩
    · rw [hmerge.files, SortedMap.get?_union, Option.or_eq_some_iff] at hfile
      rw [SortedMap.get?_union]
      rcases hfile with hfile | ⟨hnone, hfile⟩
      · rw [huses.listed key file use hfile hof, Option.some_or]
      · -- A use on the left would be that of a file with the same path, for which something is listed.
        have hfree : uses.get? file.path.text = none := by
          refine Option.eq_none_iff_forall_ne_some.mpr fun other hother => ?_
          obtain ⟨hmem, htext, -⟩ := huses.given _ other hother
          have hpath : other.file.path = file.path := congrArg Path.mk htext
          rw [← (mem_of_gathers hr hright hfile).2, ← hpath] at hnone
          exact get?_ne_none hl hleft hmem hnone
        rw [hfree, Option.none_or]
        exact hothers.listed key file use hfile hof

/-- **An index is consistent if its usages have as many files as its files say.** -/
theorem consistent_of_fileCounts (h : Gathers plan i) (hsound : ∀ f ∈ plan.toList, f.Sound)
    (hcounts : ∀ keyword u, i.keywords.get? keyword = some u → u.name = keyword →
      u.fileCount ≤ (i.files.values.filterMap (Usage.useOf? keyword)).length) : i.Consistent := by
  have hkeyed := keyed_of_gathers h hsound
  refine ⟨hkeyed, fun keyword => ?_⟩
  obtain ⟨uses, huses⟩ := exists_spans h hsound keyword
  have hlength : (Usage.usesOf keyword (byPath i.files)).size =
      (i.files.values.filterMap (Usage.useOf? keyword)).length := by
    rw [← ((perm_byPath hkeyed).filterMap _).length_eq, ← SortedMap.values_filterMap,
      SortedMap.values, List.length_map]
    rfl
  rw [huses.counted, Usage.of?, huses.eq_of_size hkeyed]
  rw [hlength]
  cases hempty : uses.isEmpty with
  | true =>
    have hnil : uses.entries = [] := List.isEmpty_iff.mp hempty
    rw [SortedMap.size, hnil]
    exact Nat.zero_le _
  | false =>
    refine hcounts keyword (Usage.tally keyword uses) ?_ rfl
    rw [huses.counted, Usage.tally?, hempty]
    rfl

/-! ## Files that are shown alike -/

/-- Does every file with a keyword have the path of the first file that is shown alike? -/
def Unmixed (files : List Specification) : Prop :=
  ∀ g ∈ files, g.keywords ≠ [] →
    (files.find? fun f => f.path.shown = g.path.shown).map Specification.path = some g.path

/-- Files that are told apart are not mixed. -/
theorem unmixed_of_toldApart (h : ToldApart (· ∈ files)) : Unmixed files := by
  intro g hg _
  cases hfirst : files.find? fun f => f.path.shown = g.path.shown with
  | none =>
    rw [List.find?_eq_none] at hfirst
    exact absurd (decide_eq_true rfl) (hfirst g hg)
  | some f =>
    obtain ⟨hf, hshown⟩ := first_of_find? hfirst
    exact congrArg some (h f g hf hg hshown)

/-- A tree with two files whose names differ in a byte that is no character. -/
def mixedTree : FileTree :=
  ⟨.directory [("a\u00FE.essence", .file "find x\n".toUTF8 0o644),
    ("a\u00FF.essence", .file "find x\n".toUTF8 0o644)], [], List.forall_mem_nil _⟩

/-- The specification in one of its files. -/
def mixedFile (path : Path) : Specification := { loneFile with path }

theorem load_mixedTree {path : Path}
    (h : path = ⟨"/a\u00FE.essence"⟩ ∨ path = ⟨"/a\u00FF.essence"⟩) :
    Specification.load mixedTree steadyOracle SortedMap.empty path = .ok (mixedFile path) := by
  have hpath : Specification.canonicalPath? mixedTree path = some path := by
    rcases h with rfl | rfl <;> decide +kernel
  have hlines : mixedTree.countLines path = .ok 1 := by
    rcases h with rfl | rfl <;> decide +kernel
  rw [Specification.load, hpath]
  simp only [hlines]
  rfl

/-- A file that has a use of a keyword has a keyword. -/
theorem keywords_ne_nil (hfile : file.Sound) {use : FileUse}
    (h : Usage.useOf? keyword file = some use) : file.keywords ≠ [] := by
  have hmem : keyword ∈ file.keywords := (Specification.mem_keywords hfile).mpr (uses_ne_zero h)
  exact List.ne_nil_of_mem hmem

/-- **Files that are not mixed may be indexed by any plan.** -/
theorem eq_ofFiles_of_gathers (h : Gathers plan i) (hsound : ∀ f ∈ plan.toList, f.Sound)
    (hequal : ∀ f ∈ plan.toList, ∀ g ∈ plan.toList, f.path = g.path → f.counts = g.counts)
    (hunmixed : Unmixed plan.toList) : i = ofFiles plan.toList := by
  have hkeyed := keyed_of_gathers h hsound
  have hconsistent : i.Consistent := by
    refine ⟨hkeyed, fun keyword => ?_⟩
    obtain ⟨uses, huses⟩ := exists_spans h hsound keyword
    rw [huses.counted, Usage.of?, huses.eq_usesOf hkeyed]
    intro text use huse
    obtain ⟨hmem, htext, hof⟩ := huses.given text use huse
    -- The first file that is shown alike has the same path, so it has the same use.
    obtain ⟨first, hfirst, hpath⟩ :=
      Option.map_eq_some_iff.mp (hunmixed _ hmem (keywords_ne_nil (hsound _ hmem) hof))
    rw [← get?_of_gathers h hsound] at hfirst
    have hcounts := hequal first (mem_of_gathers h hsound hfirst).1 use.file hmem hpath
    have hused : first.uses keyword ≠ 0 := by
      rw [Specification.uses, hcounts]
      exact uses_ne_zero hof
    have hlisted := huses.listed _ first _ hfirst (Usage.useOf?_eq_some hused)
    rw [hpath, htext, huse] at hlisted
    have hfile : use.file = first := congrArg FileUse.file (Option.some.inj hlisted)
    rw [hfile] at hfirst ⊢
    exact hfirst
  refine eq_of_files hconsistent (consistent_ofFiles hsound) (SortedMap.ext_get? fun key => ?_)
  rw [get?_of_gathers h hsound, get?_ofFiles hsound]

/-- **Where a file with a keyword is mixed up, cutting the list before it gives another index**: it
comes first in its part, and its use is there to stay. -/
theorem ne_ofFiles_of_mergesTo {g : Specification} (hsound : ∀ f ∈ files ++ g :: more, f.Sound)
    (hused : g.keywords ≠ [])
    (hmixed : ((files ++ g :: more).find? fun f => f.path.shown = g.path.shown).map
      Specification.path ≠ some g.path)
    (h : MergesTo (ofFiles files) (ofFiles (g :: more)) r) : r ≠ ofFiles (files ++ g :: more) := by
  rintro rfl
  obtain ⟨hfiles, hmore⟩ := List.forall_mem_append.mp hsound
  obtain ⟨keyword, hkeyword⟩ := List.exists_mem_of_ne_nil _ hused
  have huses := (Specification.mem_keywords (hmore g (List.mem_cons_self ..))).mp hkeyword
  have hleft := spans_ofFiles hfiles keyword
  have hright := spans_ofFiles hmore keyword
  have hwhole := spans_ofFiles hsound keyword
  have hcombines := h.keywords keyword
  rw [hleft.counted, hright.counted, hwhole.counted] at hcombines
  have htally := Usage.tally?_of_combines (fun text use huse => (hright.given text use huse).2.1)
    hcombines
  have hfirst : (ofFiles (g :: more)).files.get? g.path.shown = some g := by
    rw [get?_ofFiles hmore, List.find?_cons, decide_eq_true rfl]
  have huse := hright.listed _ g _ hfirst (Usage.useOf?_eq_some huses)
  -- So both usages are there, and that of one pass has a use under the path of the file as well.
  obtain ⟨use, hboth⟩ : ∃ use, ((Usage.usesOf keyword (byPath (ofFiles files).files)).union
      (Usage.usesOf keyword (byPath (ofFiles (g :: more)).files))).get? g.path.text = some use := by
    rw [SortedMap.get?_union, huse]
    exact Option.isSome_iff_exists.mp (by simp)
  rw [Usage.tally?_eq_some hboth] at htally
  have hsame := congrArg Usage.files (Usage.tally?_eq_some_iff.mp htally).2
  rw [Usage.tally_files, Usage.tally_files] at hsame
  rw [← hsame] at hboth
  obtain ⟨hmem, htext, hof⟩ := hwhole.given _ use hboth
  have hpath : use.file.path = g.path := congrArg Path.mk htext
  rw [Usage.get?_usesOf] at hboth
  obtain ⟨file, hfile, hof⟩ := Option.bind_eq_some_iff.mp hboth
  obtain rfl := file_of_useOf? hof
  obtain ⟨hfile, -⟩ := (get?_byPath (consistent_ofFiles hsound).keyed).mp hfile
  rw [get?_ofFiles hsound, hpath] at hfile
  rw [hfile] at hmixed
  exact hmixed (congrArg some hpath)

end Index

end KeywordCensus
