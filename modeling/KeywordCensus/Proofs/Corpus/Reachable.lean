import KeywordCensus.Proofs.Corpus.Consistency
import KeywordCensus.Proofs.Text.Bytes
import Mathlib.Data.List.Nodup

/-!
# What holds of every index that can be built

An index starts empty, takes files, and takes over other indexes, in any order and as often as one
likes (`Index.Built`). Whatever the files are, as long as they have been loaded, are told apart by what
is shown of their paths, and a path always comes with the same counts, the result is coherent:
`coherent_of_built` gives each file its place, each used keyword its usage, and each usage exact
numbers. Paths that are texts are told apart (`toldApart_of_texts`).
-/

namespace KeywordCensus

namespace Usage

/-- What the usage of a keyword among some files is. -/
structure Exact (u : Usage) (keyword : String) (files : SortedMap Specification) : Prop where
  /-- It bears the name of the keyword. -/
  name : u.name = keyword
  /-- It lists the files that use the keyword, with the number of their uses. -/
  uses : ∀ text use, u.files.get? text = some use ↔
    (files.get? use.file.path.shown = some use.file ∧ use.file.path.text = text) ∧
      use.uses = use.file.uses keyword ∧ 1 ≤ use.uses
  /-- There are such files. -/
  used : u.files.isEmpty = false
  /-- The total is the sum over these files. -/
  total : u.total = (u.files.values.map FileUse.uses).sum
  /-- The least number is their minimum. -/
  least : u.least = (u.files.values.map FileUse.uses).min?
  /-- The greatest number is their maximum. -/
  greatest : u.greatest = (u.files.values.map FileUse.uses).max?
  /-- The mean exists. -/
  average : u.average = .ok (Floating.div .binary64 (Floating.ofNat .binary64 u.total)
    (Floating.ofNat .binary64 u.fileCount))
  /-- The mean lies between the least and the greatest number. -/
  between : ∃ lo hi, u.least = some lo ∧ u.greatest = some hi ∧
    lo * u.fileCount ≤ u.total ∧ u.total ≤ hi * u.fileCount

variable {keyword key : String} {files : SortedMap Specification} {file : Specification}

/-- A file has a use of a keyword exactly if it uses it at least once, and then the use is of that
file and that number. -/
theorem useOf?_eq_some_iff {use : FileUse} :
    useOf? keyword file = some use ↔
      file = use.file ∧ use.uses = use.file.uses keyword ∧ 1 ≤ use.uses := by
  constructor
  · intro h
    by_cases hused : file.uses keyword = 0
    · rw [useOf?_eq_none hused] at h
      cases h
    · rw [useOf?_eq_some hused] at h
      cases h
      exact ⟨rfl, rfl, Nat.one_le_iff_ne_zero.mpr hused⟩
  · rintro ⟨rfl, huses, hpos⟩
    rw [huses] at hpos
    rw [useOf?_eq_some (Nat.one_le_iff_ne_zero.mp hpos), ← huses]

/-- A tally of at least one file has a least and a greatest number, and the total lies between. -/
theorem tally_between (keyword : String) {uses : SortedMap FileUse} (h : uses.isEmpty = false) :
    ∃ lo hi, (tally keyword uses).least = some lo ∧ (tally keyword uses).greatest = some hi ∧
      lo * (tally keyword uses).fileCount ≤ (tally keyword uses).total ∧
      (tally keyword uses).total ≤ hi * (tally keyword uses).fileCount := by
  have hsize : (amounts uses).length = (tally keyword uses).fileCount := by
    rw [amounts, List.length_map, SortedMap.values, List.length_map]
    rfl
  have hne : amounts uses ≠ [] := by
    intro hnil
    rw [amounts, List.map_eq_nil_iff, SortedMap.values, List.map_eq_nil_iff] at hnil
    rw [SortedMap.isEmpty, hnil] at h
    cases h
  obtain ⟨lo, hlo⟩ := Option.isSome_iff_exists.mp (List.isSome_min?_of_ne_nil hne)
  obtain ⟨hi, hhi⟩ := Option.isSome_iff_exists.mp (List.isSome_max?_of_ne_nil hne)
  refine ⟨lo, hi, hlo, hhi, ?_, ?_⟩
  · rw [← hsize]
    exact List.mul_length_le_sum_of_min?_eq_some_nat hlo
  · rw [← hsize]
    exact List.sum_le_max_mul_length_of_max?_eq_some_nat hhi

/-- The recomputed usage of a keyword is exact. -/
theorem exact_of? (hkeyed : Index.Keyed files) {u : Usage}
    (h : of? keyword (Index.byPath files) = some u) : u.Exact keyword files := by
  obtain ⟨⟨key, use, huse⟩, rfl⟩ := tally?_eq_some_iff.mp h
  have hused : (usesOf keyword (Index.byPath files)).isEmpty = false := by
    -- There is an aggregate, so some file uses the keyword.
    refine Bool.eq_false_iff.mpr fun hempty => ?_
    rw [SortedMap.isEmpty_iff.mp hempty key] at huse
    cases huse
  constructor
  · rfl
  · intro text use
    rw [tally_files, get?_usesOf, Option.bind_eq_some_iff, ← Index.get?_byPath hkeyed]
    constructor
    · rintro ⟨file, hfile, hof⟩
      obtain ⟨rfl, hrest⟩ := useOf?_eq_some_iff.mp hof
      exact ⟨hfile, hrest⟩
    · rintro ⟨hfile, hrest⟩
      exact ⟨use.file, hfile, useOf?_eq_some_iff.mpr ⟨rfl, hrest⟩⟩
  · exact hused
  · rfl
  · rfl
  · rfl
  · rw [average, tally_files, hused]
    rfl
  · exact tally_between keyword hused

end Usage

namespace Index

/-- How an index comes about whose files all belong to a given collection. -/
inductive Built (collection : Specification → Prop) : Index → Prop
  /-- It starts empty. -/
  | empty : Built collection empty
  /-- It takes a file. -/
  | add {i : Index} {file : Specification} :
      Built collection i → collection file → Built collection (i.add file)
  /-- It takes over another index. -/
  | merge {i j r : Index} :
      Built collection i → Built collection j → MergesTo i j r → Built collection r

/-- What a reader of an index relies on. -/
structure Coherent (i : Index) : Prop where
  /-- Every file is listed under its own path. -/
  placed : ∀ key file, i.files.get? key = some file → key = file.pathText 0
  /-- No path is listed twice. -/
  distinct : (i.files.values.map Specification.path).Nodup
  /-- A keyword is listed if some listed file uses it. -/
  listed : ∀ keyword, (∃ u, i.keywords.get? keyword = some u) ↔
    ∃ file ∈ i.files.values, 1 ≤ file.uses keyword
  /-- Every listed usage is exact. -/
  exact : ∀ keyword u, i.keywords.get? keyword = some u → u.Exact keyword i.files

variable {collection : Specification → Prop} {i j r : Index} {file : Specification}

/-- Do all listed files belong to a collection? -/
def Within (collection : Specification → Prop) (i : Index) : Prop :=
  ∀ key file, i.files.get? key = some file → collection file

/-- Adding a file of the collection keeps an index within the collection. -/
theorem within_add (h : Within collection i) (hfile : collection file) (hsound : file.Sound) :
    Within collection (i.add file) := by
  intro key other hother
  rw [files_add hsound, SortedMap.get?_insertIfNew] at hother
  split at hother
  · -- A path that is listed already keeps its file.
    rename_i hkey
    rw [hkey] at hother
    cases hknown : i.files.get? key with
    | none =>
      rw [hknown] at hother
      cases hother
      exact hfile
    | some known =>
      rw [hknown] at hother
      cases hother
      exact h key known hknown
  · exact h key other hother

/-- Do files of a collection that are shown alike have one path? -/
def ToldApart (collection : Specification → Prop) : Prop :=
  ∀ f g, collection f → collection g → f.path.shown = g.path.shown → f.path = g.path

/-- Paths that are texts are told apart. -/
theorem toldApart_of_texts (h : ∀ f, collection f → ∃ s, f.path = Path.ofText s) :
    ToldApart collection := by
  intro f g hf hg hshown
  obtain ⟨s, hs⟩ := h f hf
  obtain ⟨s', hs'⟩ := h g hg
  rw [hs, hs', Path.shown, Path.shown, Path.ofText, Path.ofText, Text.ofBytes_toBytes,
    Text.ofBytes_toBytes] at hshown
  rw [hs, hs', hshown]

theorem within_mergesTo (hi : Within collection i) (hj : Within collection j)
    (h : MergesTo i j r) : Within collection r := by
  intro key file hfile
  rw [h.files, SortedMap.get?_union, Option.or_eq_some_iff] at hfile
  rcases hfile with hfile | ⟨-, hfile⟩
  · exact hi key file hfile
  · exact hj key file hfile

/-- Consistent indexes whose files come from one collection agree on the files they share. -/
theorem compatible_of_within (hapart : ToldApart collection)
    (hequal : ∀ f g, collection f → collection g → f.path = g.path → f.counts = g.counts)
    (hi : i.Consistent) (hj : j.Consistent) (hwi : Within collection i)
    (hwj : Within collection j) : i.Compatible j := by
  intro key f g hf hg
  have hshown : f.path.shown = g.path.shown := (hi.keyed key f hf).trans (hj.keyed key g hg).symm
  have hpath := hapart f g (hwi key f hf) (hwj key g hg) hshown
  exact ⟨hpath, hequal f g (hwi key f hf) (hwj key g hg) hpath⟩

/-- Every step of building keeps the index consistent. -/
theorem consistent_of_built (hsound : ∀ f, collection f → f.Sound) (hapart : ToldApart collection)
    (hequal : ∀ f g, collection f → collection g → f.path = g.path → f.counts = g.counts)
    (h : Built collection i) : i.Consistent ∧ Within collection i := by
  induction h with
  | empty =>
    refine ⟨consistent_empty, ?_⟩
    intro key file hfile
    cases hfile
  | add _ hfile ih =>
    obtain ⟨hconsistent, hwithin⟩ := ih
    exact ⟨consistent_add hconsistent (hsound _ hfile), within_add hwithin hfile (hsound _ hfile)⟩
  | merge _ _ hmerge ihi ihj =>
    obtain ⟨hci, hwi⟩ := ihi
    obtain ⟨hcj, hwj⟩ := ihj
    have hcompatible := compatible_of_within hapart hequal hci hcj hwi hwj
    exact ⟨consistent_mergesTo hci hcj hcompatible hmerge, within_mergesTo hwi hwj hmerge⟩

/-- The paths of a consistent index are its keys. -/
theorem nodup_paths (h : i.Consistent) : (i.files.values.map Specification.path).Nodup := by
  -- What is shown of the paths are the keys, and those differ.
  refine List.Nodup.of_map Path.shown ?_
  have hkeys : (i.files.values.map Specification.path).map Path.shown = i.files.keys := by
    rw [SortedMap.values, SortedMap.keys, List.map_map, List.map_map]
    refine List.map_congr_left ?_
    rintro ⟨key, file⟩ hmem
    exact h.keyed key file (SortedMap.mem_entries.mp hmem)
  rw [hkeys]
  exact i.files.nodup_keys

/-- A consistent index lists the keywords that its files use. -/
theorem listed_iff_used (h : i.Consistent) (keyword : String) :
    (∃ u, i.keywords.get? keyword = some u) ↔ ∃ file ∈ i.files.values, 1 ≤ file.uses keyword := by
  constructor
  · rintro ⟨u, hu⟩
    rw [h.counted] at hu
    obtain ⟨⟨text, use, huse⟩, -⟩ := Usage.tally?_eq_some_iff.mp hu
    rw [Usage.get?_usesOf] at huse
    obtain ⟨file, hfile, hof⟩ := Option.bind_eq_some_iff.mp huse
    obtain ⟨rfl, huses, hpos⟩ := Usage.useOf?_eq_some_iff.mp hof
    rw [huses] at hpos
    exact ⟨use.file, (mem_values_iff h.keyed).mpr ((get?_byPath h.keyed).mp hfile).1, hpos⟩
  · rintro ⟨file, hfile, hpos⟩
    have hpath := (get?_byPath h.keyed).mpr ⟨(mem_values_iff h.keyed).mp hfile, rfl⟩
    have huse : (Usage.usesOf keyword (byPath i.files)).get? file.path.text =
        some ⟨file, file.uses keyword⟩ := by
      rw [Usage.get?_usesOf, hpath, Option.bind_some,
        Usage.useOf?_eq_some (Nat.one_le_iff_ne_zero.mp hpos)]
    exact ⟨_, (h.counted keyword).trans (Usage.tally?_eq_some huse)⟩

/-- **Every index that is built from loaded files is coherent**, provided that the files are told apart
by what is shown of their paths, and that a path always comes with the same counts. Merging it with
another one is one of the steps of building. -/
theorem coherent_of_built (hloaded : ∀ f, collection f → f.Loaded) (hapart : ToldApart collection)
    (hequal : ∀ f g, collection f → collection g → f.path = g.path → f.counts = g.counts)
    (h : Built collection i) : i.Coherent ∧ ∀ other, MergesTo i other (i.merge other) := by
  have hsound : ∀ f, collection f → f.Sound := fun f hf =>
    Specification.sound_of_loaded (hloaded f hf)
  obtain ⟨hconsistent, hwithin⟩ := consistent_of_built hsound hapart hequal h
  refine ⟨⟨?_, nodup_paths hconsistent, listed_iff_used hconsistent, ?_⟩, mergesTo_merge i⟩
  · intro key file hfile
    rw [(hsound file (hwithin key file hfile)).canonical]
    exact (hconsistent.keyed key file hfile).symm
  · intro keyword u hu
    rw [hconsistent.counted] at hu
    exact Usage.exact_of? hconsistent.keyed hu

/-- A tree with one specification. -/
def loneTree : FileTree :=
  ⟨.directory [("a.essence", .file "find x\n".toUTF8 0o644)], [], by decide⟩

/-- An oracle that answers every path with the same syntax tree. -/
def steadyOracle : Oracle := ⟨fun _ => .ok (.object [("find", .null)]), .ok ⟨none, none⟩⟩

/-- The specification of that tree. -/
def loneFile : Specification :=
  ⟨⟨"/a.essence"⟩, .object [("find", .null)],
    countKeys SortedMap.empty (.object [("find", .null)]), 1, none⟩

theorem load_loneTree :
    Specification.load loneTree steadyOracle SortedMap.empty ⟨"a.essence"⟩ = .ok loneFile := by
  have hpath : Specification.canonicalPath? loneTree ⟨"a.essence"⟩ = some ⟨"/a.essence"⟩ := by
    decide +kernel
  have hlines : loneTree.countLines ⟨"/a.essence"⟩ = .ok 1 := by decide +kernel
  rw [Specification.load, hpath]
  simp only [hlines]
  rfl

/-- Two indexes that hold the same file for different repositories are merged. -/
theorem coherent_merge_lone :
    ((empty.add (loneFile.inRepository "one")).merge
      (empty.add (loneFile.inRepository "two"))).Coherent := by
  have hone : Built (fun f => ∃ name, f = loneFile.inRepository name)
      (empty.add (loneFile.inRepository "one")) := .add .empty ⟨"one", rfl⟩
  have htwo : Built (fun f => ∃ name, f = loneFile.inRepository name)
      (empty.add (loneFile.inRepository "two")) := .add .empty ⟨"two", rfl⟩
  refine (coherent_of_built ?_ (toldApart_of_texts ?_) ?_ (.merge hone htwo (mergesTo_merge _ _))).1
  · rintro f ⟨name, rfl⟩
    exact ⟨loneTree, steadyOracle, _, _, loneFile, load_loneTree, .inr ⟨name, rfl⟩⟩
  · rintro f ⟨name, rfl⟩
    have htext : Text.toBytes "/a.essence" = "/a.essence" := Text.toBytes_of_ascii (by decide)
    exact ⟨"/a.essence", congrArg Path.mk htext.symm⟩
  · rintro f g ⟨_, rfl⟩ ⟨_, rfl⟩ -
    rfl

end Index

end KeywordCensus
