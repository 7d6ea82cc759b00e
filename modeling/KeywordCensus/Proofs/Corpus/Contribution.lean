import Mathlib.Data.List.Induction
import KeywordCensus.Proofs.Corpus.Gathering

/-!
# A usage is made of its contributing files

A usage of a keyword starts empty, is offered files, and takes over other usages of the keyword, in any
order and as often as one likes (`Usage.Offered`). Of the files that it is offered, the first one of
each path that uses the keyword contributes, and the usage is the tally of these
(`eq_tally_of_offered`): the step lemmas are `add_eq` for a file and `mergesTo_tally` for a merge.

So a usage is known from the set of the files it was offered, where a path always comes with the same
counts: `aggregate_of_offered` says what it lists, which files it still takes, and that a merge does
not depend on the order in which the files of the other usage are met.
-/

namespace KeywordCensus

namespace Usage

variable {collection : Specification → Prop} {keyword key : String} {file : Specification}
  {files more other : List Specification} {u v r : Usage} {use : FileUse}

/-- How a usage of a keyword comes about, with the files of a collection that it has been offered. -/
inductive Offered (collection : Specification → Prop) (keyword : String) :
    List Specification → Usage → Prop
  /-- It starts without files. -/
  | unused : Offered collection keyword [] (unused keyword)
  /-- It is offered a file, whether it takes it or not. -/
  | add {files : List Specification} {file : Specification} {u : Usage} :
      Offered collection keyword files u → collection file →
      Offered collection keyword (files ++ [file]) (u.add file)
  /-- It takes over another usage of the keyword, whose files are met in some order. -/
  | merge {files more : List Specification} {u v r : Usage} :
      Offered collection keyword files u → Offered collection keyword more v → u.MergesTo v r →
      Offered collection keyword (files ++ more) r

theorem mem_collection_of_offered (h : Offered collection keyword files u) :
    ∀ f ∈ files, collection f := by
  induction h with
  | unused => exact List.forall_mem_nil _
  | add _ hfile ih => exact List.forall_mem_append.mpr ⟨ih, List.forall_mem_singleton.mpr hfile⟩
  | merge _ _ _ ihu ihv => exact List.forall_mem_append.mpr ⟨ihu, ihv⟩

/-- A usage may be offered the files of any list. -/
theorem offered_ofFiles (h : ∀ f ∈ files, collection f) :
    Offered collection keyword files (ofFiles keyword files) := by
  induction files using List.reverseRecOn with
  | nil => exact .unused
  | append_singleton files file ih =>
    obtain ⟨hfiles, hfile⟩ := List.forall_mem_append.mp h
    rw [ofFiles, List.foldl_append]
    exact .add (ih hfiles) (List.forall_mem_singleton.mp hfile)

/-! ## The files that contribute -/

/-- The files that contribute to the usage of a keyword: of those that use it, the first one of each
path. -/
def contributions (keyword : String) (files : List Specification) : SortedMap FileUse :=
  ((files.filterMap (useOf? keyword)).map entry).foldl (fun m e => m.insertIfNew e.1 e.2)
    SortedMap.empty

/-- At a key the contributions to a keyword hold what the first offered file of that key that uses
the keyword contributes. -/
theorem get?_contributions (keyword key : String) (files : List Specification) :
    (contributions keyword files).get? key =
      Entries.get? key ((files.filterMap (useOf? keyword)).map entry) := by
  rw [contributions, SortedMap.get?_foldl_insertIfNew, SortedMap.get?_empty, Option.none_or]

/-- Contributions of two listings one after the other are united to the left, as the earlier file of
a path is kept. -/
theorem contributions_append (keyword : String) (files more : List Specification) :
    contributions keyword (files ++ more) =
      (contributions keyword files).union (contributions keyword more) := by
  refine SortedMap.ext_get? fun key => ?_
  rw [SortedMap.get?_union, get?_contributions, get?_contributions, get?_contributions,
    List.filterMap_append, List.map_append, Entries.get?_append]

/-- What contributes is a file of the list that uses the keyword, under its path. -/
theorem contributions_eq_some (h : (contributions keyword files).get? key = some use) :
    use.file ∈ files ∧ use.file.path.text = key ∧ use.uses = use.file.uses keyword ∧
      1 ≤ use.uses := by
  rw [get?_contributions] at h
  obtain ⟨listed, hlisted, hentry⟩ := List.mem_map.mp (Entries.mem_of_get? h)
  cases hentry
  obtain ⟨file, hfile, huse⟩ := List.mem_filterMap.mp hlisted
  obtain ⟨rfl, huses, hpos⟩ := useOf?_eq_some_iff.mp huse
  exact ⟨hfile, rfl, huses, hpos⟩

/-- A path contributes if some file of the list has it and uses the keyword. -/
theorem contributions_ne_none : (contributions keyword files).get? key ≠ none ↔
    ∃ f ∈ files, f.path.text = key ∧ 1 ≤ f.uses keyword := by
  constructor
  · intro h
    obtain ⟨use, huse⟩ := Option.ne_none_iff_exists'.mp h
    obtain ⟨hmem, hkey, huses, hpos⟩ := contributions_eq_some huse
    exact ⟨use.file, hmem, hkey, huses ▸ hpos⟩
  · rintro ⟨f, hf, rfl, hpos⟩ hnone
    rw [get?_contributions, Entries.get?_eq_none_iff] at hnone
    have huse : useOf? keyword f = some ⟨f, f.uses keyword⟩ :=
      useOf?_eq_some (Nat.one_le_iff_ne_zero.mp hpos)
    have hentry := List.mem_map_of_mem (f := entry) (List.mem_filterMap.mpr ⟨f, hf, huse⟩)
    exact hnone (List.mem_map_of_mem (f := (·.1)) hentry)

theorem filesKeyed_contributions : FilesKeyed (contributions keyword files) := fun _ _ h =>
  (contributions_eq_some h).2.1

/-- **A file is recorded if it uses the keyword and its path is new.** -/
theorem add_eq (u : Usage) (file : Specification) :
    u.add file = ((useOf? u.name file).map u.recordIfNew).getD u := by
  rw [add, wants, useOf?]
  by_cases hused : file.uses u.name = 0
  · rw [if_pos hused, hused]
    rfl
  · rw [if_neg hused, bne_iff_ne.mpr hused, Bool.true_and, Option.map_some, Option.getD_some,
      recordIfNew]
    cases u.files.contains file.path.text <;> rfl

/-- The step: adding a file to the tally of what was offered is the tally of what is then offered.
-/
theorem add_tally_contributions (keyword : String) (files : List Specification)
    (file : Specification) : (tally keyword (contributions keyword files)).add file =
      tally keyword (contributions keyword (files ++ [file])) := by
  have hmore : contributions keyword (files ++ [file]) =
      (([file].filterMap (useOf? keyword)).map entry).foldl (fun m e => m.insertIfNew e.1 e.2)
        (contributions keyword files) := by
    rw [contributions, List.filterMap_append, List.map_append, List.foldl_append]
    rfl
  rw [hmore, List.filterMap_cons, List.filterMap_nil, add_eq]
  show ((useOf? keyword file).map (tally keyword (contributions keyword files)).recordIfNew).getD _ = _
  cases useOf? keyword file with
  | none => rfl
  | some use => exact recordIfNew_tally ..

/-- **A usage is the tally of the files that contribute.** -/
theorem eq_tally_of_offered (h : Offered collection keyword files u) :
    u = tally keyword (contributions keyword files) := by
  induction h with
  | unused => rfl
  | @add files file u _ _ ih => rw [ih, add_tally_contributions]
  | merge _ _ hmerge ihu ihv =>
    rw [ihu, ihv] at hmerge
    rw [mergesTo_tally filesKeyed_contributions hmerge, contributions_append]

/-! ## What is known from the files -/

/-- What the usage of a keyword is that has been offered some files. -/
structure Aggregates (keyword : String) (files : List Specification) (u : Usage) : Prop where
  /-- It bears the name of the keyword. -/
  name : u.name = keyword
  /-- The paths that are listed are those of the files that use the keyword, each with the number of
  the uses, -/
  uses : ∀ key n, (u.files.get? key).map FileUse.uses = some n ↔
    1 ≤ n ∧ ∃ f ∈ files, f.path.text = key ∧ f.uses keyword = n
  /-- and under each path stands one of these files. -/
  listed : ∀ key use, u.files.get? key = some use → use.file ∈ files ∧ use.file.path.text = key
  /-- The total is the sum of the uses. -/
  total : u.total = (u.files.values.map FileUse.uses).sum
  /-- The least number is their minimum, and there is none if no file is listed. -/
  least : u.least = (u.files.values.map FileUse.uses).min?
  least_eq_none : u.least = none ↔ u.files.isEmpty = true
  /-- The greatest number is their maximum, and there is none if no file is listed. -/
  greatest : u.greatest = (u.files.values.map FileUse.uses).max?
  greatest_eq_none : u.greatest = none ↔ u.files.isEmpty = true

theorem amounts_eq_nil {uses : SortedMap FileUse} : amounts uses = [] ↔ uses.isEmpty = true := by
  rw [amounts, List.map_eq_nil_iff, SortedMap.values, List.map_eq_nil_iff, SortedMap.isEmpty,
    List.isEmpty_iff]

section Determined

variable (hequal : ∀ f g, collection f → collection g → f.path = g.path →
  f.uses keyword = g.uses keyword)

include hequal

/-- Where a path comes with one number of uses, that number contributes. -/
theorem uses_contributions (hfiles : ∀ f ∈ files, collection f) (n : Nat) :
    ((contributions keyword files).get? key).map FileUse.uses = some n ↔
      1 ≤ n ∧ ∃ f ∈ files, f.path.text = key ∧ f.uses keyword = n := by
  constructor
  · intro h
    obtain ⟨use, huse, rfl⟩ := Option.map_eq_some_iff.mp h
    obtain ⟨hmem, hkey, huses, hpos⟩ := contributions_eq_some huse
    exact ⟨hpos, use.file, hmem, hkey, huses.symm⟩
  · rintro ⟨hpos, f, hf, hkey, rfl⟩
    obtain ⟨use, huse⟩ := Option.ne_none_iff_exists'.mp
      (contributions_ne_none.mpr ⟨f, hf, hkey, hpos⟩)
    obtain ⟨hmem, hsame, huses, -⟩ := contributions_eq_some huse
    have hpath : use.file.path = f.path := congrArg Path.mk (hsame.trans hkey.symm)
    rw [huse, Option.map_some, huses,
      hequal use.file f (hfiles use.file hmem) (hfiles f hf) hpath]

theorem aggregates_of_offered (h : Offered collection keyword files u) :
    u.Aggregates keyword files := by
  have hfiles := mem_collection_of_offered h
  rw [eq_tally_of_offered h]
  constructor
  case name => rfl
  case uses => exact fun key n => uses_contributions hequal hfiles n
  case listed =>
    intro key use huse
    obtain ⟨hmem, hkey, -⟩ := contributions_eq_some huse
    exact ⟨hmem, hkey⟩
  case total => rfl
  case least => rfl
  case least_eq_none => exact List.min?_eq_none_iff.trans amounts_eq_nil
  case greatest => rfl
  case greatest_eq_none => exact List.max?_eq_none_iff.trans amounts_eq_nil

/-- **Usages that have been offered the same paths have the same numbers.** -/
theorem numbers_eq_of_offered (hu : Offered collection keyword files u)
    (hv : Offered collection keyword more v)
    (hsame : ∀ p, (∃ f ∈ files, f.path = p) ↔ ∃ f ∈ more, f.path = p) :
    u.numbers = v.numbers := by
  have hfiles := mem_collection_of_offered hu
  have hmore := mem_collection_of_offered hv
  have huses : (contributions keyword files).map FileUse.uses =
      (contributions keyword more).map FileUse.uses := by
    refine SortedMap.ext_get? fun key => Option.ext fun n => ?_
    rw [SortedMap.get?_map, SortedMap.get?_map, uses_contributions hequal hfiles,
      uses_contributions hequal hmore]
    -- A file of one side has a file of the other side with its path, and so with its uses.
    refine and_congr_right fun _ => ⟨?_, ?_⟩
    · rintro ⟨f, hf, hkey, hn⟩
      obtain ⟨g, hg, hpath⟩ := (hsame f.path).mp ⟨f, hf, rfl⟩
      exact ⟨g, hg, hpath ▸ hkey, (hequal g f (hmore g hg) (hfiles f hf) hpath).trans hn⟩
    · rintro ⟨g, hg, hkey, hn⟩
      obtain ⟨f, hf, hpath⟩ := (hsame g.path).mpr ⟨g, hg, rfl⟩
      exact ⟨f, hf, hpath ▸ hkey, (hequal f g (hfiles f hf) (hmore g hg) hpath).trans hn⟩
  have hamounts : amounts (contributions keyword files) = amounts (contributions keyword more) := by
    rw [amounts, ← SortedMap.values_map, huses, SortedMap.values_map, amounts]
  rw [eq_tally_of_offered hu, eq_tally_of_offered hv, numbers, numbers, tally, tally, huses, hamounts]

/-- A file is still taken if it uses the keyword and no file with its path has been offered. -/
theorem wants_iff_of_offered (h : Offered collection keyword files u) (hfile : collection file) :
    u.wants file = true ↔ 1 ≤ file.uses keyword ∧ ∀ f ∈ files, f.path ≠ file.path := by
  have hfiles := mem_collection_of_offered h
  rw [eq_tally_of_offered h, wants, Bool.and_eq_true, bne_iff_ne, Bool.not_eq_true',
    SortedMap.contains_eq_false_iff, ← Nat.one_le_iff_ne_zero]
  refine and_congr_right fun hpos => ⟨?_, ?_⟩
  · intro hfree f hf hpath
    refine contributions_ne_none.mpr ⟨f, hf, congrArg Path.text hpath, ?_⟩ hfree
    rw [hequal f file (hfiles f hf) hfile hpath]
    exact hpos
  · intro hnew
    refine Classical.not_not.mp fun hlisted => ?_
    obtain ⟨f, hf, hkey, -⟩ := contributions_ne_none.mp hlisted
    exact hnew f hf (congrArg Path.mk hkey)

end Determined

/-- Where a path is that of one file only, this file contributes. -/
theorem contributions_eq_some_iff (hfiles : ∀ f ∈ files, collection f)
    (hunique : ∀ f g, collection f → collection g → f.path = g.path → f = g) :
    (contributions keyword files).get? key = some use ↔
      use.file ∈ files ∧ use.file.path.text = key ∧ use.uses = use.file.uses keyword ∧
        1 ≤ use.uses := by
  refine ⟨contributions_eq_some, ?_⟩
  rintro ⟨hmem, hkey, huses, hpos⟩
  obtain ⟨found, hfound⟩ := Option.ne_none_iff_exists'.mp
    (contributions_ne_none.mpr ⟨use.file, hmem, hkey, huses ▸ hpos⟩)
  obtain ⟨hmem', hkey', huses', -⟩ := contributions_eq_some hfound
  have hsame : found.file = use.file := hunique _ _ (hfiles _ hmem') (hfiles _ hmem)
    (congrArg Path.mk (hkey'.trans hkey.symm))
  obtain ⟨file, uses⟩ := use
  obtain ⟨file', uses'⟩ := found
  cases hsame
  cases huses'.trans huses.symm
  exact hfound

/-- Usages that have been offered the same files are the same, if a path is that of one file only. -/
theorem eq_of_offered (hunique : ∀ f g, collection f → collection g → f.path = g.path → f = g)
    (hu : Offered collection keyword files u) (hv : Offered collection keyword more v)
    (hsame : ∀ f, f ∈ files ↔ f ∈ more) : u = v := by
  rw [eq_tally_of_offered hu, eq_tally_of_offered hv]
  refine congrArg (tally keyword) (SortedMap.ext_get? fun key => Option.ext fun use => ?_)
  rw [contributions_eq_some_iff (mem_collection_of_offered hu) hunique,
    contributions_eq_some_iff (mem_collection_of_offered hv) hunique, hsame]

/-- A merge gives one result, in whatever order the files of the other usage are met. -/
theorem mergesTo_iff_of_offered (hu : Offered collection keyword files u)
    (hv : Offered collection keyword more v) : u.MergesTo v r ↔ r = u.merge v := by
  constructor
  · intro h
    rw [eq_tally_of_offered (.merge hu hv h), eq_tally_of_offered (.merge hu hv (mergesTo_merge u v))]
  · rintro rfl
    exact mergesTo_merge u v

/-- **A usage is known from the set of the files it has been offered**, if a path always comes with the
same number of uses. It can be offered any files of the collection; it lists the files that use the
keyword with their uses, and its numbers are recomputed from these; two usages that have been offered
the same paths have the same numbers, and are equal if they have been offered the same files and each
path is that of one file only. It takes a file if it is new and uses the keyword, and stays as it is
otherwise. A merge can be carried out, and does not depend on the order in which the files of the other
usage are met. -/
theorem aggregate_of_offered (collection : Specification → Prop) (keyword : String)
    (hequal : ∀ f g, collection f → collection g → f.path = g.path →
      f.uses keyword = g.uses keyword) :
    (∀ files : List Specification, (∀ f ∈ files, collection f) →
      Offered collection keyword files (ofFiles keyword files)) ∧
    (∀ (files : List Specification) (u : Usage), Offered collection keyword files u →
      u.Aggregates keyword files) ∧
    (∀ (files more : List Specification) (u v : Usage), Offered collection keyword files u →
      Offered collection keyword more v →
      ((∀ p, (∃ f ∈ files, f.path = p) ↔ ∃ f ∈ more, f.path = p) → u.numbers = v.numbers) ∧
      ((∀ f, f ∈ files ↔ f ∈ more) →
        (∀ f g, collection f → collection g → f.path = g.path → f = g) → u = v)) ∧
    (∀ (files : List Specification) (u : Usage) (file : Specification),
      Offered collection keyword files u → collection file →
      (u.wants file = true ↔ 1 ≤ file.uses keyword ∧ ∀ f ∈ files, f.path ≠ file.path) ∧
      (u.wants file = true → (u.add file).files.get? file.path.text =
        some ⟨file, file.uses keyword⟩) ∧
      (u.wants file = false → u.add file = u)) ∧
    ∀ (files more : List Specification) (u v r : Usage), Offered collection keyword files u →
      Offered collection keyword more v → (u.MergesTo v r ↔ r = u.merge v) := by
  refine ⟨fun files => offered_ofFiles, fun files u => aggregates_of_offered hequal, ?_, ?_, ?_⟩
  · intro files more u v hu hv
    -- The numbers follow from the paths. That the files themselves agree takes that a path has one
    -- file.
    exact ⟨numbers_eq_of_offered hequal hu hv,
      fun hsame hunique => eq_of_offered hunique hu hv hsame⟩
  · intro files u file hu hfile
    have hname : u.name = keyword := (aggregates_of_offered hequal hu).name
    refine ⟨wants_iff_of_offered hequal hu hfile, fun hwants => ?_, fun hwants => ?_⟩
    · rw [add, if_pos hwants, record, SortedMap.get?_insert_self, hname]
    · rw [add, hwants]
      rfl
  · intro files more u v r hu hv
    exact mergesTo_iff_of_offered hu hv

/-- A specification that uses a keyword twice. -/
def pairFile : Specification :=
  let tree : Json := .array [.object [("find", .null)], .object [("find", .null)]]
  ⟨⟨"/b.essence"⟩, tree, countKeys SortedMap.empty tree, 2, none⟩

/-- A specification without keywords. -/
def bareFile : Specification :=
  ⟨⟨"/c.essence"⟩, .array [], countKeys SortedMap.empty (.array []), 0, none⟩

/-- Three files, one of which is found for two repositories. -/
def foundFiles : List Specification :=
  [Index.loneFile.inRepository "one", Index.loneFile.inRepository "two", pairFile, bareFile]

/-- Two usages that share a file are merged: the result has the numbers of the usage that is offered
the files one by one, and takes the shared file no more. -/
theorem aggregate_foundFiles :
    (∀ f g, f ∈ foundFiles → g ∈ foundFiles → f.path = g.path → f.uses "find" = g.uses "find") ∧
    let both := (ofFiles "find" [pairFile, Index.loneFile.inRepository "two"]).merge
      (ofFiles "find" [bareFile, Index.loneFile.inRepository "one"])
    both.Aggregates "find" [pairFile, Index.loneFile.inRepository "two", bareFile,
      Index.loneFile.inRepository "one"] ∧
    both.numbers = (ofFiles "find" [Index.loneFile.inRepository "one", bareFile, pairFile]).numbers ∧
    both.add (Index.loneFile.inRepository "one") = both ∧
    both.total = 3 ∧ both.least = some 1 ∧ both.greatest = some 2 := by
  have hequal : ∀ f ∈ foundFiles, ∀ g ∈ foundFiles, f.path = g.path →
      f.uses "find" = g.uses "find" := by decide +kernel
  have hequal' : ∀ f g, f ∈ foundFiles → g ∈ foundFiles → f.path = g.path →
      f.uses "find" = g.uses "find" := fun f g hf hg => hequal f hf g hg
  have hone : Index.loneFile.inRepository "one" ∈ foundFiles := List.mem_cons_self
  have htwo : Index.loneFile.inRepository "two" ∈ foundFiles :=
    List.mem_cons_of_mem _ List.mem_cons_self
  have hpair : pairFile ∈ foundFiles :=
    List.mem_cons_of_mem _ (List.mem_cons_of_mem _ List.mem_cons_self)
  have hbare : bareFile ∈ foundFiles :=
    List.mem_cons_of_mem _ (List.mem_cons_of_mem _ (List.mem_cons_of_mem _ List.mem_cons_self))
  obtain ⟨hlists, haggregates, hsame, htakes, -⟩ :=
    aggregate_of_offered (· ∈ foundFiles) "find" hequal'
  have hboth := Offered.merge
    (hlists [pairFile, Index.loneFile.inRepository "two"]
      (List.forall_mem_cons.mpr ⟨hpair, List.forall_mem_singleton.mpr htwo⟩))
    (hlists [bareFile, Index.loneFile.inRepository "one"]
      (List.forall_mem_cons.mpr ⟨hbare, List.forall_mem_singleton.mpr hone⟩))
    (mergesTo_merge _ _)
  have hall := hlists [Index.loneFile.inRepository "one", bareFile, pairFile]
    (List.forall_mem_cons.mpr ⟨hone, List.forall_mem_cons.mpr
      ⟨hbare, List.forall_mem_singleton.mpr hpair⟩⟩)
  refine ⟨hequal', haggregates _ _ hboth, (hsame _ _ _ _ hboth hall).1 fun p => ?_,
    (htakes _ _ _ hboth hone).2.2 (by decide +kernel), by decide +kernel⟩
  -- Both have been offered the paths of the three files.
  simp only [List.cons_append, List.nil_append, List.mem_cons, List.not_mem_nil, or_false,
    exists_eq_or_imp, exists_eq_left]
  constructor
  · rintro (h | h | h | h)
    · exact .inr (.inr h)
    · exact .inl h
    · exact .inr (.inl h)
    · exact .inl h
  · rintro (h | h | h)
    · exact .inr (.inr (.inr h))
    · exact .inr (.inr (.inl h))
    · exact .inl h

end Usage

end KeywordCensus
