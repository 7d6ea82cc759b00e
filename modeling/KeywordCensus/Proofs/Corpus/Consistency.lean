import KeywordCensus.Corpus.Index
import KeywordCensus.Proofs.Corpus.Loading
import KeywordCensus.Proofs.Corpus.Tally

/-!
# Files and keywords of an index stay in step

An index holds two maps, and both adding a file and merging another index change them one after the
other. `Index.Consistent` says what they owe each other: the files are listed under what is shown of
their paths, and the usage of every keyword is the one that is recomputed from the files. A consistent
index is therefore determined by its files (`eq_of_files`), which is what makes all ways to build it
agree.

A file is known to an index by what is shown of its path, and to a usage by the path itself. Adding a
sound file keeps an index consistent all the same (`consistent_add`). Merging does so under the
condition that two files that are shown alike are one file with equal counts
(`consistent_mergesTo`).
-/

namespace KeywordCensus

namespace Usage

variable {keyword key : String} {files more : SortedMap Specification} {file : Specification}

theorem useOf?_eq_none (h : file.uses keyword = 0) : useOf? keyword file = none := if_pos h

theorem useOf?_eq_some (h : file.uses keyword ≠ 0) :
    useOf? keyword file = some ⟨file, file.uses keyword⟩ := if_neg h

/-- A new file that does not use the keyword changes nothing. -/
theorem usesOf_insert_of_unused (hnew : files.get? key = none) (h : file.uses keyword = 0) :
    usesOf keyword (files.insert key file) = usesOf keyword files := by
  refine SortedMap.ext_get? fun other => ?_
  rw [get?_usesOf, get?_usesOf, SortedMap.get?_insert]
  split
  · rename_i heq
    rw [← heq, hnew, Option.bind_some, useOf?_eq_none h, Option.bind_none]
  · rfl

/-- A file that uses the keyword is one more of those that do. -/
theorem usesOf_insert_of_used (h : file.uses keyword ≠ 0) :
    usesOf keyword (files.insert key file) =
      (usesOf keyword files).insert key ⟨file, file.uses keyword⟩ := by
  refine SortedMap.ext_get? fun other => ?_
  rw [get?_usesOf, SortedMap.get?_insert, SortedMap.get?_insert]
  split
  · rw [Option.bind_some, useOf?_eq_some h]
  · rw [get?_usesOf]

/-- Where common files have equal counts, the files that use a keyword may be sought on each
side. -/
theorem usesOf_union (h : ∀ key f g, files.get? key = some f → more.get? key = some g →
    f.uses keyword = g.uses keyword) :
    usesOf keyword (files.union more) = (usesOf keyword files).union (usesOf keyword more) := by
  refine SortedMap.ext_get? fun key => ?_
  rw [get?_usesOf, SortedMap.get?_union, SortedMap.get?_union, get?_usesOf, get?_usesOf]
  cases hf : files.get? key with
  | none => rfl
  | some f =>
    rw [Option.some_or, Option.bind_some]
    by_cases hused : f.uses keyword = 0
    · -- A file without the keyword has none on the other side either.
      rw [useOf?_eq_none hused, Option.none_or]
      cases hg : more.get? key with
      | none => rfl
      | some g => rw [Option.bind_some, useOf?_eq_none ((h key f g hf hg).symm.trans hused)]
    · rw [useOf?_eq_some hused, Option.some_or]

/-- Adding a new file to a recomputed usage gives the recomputed usage. -/
theorem add_tally (hnew : files.get? file.path.text = none) (h : file.uses keyword ≠ 0) :
    (tally keyword (usesOf keyword files)).add file =
      tally keyword (usesOf keyword (files.insert file.path.text file)) := by
  have hfree : (usesOf keyword files).get? file.path.text = none := by
    rw [get?_usesOf, hnew, Option.bind_none]
  have hwants : (tally keyword (usesOf keyword files)).wants file = true := by
    rw [wants, tally_files, SortedMap.contains_eq_false_iff.mpr hfree]
    show (file.uses keyword != 0 && !false) = true
    rw [bne_iff_ne.mpr h]
    rfl
  have hrecord : (tally keyword (usesOf keyword files)).record ⟨file, file.uses keyword⟩ =
      tally keyword ((usesOf keyword files).insert file.path.text ⟨file, file.uses keyword⟩) :=
    record_tally hfree
  rw [add, if_pos hwants, usesOf_insert_of_used h]
  exact hrecord

/-- What becomes of the usage of a keyword when one index takes over another one. -/
def Combines (known : Option Usage) : Option Usage → Option Usage → Prop
  | none, result => result = known
  | some other, result => match known with
    | none => result = some other
    | some u => ∃ merged, u.MergesTo other merged ∧ result = some merged

/-- **A recomputed usage combines with another one to the usage of the files of both.** -/
theorem tally?_of_combines {uses others : SortedMap FileUse} {result : Option Usage}
    (hkeyed : FilesKeyed others)
    (h : Combines (tally? keyword uses) (tally? keyword others) result) :
    result = tally? keyword (uses.union others) := by
  cases hothers : tally? keyword others with
  | none =>
    -- No file of the other side uses the keyword.
    rw [hothers] at h
    have hsame : uses.union others = uses := by
      refine SortedMap.ext_get? fun key => ?_
      rw [SortedMap.get?_union, tally?_eq_none.mp hothers key, Option.or_none]
    rw [hsame]
    exact h
  | some other =>
    cases huses : tally? keyword uses with
    | none =>
      -- The usage of the other side is taken over as it is.
      rw [hothers, huses] at h
      have hsame : uses.union others = others := by
        refine SortedMap.ext_get? fun key => ?_
        rw [SortedMap.get?_union, tally?_eq_none.mp huses key, Option.none_or]
      rw [hsame, hothers]
      exact h
    | some known =>
      rw [hothers, huses] at h
      obtain ⟨u, hu, rfl⟩ := h
      obtain ⟨⟨key, use, huse⟩, rfl⟩ := tally?_eq_some_iff.mp huses
      obtain ⟨-, rfl⟩ := tally?_eq_some_iff.mp hothers
      have hlisted : (uses.union others).get? key = some use := by
        rw [SortedMap.get?_union, huse, Option.some_or]
      rw [mergesTo_tally hkeyed hu]
      exact (tally?_eq_some hlisted).symm

end Usage

namespace Index

variable {i j r : Index} {files more : SortedMap Specification} {file : Specification}

/-! ## Files by their paths -/

/-- Is every file listed under what is shown of its path? -/
def Keyed (files : SortedMap Specification) : Prop :=
  ∀ key file, files.get? key = some file → file.path.shown = key

/-- The files under their paths. -/
def byPath (files : SortedMap Specification) : SortedMap Specification :=
  SortedMap.ofList (files.values.map fun file => (file.path.text, file))

theorem mem_values_iff (h : Keyed files) :
    file ∈ files.values ↔ files.get? file.path.shown = some file := by
  rw [SortedMap.mem_values]
  constructor
  · rintro ⟨key, hkey⟩
    rwa [h key file hkey]
  · exact fun hfile => ⟨_, hfile⟩

/-- Files with one path would be shown alike, so no path is listed twice. -/
theorem nodup_texts (h : Keyed files) :
    ((files.values.map fun file => (file.path.text, file)).map (·.1)).Nodup := by
  rw [SortedMap.values, List.map_map, List.map_map]
  refine List.pairwise_map.mpr (List.Pairwise.imp_of_mem ?_ (List.pairwise_map.mp files.nodup_keys))
  rintro ⟨key, file⟩ ⟨other, more⟩ hfile hmore hne htext
  have hpath : file.path = more.path := congrArg Path.mk htext
  refine hne ?_
  rw [← h key file (SortedMap.mem_entries.mp hfile), hpath,
    h other more (SortedMap.mem_entries.mp hmore)]

/-- Indexing the files by path again finds a file at a text exactly if it stands under its shown
path and that text spells its path. -/
theorem get?_byPath (h : Keyed files) {text : String} :
    (byPath files).get? text = some file ↔
      files.get? file.path.shown = some file ∧ file.path.text = text := by
  rw [byPath, SortedMap.get?_ofList_of_nodup (nodup_texts h), ← mem_values_iff h]
  constructor
  · intro hfile
    obtain ⟨other, hother, heq⟩ := List.mem_map.mp (Entries.mem_of_get? hfile)
    obtain ⟨htext, rfl⟩ := Prod.mk.inj heq
    exact ⟨hother, htext⟩
  · rintro ⟨hfile, rfl⟩
    exact Entries.get?_of_mem (nodup_texts h) (List.mem_map_of_mem hfile)

/-- The files are the same, in another order maybe. -/
theorem perm_byPath (h : Keyed files) : (byPath files).values.Perm files.values := by
  have hperm := (SortedMap.perm_ofList (nodup_texts h)).map (·.2)
  rw [List.map_map] at hperm
  exact hperm.trans (List.Perm.of_eq (List.map_id _))

theorem keyed_insert (h : Keyed files) : Keyed (files.insert file.path.shown file) := by
  intro key other hother
  rw [SortedMap.get?_insert] at hother
  split at hother
  · cases hother
    assumption
  · exact h key other hother

/-- Under a free shown path an insertion into the files is an insertion into the files by path: no
other file has its text. -/
theorem byPath_insert (h : Keyed files) (hnew : files.get? file.path.shown = none) :
    byPath (files.insert file.path.shown file) = (byPath files).insert file.path.text file := by
  refine SortedMap.ext_get? fun text => Option.ext fun other => ?_
  rw [get?_byPath (keyed_insert h), SortedMap.get?_insert, SortedMap.get?_insert]
  by_cases htext : file.path.text = text
  · subst htext
    rw [if_pos rfl, Option.some.injEq]
    constructor
    · rintro ⟨hother, htext⟩
      have hpath : other.path = file.path := congrArg Path.mk htext
      rw [hpath, if_pos rfl] at hother
      exact Option.some.inj hother
    · rintro rfl
      exact ⟨if_pos rfl, rfl⟩
  · rw [if_neg htext, get?_byPath h]
    refine and_congr_left fun hother => ?_
    -- Another text can still be shown alike, but the shown path was free.
    by_cases hshown : file.path.shown = other.path.shown
    · rw [if_pos hshown, ← hshown, hnew]
      refine iff_of_false (fun heq => htext ?_) (Option.some_ne_none other).symm
      rw [Option.some.inj heq, hother]
    · rw [if_neg hshown]

theorem keyed_union (h : Keyed files) (hmore : Keyed more) : Keyed (files.union more) := by
  intro key file hfile
  rw [SortedMap.get?_union, Option.or_eq_some_iff] at hfile
  rcases hfile with hfile | ⟨-, hfile⟩
  · exact h key file hfile
  · exact hmore key file hfile

/-- Where files that are shown alike have one path, paths may be sought on each side. -/
theorem byPath_union (h : Keyed files) (hmore : Keyed more)
    (hpaths : ∀ key f g, files.get? key = some f → more.get? key = some g → f.path = g.path) :
    byPath (files.union more) = (byPath files).union (byPath more) := by
  refine SortedMap.ext_get? fun text => Option.ext fun file => ?_
  rw [get?_byPath (keyed_union h hmore), SortedMap.get?_union, SortedMap.get?_union,
    Option.or_eq_some_iff, Option.or_eq_some_iff, get?_byPath h, get?_byPath hmore]
  constructor
  · rintro ⟨hfile | ⟨hnone, hfile⟩, rfl⟩
    · exact .inl ⟨hfile, rfl⟩
    · refine .inr ⟨Option.eq_none_iff_forall_ne_some.mpr fun other hother => ?_, hfile, rfl⟩
      obtain ⟨hother, htext⟩ := (get?_byPath h).mp hother
      have hpath : other.path = file.path := congrArg Path.mk htext
      rw [hpath, hnone] at hother
      cases hother
  · rintro (⟨hfile, rfl⟩ | ⟨hnone, hfile, rfl⟩)
    · exact ⟨.inl hfile, rfl⟩
    · refine ⟨.inr ⟨Option.eq_none_iff_forall_ne_some.mpr fun other hother => ?_, hfile⟩, rfl⟩
      -- Both sides have a file that is shown like this one, and those are the same path.
      have hpath : other.path = file.path := hpaths _ _ _ hother hfile
      rw [← hpath] at hother hnone
      rw [(get?_byPath h).mpr ⟨hother, rfl⟩] at hnone
      cases hnone

/-! ## Consistent indexes -/

/-- What the two maps of an index owe each other. -/
structure Consistent (i : Index) : Prop where
  /-- Every file is listed under what is shown of its path. -/
  keyed : Keyed i.files
  /-- Every usage is the one that the files give. -/
  counted : ∀ keyword, i.keywords.get? keyword = Usage.of? keyword (byPath i.files)

/-- The empty index is consistent, and so every fold has a base case. -/
theorem consistent_empty : empty.Consistent := by
  constructor
  · intro key file h
    cases h
  · intro keyword
    rfl

/-- **A consistent index is determined by its files.** -/
theorem eq_of_files (hi : i.Consistent) (hj : j.Consistent) (h : i.files = j.files) : i = j := by
  have hkeywords : i.keywords = j.keywords := by
    refine SortedMap.ext_get? fun keyword => ?_
    rw [hi.counted, hj.counted, h]
  obtain ⟨files, keywords⟩ := i
  obtain ⟨files', keywords'⟩ := j
  cases h
  cases hkeywords
  rfl

/-! ## Adding a file -/

/-- Adding a file to the usages of different keywords changes each of them once. -/
theorem get?_foldl_addUse (file : Specification) (listed : List String) (hnodup : listed.Nodup)
    (usages : SortedMap Usage) (keyword : String) :
    (listed.foldl (addUse file) usages).get? keyword =
      if keyword ∈ listed then
        some (((usages.get? keyword).getD (Usage.unused keyword)).add file)
      else usages.get? keyword := by
  induction listed generalizing usages with
  | nil => rfl
  | cons first rest ih =>
    obtain ⟨hfirst, hrest⟩ := List.nodup_cons.mp hnodup
    rw [List.foldl_cons, ih hrest, addUse, SortedMap.get?_insert]
    by_cases heq : first = keyword
    · subst heq
      rw [if_neg hfirst, if_pos rfl, if_pos (List.mem_cons_self ..)]
    · rw [if_neg heq]
      simp only [List.mem_cons, Ne.symm heq, false_or]

/-- The files of an index are inserted first come, first served, under the shown path. -/
theorem files_add (hfile : file.Sound) (i : Index) :
    (i.add file).files = i.files.insertIfNew file.path.shown file := by
  rw [add, wants, hfile.canonical, SortedMap.insertIfNew]
  cases i.files.contains file.path.shown <;> rfl

/-- **Adding a sound file keeps an index consistent.** -/
theorem consistent_add (hi : i.Consistent) (hfile : file.Sound) : (i.add file).Consistent := by
  rw [add]
  split
  · rename_i hwants
    rw [hfile.canonical]
    have hnew : i.files.get? file.path.shown = none := by
      rw [wants, hfile.canonical, Bool.not_eq_true'] at hwants
      exact SortedMap.contains_eq_false_iff.mp hwants
    have hfree : (byPath i.files).get? file.path.text = none := by
      refine Option.eq_none_iff_forall_ne_some.mpr fun other hother => ?_
      obtain ⟨hother, htext⟩ := (get?_byPath hi.keyed).mp hother
      have hpath : other.path = file.path := congrArg Path.mk htext
      rw [hpath, hnew] at hother
      cases hother
    refine ⟨keyed_insert hi.keyed, fun keyword => ?_⟩
    -- Each keyword of the file gets one use more, and the others keep what they have.
    show (file.keywords.foldl (addUse file) i.keywords).get? keyword =
      Usage.of? keyword (byPath (i.files.insert file.path.shown file))
    rw [get?_foldl_addUse file file.keywords file.counts.nodup_keys, hi.counted, Usage.of?,
      Usage.getD_tally?, byPath_insert hi.keyed hnew, Usage.of?]
    by_cases hused : file.uses keyword = 0
    · rw [if_neg (fun hmem => (Specification.mem_keywords hfile).mp hmem hused),
        Usage.usesOf_insert_of_unused hfree hused]
    · rw [if_pos ((Specification.mem_keywords hfile).mpr hused), Usage.add_tally hfree hused]
      have hlisted : (Usage.usesOf keyword ((byPath i.files).insert file.path.text file)).get?
          file.path.text = some ⟨file, file.uses keyword⟩ := by
        rw [Usage.usesOf_insert_of_used hused, SortedMap.get?_insert_self]
      exact (Usage.tally?_eq_some hlisted).symm
  · exact hi

/-! ## Merging -/

/-- What merging another index into an index may give. The keywords of the other index differ from
each other, so each of them is taken over on its own, and its files are met in any order. -/
structure MergesTo (i other result : Index) : Prop where
  files : result.files = i.files.union other.files
  keywords : ∀ keyword, Usage.Combines (i.keywords.get? keyword) (other.keywords.get? keyword)
    (result.keywords.get? keyword)

/-- Folding a listing of aggregates in combines, keyword by keyword, what was there with what the
listing has. -/
theorem combines_foldl_mergeUsage (listed : List (String × Usage))
    (hnodup : (listed.map (·.1)).Nodup) (usages : SortedMap Usage) (keyword : String) :
    Usage.Combines (usages.get? keyword) (Entries.get? keyword listed)
      ((listed.foldl mergeUsage usages).get? keyword) := by
  induction listed generalizing usages with
  | nil =>
    exact rfl
  | cons first rest ih =>
    obtain ⟨name, other⟩ := first
    obtain ⟨hfresh, hrest⟩ := List.nodup_cons.mp hnodup
    rw [List.foldl_cons, Entries.get?]
    have hstep := ih hrest (mergeUsage usages (name, other))
    by_cases heq : name = keyword
    · -- No later entry has this name, so what this entry gives is what stays.
      subst heq
      rw [Entries.get?_eq_none_iff.mpr hfresh] at hstep
      rw [if_pos rfl]
      cases hknown : usages.get? name with
      | none =>
        rw [mergeUsage, hknown, SortedMap.get?_insert_self] at hstep
        rw [mergeUsage, hknown]
        exact hstep
      | some known =>
        rw [mergeUsage, hknown, SortedMap.get?_insert_self] at hstep
        rw [mergeUsage, hknown]
        exact ⟨known.merge other, Usage.mergesTo_merge known other, hstep⟩
    · -- An entry of another name leaves this one alone.
      have hkeep : (mergeUsage usages (name, other)).get? keyword = usages.get? keyword := by
        rw [mergeUsage]
        split
        · exact (SortedMap.get?_insert ..).trans (if_neg heq)
        · exact (SortedMap.get?_insert ..).trans (if_neg heq)
      rw [if_neg heq, ← hkeep]
      exact hstep

/-- One of the possible results is that of the orders of the paths. -/
theorem mergesTo_merge (i other : Index) : MergesTo i other (i.merge other) :=
  ⟨rfl, fun keyword => combines_foldl_mergeUsage other.keywords.entries
    other.keywords.nodup_keys i.keywords keyword⟩

/-- Are files of two indexes that are shown alike the same file, with equal counts? -/
def Compatible (i other : Index) : Prop :=
  ∀ key f g, i.files.get? key = some f → other.files.get? key = some g →
    f.path = g.path ∧ f.counts = g.counts

/-- **Merging keeps indexes consistent that agree on the files they share.** -/
theorem consistent_mergesTo (hi : i.Consistent) (hj : j.Consistent) (hcompatible : i.Compatible j)
    (h : MergesTo i j r) : r.Consistent := by
  have hpaths : ∀ key f g, i.files.get? key = some f → j.files.get? key = some g →
      f.path = g.path := fun key f g hf hg => (hcompatible key f g hf hg).1
  have hfiles := byPath_union hi.keyed hj.keyed hpaths
  refine ⟨h.files ▸ keyed_union hi.keyed hj.keyed, fun keyword => ?_⟩
  have hcombines := h.keywords keyword
  rw [hi.counted, hj.counted] at hcombines
  have hkeyed : Usage.FilesKeyed (Usage.usesOf keyword (byPath j.files)) :=
    Usage.filesKeyed_usesOf fun _ _ hfile => ((get?_byPath hj.keyed).mp hfile).2
  rw [h.files, hfiles, Usage.of?, Usage.usesOf_union]
  · exact Usage.tally?_of_combines hkeyed hcombines
  · intro text f g hf hg
    obtain ⟨hf, htext⟩ := (get?_byPath hi.keyed).mp hf
    obtain ⟨hg, htext'⟩ := (get?_byPath hj.keyed).mp hg
    have hpath : f.path = g.path := congrArg Path.mk (htext.trans htext'.symm)
    rw [hpath] at hf
    rw [Specification.uses, Specification.uses, (hcompatible _ f g hf hg).2]

end Index

end KeywordCensus
