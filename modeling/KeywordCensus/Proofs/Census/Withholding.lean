import KeywordCensus.Proofs.Census.Partition
import KeywordCensus.Proofs.Corpus.Counting
import KeywordCensus.Proofs.Corpus.Gathering

/-!
# Blocking more keywords

A blocked keyword is left out where the keys of a syntax tree are counted, and nowhere else. What a
census holds when more keywords are blocked is therefore what it holds anyway, with these keywords
left out: `Census.withhold`. This goes through the whole run step by step, from the counts of one
tree (`countKeys_of_blocked`) and the loading of one file (`load_withhold`) to adding it to an index
(`Index.withhold_add`) and merging indexes (`Index.withhold_mergesTo`), and then by induction over the
candidates (`Scan.ofCandidates_withhold`) and over the plans to scan them (`Scan.withhold_yields`).

Keys below a blocked key are counted all the same, the files that are found and the reasons why some
are skipped are the same, and so are all numbers of the keywords that remain (`Census.Withheld`).
-/

namespace KeywordCensus

namespace SortedMap

universe u

variable {α : Type u}

/-- Is every key of a set in another one? -/
def KeysWithin (m other : TextSet) : Prop :=
  ∀ key, m.contains key = true → other.contains key = true

/-- The map without the entries for some keys. -/
def without (m : SortedMap α) (more : TextSet) : SortedMap α :=
  m.filterKeys fun key => !more.contains key

/-- Withholding takes away exactly the names it was given. -/
@[simp] theorem get?_without (m : SortedMap α) (more : TextSet) (key : String) :
    (m.without more).get? key = if more.contains key then none else m.get? key := by
  rw [without, get?_filterKeys]
  cases more.contains key with
  | true => rfl
  | false => rfl

end SortedMap

variable {blocked more : TextSet} {t : FileTree} {oracle : Oracle}

/-- The counts of a tree with more keys blocked are its counts without them. -/
theorem countKeys_of_blocked (hmore : blocked.KeysWithin more) (tree : Json) :
    countKeys more tree = (countKeys blocked tree).without more := by
  refine SortedMap.ext_get? fun key => Option.ext fun n => ?_
  rw [SortedMap.get?_without, get?_countKeys]
  cases hkey : more.contains key with
  | true => simp
  | false =>
    have hfree : blocked.contains key = false := by
      refine Bool.eq_false_iff.mpr fun hblocked => ?_
      rw [hmore key hblocked] at hkey
      cases hkey
    simp [get?_countKeys, hfree]

namespace Specification

variable {f : Specification}

/-- The specification without the counts of some keys. -/
def withhold (more : TextSet) (f : Specification) : Specification :=
  { f with counts := f.counts.without more }

/-- A file of which names are withheld uses none of these, and the others as before. -/
theorem uses_withhold (f : Specification) (key : String) :
    (f.withhold more).uses key = if more.contains key then 0 else f.uses key := by
  show ((f.counts.without more).get? key).getD 0 = _
  rw [SortedMap.get?_without]
  split
  · rfl
  · rfl

/-- Withholding keeps a file sound: the shorter counts are those of its tree under the longer list.
-/
theorem sound_withhold (h : f.Sound) : (f.withhold more).Sound := by
  refine ⟨h.canonical, fun key n hn => h.positive key n ?_⟩
  have hfound : (f.counts.without more).get? key = some n := hn
  rw [SortedMap.get?_without] at hfound
  split at hfound
  · cases hfound
  · exact hfound

/-- A file is loaded, or refused for the same reason, whatever is blocked. -/
theorem load_withhold (hmore : blocked.KeysWithin more) (p : Path) :
    load t oracle more p = (load t oracle blocked p).map (withhold more) := by
  rw [load, load]
  cases canonicalPath? t p with
  | none => rfl
  | some canonical =>
    dsimp only
    cases oracle.parse canonical with
    | error e => rfl
    | ok tree =>
      dsimp only
      cases t.countLines canonical with
      | error e => rfl
      | ok lines =>
        dsimp only
        rw [countKeys_of_blocked hmore]
        rfl

end Specification

namespace Usage

/-- The uses in a file without the counts of some keys. -/
def withholdUse (more : TextSet) (use : FileUse) : FileUse :=
  { use with file := use.file.withhold more }

/-- The usage of a keyword in files without the counts of some other keys. -/
def withhold (more : TextSet) (u : Usage) : Usage :=
  { u with files := u.files.map (withholdUse more) }

/-- All numbers of the usage stay as they are. -/
theorem numbers_withhold (u : Usage) : (u.withhold more).numbers = u.numbers := by
  have hfiles : (u.files.map (withholdUse more)).map FileUse.uses = u.files.map FileUse.uses := by
    refine SortedMap.ext_get? fun key => ?_
    rw [SortedMap.get?_map, SortedMap.get?_map, SortedMap.get?_map, Option.map_map]
    rfl
  show UsageNumbers.mk _ _ _ _ _ = _
  rw [withhold, hfiles]
  rfl

theorem average_withhold (u : Usage) : (u.withhold more).average = u.average := by
  have hsize : (u.withhold more).fileCount = u.fileCount := by
    show ((u.files.map (withholdUse more)).entries).length = _
    rw [SortedMap.entries_map, List.length_map]
    rfl
  have hempty : (u.withhold more).files.isEmpty = u.files.isEmpty := SortedMap.isEmpty_map ..
  rw [average, average, hempty, hsize]
  rfl

variable {keyword : String} {files : SortedMap Specification}

/-- A keyword that is left out has no uses. -/
theorem of?_withhold_of_blocked (h : more.contains keyword = true) :
    of? keyword (files.map (Specification.withhold more)) = none := by
  refine tally?_eq_none.mpr fun key => ?_
  rw [get?_usesOf, SortedMap.get?_map]
  cases files.get? key with
  | none => rfl
  | some f =>
    refine useOf?_eq_none ?_
    rw [Specification.uses_withhold, if_pos h]

/-- The usage of any other keyword is the same but for the counts of its files. -/
theorem of?_withhold (h : more.contains keyword = false) :
    of? keyword (files.map (Specification.withhold more)) =
      (of? keyword files).map (withhold more) := by
  -- A keyword that is not withheld is used by every file as often as before.
  have huses : usesOf keyword (files.map (Specification.withhold more)) =
      (usesOf keyword files).map (withholdUse more) := by
    refine SortedMap.ext_get? fun key => ?_
    rw [get?_usesOf, SortedMap.get?_map, SortedMap.get?_map, get?_usesOf]
    cases files.get? key with
    | none => rfl
    | some f =>
      have hsame : (f.withhold more).uses keyword = f.uses keyword := by
        rw [Specification.uses_withhold, h]
        rfl
      show useOf? keyword (f.withhold more) = (useOf? keyword f).map (withholdUse more)
      rw [useOf?, useOf?, hsame]
      split
      · rfl
      · rfl
  have hamounts : amounts ((usesOf keyword files).map (withholdUse more)) =
      amounts (usesOf keyword files) := by
    rw [amounts, SortedMap.values_map, List.map_map]
    rfl
  rw [of?, of?, tally?, tally?, huses, SortedMap.isEmpty_map, tally, hamounts]
  split
  · rfl
  · rfl

/-! ### Merging -/

variable {u other result : Usage}

theorem contains_withhold (u : Usage) (text : String) :
    (u.withhold more).files.contains text = u.files.contains text := by
  show ((u.files.map (withholdUse more)).get? text).isSome = (u.files.get? text).isSome
  rw [SortedMap.get?_map, Option.isSome_map]

theorem withhold_recordIfNew (u : Usage) (use : FileUse) :
    (u.recordIfNew use).withhold more = (u.withhold more).recordIfNew (withholdUse more use) := by
  have hcontains : (u.withhold more).files.contains (withholdUse more use).file.path.text =
      u.files.contains use.file.path.text := contains_withhold u _
  rw [recordIfNew, recordIfNew, hcontains]
  split
  · rfl
  · have hfiles : (u.files.insert use.file.path.text use).map (withholdUse more) =
        (u.files.map (withholdUse more)).insert use.file.path.text (withholdUse more use) := by
      refine SortedMap.ext_get? fun text => ?_
      rw [SortedMap.get?_map, SortedMap.get?_insert, SortedMap.get?_insert, SortedMap.get?_map]
      split
      · rfl
      · rfl
    show Usage.mk _ _ _ _ _ = _
    rw [record, hfiles]
    rfl

theorem withhold_recordAll (uses : List FileUse) (u : Usage) :
    (u.recordAll uses).withhold more =
      (u.withhold more).recordAll (uses.map (withholdUse more)) := by
  induction uses generalizing u with
  | nil => rfl
  | cons use rest ih =>
    rw [recordAll, List.foldl_cons, List.map_cons, recordAll, List.foldl_cons,
      ← withhold_recordIfNew]
    exact ih _

/-- Withholding passes through a merge of aggregates. -/
theorem withhold_mergesTo (h : u.MergesTo other result) :
    (u.withhold more).MergesTo (other.withhold more) (result.withhold more) := by
  obtain ⟨uses, hperm, rfl⟩ := h
  refine ⟨uses.map (withholdUse more), ?_, withhold_recordAll uses u⟩
  rw [withhold, SortedMap.values_map]
  exact hperm.map _

/-- Usages combine in the same way with all counts of other keywords left out. -/
theorem withhold_combines {known more? result : Option Usage} (h : Combines known more? result) :
    Combines (known.map (withhold more)) (more?.map (withhold more))
      (result.map (withhold more)) := by
  cases more? with
  | none =>
    have hresult : result = known := h
    rw [hresult]
    rfl
  | some other =>
    cases known with
    | none =>
      have hresult : result = some other := h
      rw [hresult]
      rfl
    | some u =>
      obtain ⟨merged, hmerged, rfl⟩ := h
      exact ⟨merged.withhold more, withhold_mergesTo hmerged, rfl⟩

end Usage

namespace Index

variable {i : Index} {f : Specification}

/-- The index without some keywords. -/
def withhold (more : TextSet) (i : Index) : Index :=
  ⟨i.files.map (Specification.withhold more),
    (i.keywords.without more).map (Usage.withhold more)⟩

theorem byPath_withhold (files : SortedMap Specification) :
    byPath (files.map (Specification.withhold more)) =
      (byPath files).map (Specification.withhold more) := by
  rw [byPath, byPath, ← SortedMap.ofList_map, SortedMap.values_map, List.map_map, List.map_map]
  rfl

/-- **Leaving keywords out keeps an index consistent.** -/
theorem consistent_withhold (hi : i.Consistent) : (i.withhold more).Consistent := by
  constructor
  · intro key file hfile
    have hfound : (i.files.map (Specification.withhold more)).get? key = some file := hfile
    rw [SortedMap.get?_map] at hfound
    obtain ⟨f, hf, rfl⟩ := Option.map_eq_some_iff.mp hfound
    exact hi.keyed key f hf
  · intro keyword
    show ((i.keywords.without more).map (Usage.withhold more)).get? keyword =
      Usage.of? keyword (byPath (i.files.map (Specification.withhold more)))
    rw [SortedMap.get?_map, SortedMap.get?_without, hi.counted, byPath_withhold]
    cases h : more.contains keyword with
    | true =>
      rw [Usage.of?_withhold_of_blocked h]
      rfl
    | false =>
      rw [Usage.of?_withhold h]
      rfl

/-- **What is left out does not matter for adding a file.** -/
theorem withhold_add (hi : i.Consistent) (hf : f.Sound) :
    (i.withhold more).add (f.withhold more) = (i.add f).withhold more := by
  -- Both sides are consistent, so only their files have to be compared.
  refine eq_of_files (consistent_add (consistent_withhold hi) (Specification.sound_withhold hf))
    (consistent_withhold (consistent_add hi hf)) ?_
  show _ = (i.add f).files.map (Specification.withhold more)
  rw [files_add hf, SortedMap.map_insertIfNew, files_add (Specification.sound_withhold hf)]
  rfl

/-- **What is left out does not matter for merging.** -/
theorem withhold_mergesTo {j r : Index} (h : MergesTo i j r) :
    MergesTo (i.withhold more) (j.withhold more) (r.withhold more) := by
  constructor
  · show r.files.map _ = (i.files.map _).union (j.files.map _)
    refine SortedMap.ext_get? fun key => ?_
    rw [h.files, SortedMap.get?_map, SortedMap.get?_union, SortedMap.get?_union,
      SortedMap.get?_map, SortedMap.get?_map, Option.map_or]
  · intro keyword
    show Usage.Combines (((i.keywords.without more).map _).get? keyword)
      (((j.keywords.without more).map _).get? keyword)
      (((r.keywords.without more).map _).get? keyword)
    rw [SortedMap.get?_map, SortedMap.get?_map, SortedMap.get?_map, SortedMap.get?_without,
      SortedMap.get?_without, SortedMap.get?_without]
    split
    · rfl
    · exact Usage.withhold_combines (h.keywords keyword)

end Index

namespace Scan

variable {s : Scan}

/-- The scan without some keywords. -/
def withhold (more : TextSet) (s : Scan) : Scan := ⟨s.index.withhold more, s.skipped⟩

/-- A candidate keeps the index of a scan consistent. -/
theorem consistent_add (hs : s.index.Consistent) (c : Candidate) :
    (s.add t oracle blocked c).index.Consistent := by
  rw [add]
  cases hload : Specification.load t oracle blocked c.path with
  | error e => exact hs
  | ok found =>
    exact Index.consistent_add hs
      (Specification.sound_inRepository (Specification.sound_of_load hload) _)

/-- **What is left out does not matter for a candidate.** -/
theorem withhold_add (hmore : blocked.KeysWithin more) (hs : s.index.Consistent) (c : Candidate) :
    (s.withhold more).add t oracle more c = (s.add t oracle blocked c).withhold more := by
  rw [add, add, Specification.load_withhold hmore]
  cases hload : Specification.load t oracle blocked c.path with
  | error e => rfl
  | ok found =>
    have hfound : (found.inRepository c.repository).Sound :=
      Specification.sound_inRepository (Specification.sound_of_load hload) _
    show Scan.mk ((s.index.withhold more).add
      ((found.inRepository c.repository).withhold more)) s.skipped = _
    rw [Index.withhold_add hs hfound]
    rfl

/-- Nor for all candidates, one after the other. -/
theorem withhold_foldl_add (hmore : blocked.KeysWithin more) (cs : List Candidate)
    (hs : s.index.Consistent) :
    cs.foldl (add t oracle more) (s.withhold more) =
      (cs.foldl (add t oracle blocked) s).withhold more := by
  induction cs generalizing s with
  | nil => rfl
  | cons c rest ih =>
    rw [List.foldl_cons, List.foldl_cons, withhold_add hmore hs]
    exact ih (consistent_add hs c)

/-- A pass under the longer list is the pass under the shorter one, withheld. -/
theorem ofCandidates_withhold (hmore : blocked.KeysWithin more) (cs : List Candidate) :
    ofCandidates t oracle more cs = (ofCandidates t oracle blocked cs).withhold more :=
  withhold_foldl_add (s := empty) hmore cs Index.consistent_empty

/-- **Nor for a plan to scan candidates**, by induction on the plan. -/
theorem withhold_yields (hmore : blocked.KeysWithin more) {plan : Split Candidate}
    (h : Yields t oracle blocked plan s) : Yields t oracle more plan (s.withhold more) := by
  induction h with
  | piece cs =>
    rw [← ofCandidates_withhold hmore]
    exact .piece cs
  | join _ _ hmerge ihs ihnext =>
    exact .join ihs ihnext ⟨Index.withhold_mergesTo hmerge.index, hmerge.skipped⟩

end Scan

namespace Census

/-- The census without some keywords. -/
def withhold (more : TextSet) (c : Census) : Census :=
  ⟨c.index.withhold more, c.skipped, c.version⟩

variable {settings : CensusSettings}

theorem ofOracle_withhold (hmore : settings.blocked.KeysWithin more) :
    ofOracle { settings with blocked := more } t oracle =
      (ofOracle settings t oracle).map (withhold more) := by
  have hcandidates : { settings with blocked := more }.candidates t = settings.candidates t := rfl
  rw [ofOracle, ofOracle, hcandidates]
  cases settings.candidates t with
  | error e => rfl
  | ok cs =>
    show Except.ok _ = Except.ok _
    rw [Scan.ofCandidates_withhold hmore]
    rfl

/-- The whole run is the same, with the same tree at its end, until some keywords are left out of
what it gives. -/
theorem conduct_withhold (m : Machine) (hmore : settings.blocked.KeysWithin more) :
    conduct m { settings with blocked := more } = withhold more <$> conduct m settings := by
  have hcount (t : FileTree) (oracle : Oracle) (version : Option VersionInfo) :
      (liftM (ofOracle { settings with blocked := more } t oracle) >>= fun census =>
        pure { census with version := version } : FileAction CensusError Census) =
      (liftM (ofOracle settings t oracle) >>= fun census =>
        withhold more <$> pure { census with version := version }) := by
    rw [ofOracle_withhold hmore]
    cases ofOracle settings t oracle with
    | error e => rfl
    | ok c => rfl
  unfold conduct
  split
  · simp only [map_bind, hcount]
  · simp only [map_bind, hcount]

/-- What two censuses have in common of which one leaves some keywords out. -/
structure Withheld (more : TextSet) (c d : Census) : Prop where
  /-- The same files are listed, each under its path. -/
  paths : d.index.files.keys = c.index.files.keys
  /-- The files differ in their counts only, in which these keywords have no place. -/
  file : ∀ path f, c.file? path = some f → ∃ g, d.file? path = some g ∧ g.path = f.path ∧
    g.tree = f.tree ∧ g.lines = f.lines ∧ g.repository = f.repository ∧
    ∀ key, g.counts.get? key = if more.contains key then none else f.counts.get? key
  /-- The same files are skipped for the same reasons. -/
  skipped : d.skipped = c.skipped
  /-- The same version of the parser is known. -/
  version : d.version = c.version
  /-- All other keywords are listed with the same numbers, in total and path by path. -/
  numbers : ∀ name, (d.keyword? name).map Usage.numbers =
    if more.contains name then none else (c.keyword? name).map Usage.numbers
  /-- Their means are the same, too. -/
  average : ∀ name, (d.keyword? name).map Usage.average =
    if more.contains name then none else (c.keyword? name).map Usage.average

/-- After withholding a keyword of the list has no aggregate, and any other one has its own,
withheld. -/
theorem keyword?_withhold (c : Census) (name : String) :
    (c.withhold more).keyword? name =
      if more.contains name then none else (c.keyword? name).map (Usage.withhold more) := by
  show ((c.index.keywords.without more).map (Usage.withhold more)).get? name = _
  rw [SortedMap.get?_map, SortedMap.get?_without]
  split
  · rfl
  · rfl

theorem withheld_withhold (c : Census) : Withheld more c (c.withhold more) := by
  constructor
  · exact SortedMap.keys_map ..
  · intro path f hf
    refine ⟨f.withhold more, ?_, rfl, rfl, rfl, rfl, fun key => ?_⟩
    · exact (SortedMap.get?_map ..).trans (congrArg (Option.map _) hf)
    · exact SortedMap.get?_without f.counts more key
  · rfl
  · rfl
  · intro name
    rw [keyword?_withhold, apply_ite (Option.map Usage.numbers), Option.map_map, Option.map_none]
    exact congrArg (ite _ none) (Option.map_congr fun u _ => u.numbers_withhold)
  · intro name
    rw [keyword?_withhold, apply_ite (Option.map Usage.average), Option.map_map, Option.map_none]
    exact congrArg (ite _ none) (Option.map_congr fun u _ => u.average_withhold)

/-- The settings for a tree with one specification. -/
def loneSettings : CensusSettings :=
  ⟨⟨"/"⟩, [], .binary ⟨"/conjure"⟩, ⟨60000⟩, SortedMap.empty, none, none, false⟩

/-- An oracle that answers every path with a key below another one. -/
def nestedOracle : Oracle :=
  ⟨fun _ => .ok (.object [("find", .object [("letting", .null)])]), .ok ⟨none, none⟩⟩

end Census

end KeywordCensus
