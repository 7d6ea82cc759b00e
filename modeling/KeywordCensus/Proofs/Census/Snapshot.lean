import KeywordCensus.Proofs.Census.Partition
import KeywordCensus.Proofs.FileTree.Growth

/-!
# The snapshot of a census

A census is written down as a document with two lists: one entry for each file, with its syntax tree
and its counts, and one for each keyword, with its numbers and the paths that use it. The two lists
come from different maps. Here the document is read again, field by field, and what the entries of
the keywords say is recomputed from the entries of the files: `Snapshot.Consistent`.

The paths are trimmed before they are written, so that two files may be shown alike. They are sorted
after that, and none of them is left out (`Snapshot.Describes`).
-/

namespace KeywordCensus

namespace Json

/-- The natural number that a value is. -/
def natural? : Json → Option Nat
  | .number (.whole n) => some n.toNat
  | _ => none

@[simp] theorem natural?_ofNat (n : Nat) : (ofNat n).natural? = some n := rfl

theorem find?_entries {α : Type} (key : String) (entries : List (String × α)) :
    (entries.find? fun e => e.1 == key).map (·.2) = Entries.get? key entries := by
  induction entries with
  | nil => rfl
  | cons e rest ih =>
    obtain ⟨k, v⟩ := e
    rw [List.find?_cons, Entries.get?]
    by_cases hk : k = key
    · rw [beq_iff_eq.mpr hk, if_pos hk]
      rfl
    · rw [beq_eq_false_iff_ne.mpr hk, if_neg hk]
      exact ih

/-- The fields of a map are its entries. -/
theorem field?_ofMap {α : Type} (toJson : α → Json) (m : SortedMap α) (key : String) :
    (ofMap toJson m).field? key = (m.get? key).map toJson := by
  show ((m.entries.map fun e => (e.1, toJson e.2)).find? fun e => e.1 == key).map (·.2) = _
  rw [List.find?_map, Option.map_map]
  show ((m.entries.find? fun e => e.1 == key).map fun e => toJson e.2) = _
  rw [SortedMap.get?, ← find?_entries, Option.map_map]
  rfl

end Json

namespace Snapshot

/-- How often the counts in the entry of a file list a keyword, if they do. -/
def amount? (keyword : String) (entry : Json) : Option Nat :=
  ((entry.field? "keyword_counts").bind (Json.field? keyword)).bind Json.natural?

/-- The entries of the files that use a keyword. -/
def users (keyword : String) (files : List Json) : List Json :=
  files.filter fun entry => (amount? keyword entry).isSome

/-- How often each of them does. -/
def amounts (keyword : String) (files : List Json) : List Nat := files.filterMap (amount? keyword)

/-- The mean of some numbers, as it is computed. -/
def mean (ns : List Nat) : Floating :=
  Floating.div .binary64 (Floating.ofNat .binary64 ns.sum) (Floating.ofNat .binary64 ns.length)

/-- Is the entry of a keyword what the entries of the files say about it? -/
structure Describes (files : List Json) (keyword : String) (entry : Json) : Prop where
  name : entry.field? "name" = some (.text keyword)
  total : entry.field? "total_usages" = some (.ofNat (amounts keyword files).sum)
  least : ∃ n, (amounts keyword files).min? = some n ∧
    entry.field? "min_usages_in_file" = some (.ofNat n)
  greatest : ∃ n, (amounts keyword files).max? = some n ∧
    entry.field? "max_usages_in_file" = some (.ofNat n)
  average : entry.field? "avg_usages_per_file" =
    some (.number (.floating (mean (amounts keyword files))))
  /-- The paths are those of the entries that use the keyword, in order. -/
  paths : ∃ texts : List String,
    entry.field? "used_in_files" = some (.array (texts.map Json.text)) ∧ texts.Pairwise (· ≤ ·) ∧
    (texts.map fun text => some (Json.text text)).Perm
      ((users keyword files).map (Json.field? "path"))

/-- Do the entries of the files and those of the keywords fit together? -/
structure Consistent (blocked : TextSet) (files keywords : List Json) : Prop where
  /-- Every file has the counts of its own tree. -/
  counts : ∀ entry ∈ files, ∃ tree, entry.field? "ast" = some tree ∧
    entry.field? "keyword_counts" = some (Json.ofMap Json.ofNat (countKeys blocked tree))
  /-- The keywords are those that some file lists, each one once and in order, and their entries say
  what those of the files do. -/
  keywords : ∃ names : List String, names.Pairwise (· < ·) ∧
    (∀ keyword, keyword ∈ names ↔ ∃ entry ∈ files, (amount? keyword entry).isSome) ∧
    List.Forall₂ (Describes files) names keywords

/-! ## The entries of files -/

variable {depth : Nat} {keyword : String} {files : List Specification}

theorem amount?_toJson (keyword : String) (f : Specification) :
    amount? keyword (f.toJson depth) = f.counts.get? keyword := by
  have hcounts : (f.toJson depth).field? "keyword_counts" =
      some (Json.ofMap Json.ofNat f.counts) := by
    simp [Specification.toJson, Json.field?]
  rw [amount?, hcounts, Option.bind_some, Json.field?_ofMap]
  cases f.counts.get? keyword <;> rfl

theorem path_toJson (f : Specification) :
    (f.toJson depth).field? "path" = some (.text (f.pathText depth)) := by
  simp [Specification.toJson, Json.field?]

/-- What the counts of a sound file list is what it uses. -/
theorem useOf?_eq_map {f : Specification} (hf : f.Sound) (keyword : String) :
    Usage.useOf? keyword f = (f.counts.get? keyword).map (FileUse.mk f) := by
  rw [Usage.useOf?, Specification.uses, Tally.count]
  cases hcount : f.counts.get? keyword with
  | none => rfl
  | some n => exact if_neg (Nat.pos_iff_ne_zero.mp (hf.positive keyword n hcount))

/-- The counts in an entry list the keywords that the file uses. -/
theorem isSome_amount? {f : Specification} (hf : f.Sound) :
    (amount? keyword (f.toJson depth)).isSome ↔ 1 ≤ f.uses keyword := by
  rw [amount?_toJson, Nat.one_le_iff_ne_zero, ← Specification.mem_keywords hf,
    Specification.keywords, SortedMap.mem_keys, Option.isSome_iff_exists]

/-- The amounts in the entries are those of the files. -/
theorem amounts_toJson (hsound : ∀ f ∈ files, f.Sound) (keyword : String) :
    amounts keyword (files.map fun f => f.toJson depth) =
      (files.filterMap (Usage.useOf? keyword)).map FileUse.uses := by
  rw [amounts, List.filterMap_map, List.map_filterMap]
  refine List.filterMap_congr fun f hf => ?_
  show amount? keyword (f.toJson depth) = _
  rw [amount?_toJson, useOf?_eq_map (hsound f hf), Option.map_map]
  exact (Option.map_id' (x := f.counts.get? keyword)).symm

/-- The entries that use a keyword show the paths of the files that do. -/
theorem paths_toJson (hsound : ∀ f ∈ files, f.Sound) (keyword : String) :
    (users keyword (files.map fun f => f.toJson depth)).map (Json.field? "path") =
      (files.filterMap (Usage.useOf? keyword)).map fun use =>
        some (Json.text (use.file.pathText depth)) := by
  induction files with
  | nil => rfl
  | cons f rest ih =>
    obtain ⟨hf, hrest⟩ := List.forall_mem_cons.mp hsound
    have hstep := ih hrest
    rw [List.map_cons, users, List.filter_cons, List.filterMap_cons, amount?_toJson,
      useOf?_eq_map hf]
    cases f.counts.get? keyword with
    | none => exact hstep
    | some n =>
      show (f.toJson depth).field? "path" :: _ = _ :: _
      rw [path_toJson]
      exact congrArg (List.cons _) hstep

/-! ## The entries of keywords -/

/-- The paths of a usage are sorted after they have been trimmed, -/
theorem pairwise_pathTexts (u : Usage) (depth : Nat) : (u.pathTexts depth).Pairwise (· ≤ ·) := by
  have htrans (a b c : String) (hab : decide (a ≤ b) = true) (hbc : decide (b ≤ c) = true) :
      decide (a ≤ c) = true := by
    rw [decide_eq_true_eq] at hab hbc ⊢
    exact String.le_trans hab hbc
  have htotal (a b : String) : (decide (a ≤ b) || decide (b ≤ a)) = true := by
    rw [Bool.or_eq_true, decide_eq_true_eq, decide_eq_true_eq]
    exact String.le_total a b
  exact (List.pairwise_mergeSort htrans htotal _).imp of_decide_eq_true

/-- and none of them is left out. -/
theorem perm_pathTexts (u : Usage) (depth : Nat) :
    (u.pathTexts depth).Perm (u.files.values.map fun use => use.file.pathText depth) :=
  List.mergeSort_perm ..

/-- A keyword that some file uses has a mean. -/
theorem average_tally {files : SortedMap FileUse} (h : files.isEmpty = false) :
    (Usage.tally keyword files).average = .ok (mean (Usage.amounts files)) := by
  have hlength : files.size = (Usage.amounts files).length := by
    rw [Usage.amounts, SortedMap.values, List.length_map, List.length_map, SortedMap.size]
  rw [Usage.average, Usage.tally_files, h, Usage.fileCount, Usage.tally_files, hlength]
  rfl

section Keywords

variable {i : Index} (hi : i.Consistent) (hsound : ∀ f ∈ i.files.values, f.Sound)

include hi hsound

/-- **The entry of a keyword says what the entries of the files do.** -/
theorem describes_toJson {u : Usage} (hu : i.keywords.get? keyword = some u) :
    Describes (i.files.values.map fun f => f.toJson depth) keyword (u.toJson depth) := by
  rw [hi.counted] at hu
  obtain ⟨⟨text, use, huse⟩, rfl⟩ := Usage.tally?_eq_some_iff.mp hu
  have hvalues : (Usage.usesOf keyword (Index.byPath i.files)).values.Perm
      (i.files.values.filterMap (Usage.useOf? keyword)) := by
    rw [Usage.usesOf, SortedMap.values_filterMap]
    exact (Index.perm_byPath hi.keyed).filterMap _
  -- The files are listed in another order than the uses, but all numbers are those of both.
  have hamounts : (Usage.amounts (Usage.usesOf keyword (Index.byPath i.files))).Perm
      (amounts keyword (i.files.values.map fun f => f.toJson depth)) := by
    rw [amounts_toJson hsound]
    exact hvalues.map FileUse.uses
  have hused : Usage.amounts (Usage.usesOf keyword (Index.byPath i.files)) ≠ [] :=
    List.ne_nil_of_mem (List.mem_map_of_mem (SortedMap.mem_values.mpr ⟨text, huse⟩))
  have hnonempty : (Usage.usesOf keyword (Index.byPath i.files)).isEmpty = false := by
    refine Bool.eq_false_iff.mpr fun hempty => ?_
    rw [SortedMap.isEmpty_iff.mp hempty text] at huse
    cases huse
  -- Some file uses the keyword, so there are a least number and a greatest one.
  obtain ⟨least, hleast⟩ := Option.isSome_iff_exists.mp (List.isSome_min?_of_ne_nil hused)
  obtain ⟨greatest, hgreatest⟩ := Option.isSome_iff_exists.mp (List.isSome_max?_of_ne_nil hused)
  constructor
  · simp [Usage.toJson, Json.field?, Usage.tally]
  · simp [Usage.toJson, Json.field?, Usage.tally, hamounts.sum_nat]
  · refine ⟨least, (Usage.min?_perm hamounts).symm.trans hleast, ?_⟩
    simp [Usage.toJson, Json.field?, Usage.tally, hleast, Json.ofNat?]
  · refine ⟨greatest, (Usage.max?_perm hamounts).symm.trans hgreatest, ?_⟩
    simp [Usage.toJson, Json.field?, Usage.tally, hgreatest, Json.ofNat?]
  · rw [mean, ← hamounts.sum_nat, ← hamounts.length_eq]
    simp [Usage.toJson, Json.field?, average_tally hnonempty, mean]
  · refine ⟨(Usage.tally keyword (Usage.usesOf keyword (Index.byPath i.files))).pathTexts depth, ?_,
      pairwise_pathTexts .., ?_⟩
    · simp [Usage.toJson, Json.field?]
    · have htexts := ((perm_pathTexts (Usage.tally keyword
        (Usage.usesOf keyword (Index.byPath i.files))) depth).trans (hvalues.map _)).map
          fun text => some (Json.text text)
      rw [List.map_map] at htexts
      rw [paths_toJson hsound]
      exact htexts

/-- **The entries of the files and of the keywords of an index fit together.** -/
theorem consistent_entries {blocked : TextSet}
    (hcounts : ∀ f ∈ i.files.values, f.counts = countKeys blocked f.tree) :
    Consistent blocked (i.files.values.map fun f => f.toJson depth)
      (i.keywords.values.map fun u => u.toJson depth) := by
  constructor
  · intro entry hentry
    obtain ⟨f, hf, rfl⟩ := List.mem_map.mp hentry
    refine ⟨f.tree, ?_, ?_⟩
    · simp [Specification.toJson, Json.field?]
    · rw [← hcounts f hf]
      simp [Specification.toJson, Json.field?]
  · refine ⟨i.keywords.keys, List.pairwise_map.mpr i.keywords.increasing, fun keyword => ?_, ?_⟩
    · -- A keyword is listed if a file uses it, and the entry of that file says so.
      rw [SortedMap.mem_keys, Index.listed_iff_used hi]
      constructor
      · rintro ⟨f, hf, hpos⟩
        refine ⟨f.toJson depth, List.mem_map_of_mem hf, ?_⟩
        rw [isSome_amount? (hsound f hf)]
        exact hpos
      · rintro ⟨entry, hentry, hlisted⟩
        obtain ⟨f, hf, rfl⟩ := List.mem_map.mp hentry
        exact ⟨f, hf, (isSome_amount? (hsound f hf)).mp hlisted⟩
    · show List.Forall₂ _ (i.keywords.entries.map (·.1))
        ((i.keywords.entries.map (·.2)).map fun u => u.toJson depth)
      rw [List.map_map, List.forall₂_map_left_iff, List.forall₂_map_right_iff, List.forall₂_same]
      rintro ⟨keyword, u⟩ hmem
      exact describes_toJson hi hsound (SortedMap.mem_entries.mp hmem)

end Keywords

/-! ## The whole document -/

/-- How a document shows a census. -/
structure Shows (c : Census) (depth : Nat) (blocked : TextSet) (document : Json) : Prop where
  /-- Its lists of files and of keywords fit together, and there is one entry for each file. -/
  entries : ∃ files keywords, document.field? "essence_files" = some (.array files) ∧
    document.field? "essence_keywords" = some (.array keywords) ∧
    Consistent blocked files keywords ∧
    files.map (Json.field? "path") = c.files.map fun f => some (Json.text (f.pathText depth))
  /-- The paths of the files differ, even where the same is shown of them. -/
  paths : (c.files.map Specification.path).Nodup

variable {settings : CensusSettings} {t : FileTree} {oracle : Oracle} {blocked : TextSet}
  {c : Census}

/-- A census of a consistent index of sound files is shown by its snapshot. -/
theorem shows_of_consistent (hi : c.index.Consistent)
    (hfiles : ∀ f ∈ c.files, f.Sound ∧ f.counts = countKeys blocked f.tree) :
    Shows c depth blocked (c.toJson depth) := by
  refine ⟨⟨c.files.map fun f => f.toJson depth, c.keywords.map fun u => u.toJson depth, ?_, ?_,
    ?_, ?_⟩, Index.nodup_paths hi⟩
  · simp [Census.toJson, Json.field?]
  · simp [Census.toJson, Json.field?]
  · exact consistent_entries hi (fun f hf => (hfiles f hf).1) fun f hf => (hfiles f hf).2
  · rw [List.map_map]
    exact List.map_congr_left fun f _ => path_toJson f

/-- Files that are listed have been loaded. -/
theorem loaded_of_mem_files {cs : List Candidate} {f : Specification}
    (hf : f ∈ (Scan.ofCandidates t oracle blocked cs).index.files.values) :
    f.Sound ∧ f.counts = countKeys blocked f.tree := by
  obtain ⟨candidate, -, found, hload, rfl⟩ := Scan.load_of_mem_files hf
  obtain ⟨-, -, -, hcounts, -⟩ := Specification.load_eq_ok hload
  exact ⟨Specification.sound_inRepository (Specification.sound_of_load hload) _, hcounts⟩

theorem shows_of_ofOracle (h : Census.ofOracle settings t oracle = .ok c) (depth : Nat) :
    Shows c depth settings.blocked (c.toJson depth) := by
  rw [Census.ofOracle] at h
  cases hcandidates : settings.candidates t with
  | error e =>
    rw [hcandidates] at h
    cases h
  | ok cs =>
    rw [hcandidates] at h
    cases h
    exact shows_of_consistent (Scan.consistent_ofCandidates cs) fun f hf => loaded_of_mem_files hf

/-- In a document that is consistent in itself, a keyword is used in as many files as there are entries
that list it. -/
theorem fileCount_of_shows (h : Shows c depth blocked (c.toJson depth))
    (hsound : ∀ f ∈ c.files, f.Sound) {u : Usage} (hu : c.index.keywords.get? keyword = some u)
    (hname : u.name = keyword) :
    u.fileCount = (c.files.filterMap (Usage.useOf? keyword)).length := by
  obtain ⟨files, keywords, hfiles, hkeywords, hconsistent, -⟩ := h.entries
  have hfiles : (c.files.map fun f => f.toJson depth) = files := by
    simpa [Census.toJson, Json.field?] using hfiles
  have hkeywords : (c.keywords.map fun u => u.toJson depth) = keywords := by
    simpa [Census.toJson, Json.field?] using hkeywords
  obtain ⟨names, -, -, hentries⟩ := hconsistent.keywords
  have hentry : u.toJson depth ∈ keywords := by
    rw [← hkeywords]
    exact List.mem_map_of_mem (SortedMap.mem_values.mpr ⟨keyword, hu⟩)
  -- The entry stands somewhere in the list, beside the name that it describes.
  obtain ⟨n, hn, hget⟩ := List.mem_iff_getElem.mp hentry
  obtain ⟨name, hdescribes⟩ : ∃ name, Describes files name (u.toJson depth) := by
    have hthere := hentries.get (hentries.length_eq ▸ hn) hn
    rw [List.get_eq_getElem, List.get_eq_getElem, hget] at hthere
    exact ⟨_, hthere⟩
  have hsame : name = keyword := by
    have hnamed := hdescribes.name
    rw [← hname]
    simpa [Usage.toJson, Json.field?, eq_comm] using hnamed
  obtain ⟨texts, htexts, -, hperm⟩ := hdescribes.paths
  have htexts : u.pathTexts depth = texts := by
    have hmap : (u.pathTexts depth).map Json.text = texts.map Json.text := by
      simpa [Usage.toJson, Json.field?] using htexts
    exact (List.map_inj_right fun _ _ heq => Json.text.inj heq).mp hmap
  have hlength := hperm.length_eq
  rw [hsame, ← hfiles, paths_toJson hsound, List.length_map, List.length_map, ← htexts,
    (perm_pathTexts u depth).length_eq, List.length_map, SortedMap.values, List.length_map] at hlength
  exact hlength

/-- **The document of a census is consistent in itself**, with any number of names of each path: the
counts of each file are those of its own tree, the keywords are those of the counts, and the numbers
and paths of each keyword are those of the files that list it. So it is for the census of one pass. It
is so however the candidates are cut into parts exactly if no files are mixed up that are shown
alike. -/
theorem shows_toJson (settings : CensusSettings) (t : FileTree) (oracle : Oracle) (depth : Nat) :
    (∀ c, Census.ofOracle settings t oracle = .ok c →
      Shows c depth settings.blocked (c.toJson depth)) ∧
    ((∀ c, Census.Outcome settings t oracle c → Shows c depth settings.blocked (c.toJson depth)) ↔
      Census.Unmixed settings t oracle) := by
  refine ⟨fun c h => shows_of_ofOracle h depth, fun h => ?_, fun hunmixed c h => ?_⟩
  · refine Census.unmixed_of_fileCounts fun c houtcome keyword u hu hname => ?_
    obtain ⟨cs, -, hfiles, -⟩ := Census.files_of_outcome houtcome
    refine (fileCount_of_shows (h c houtcome) (fun f hf => ?_) hu hname).le
    rw [Census.files, hfiles] at hf
    exact (loaded_of_mem_files hf).1
  · exact shows_of_ofOracle (Census.ofOracle_of_outcome h hunmixed) depth

/-- A tree with two specifications that have the same name. -/
def twinTree : FileTree :=
  ⟨.directory [("a", .directory [("x.essence", .file "find x\n".toUTF8 0o644)]),
    ("b", .directory [("x.essence", .file "find y\n".toUTF8 0o644)])], [], List.forall_mem_nil _⟩

/-- The settings for all of that tree. -/
def twinSettings : CensusSettings :=
  ⟨⟨"/"⟩, [], .binary ⟨"/conjure"⟩, ⟨60000⟩, SortedMap.setOf ["given"], none, none, false⟩

/-- An oracle whose answer tells the two specifications apart. -/
def twinOracle : Oracle :=
  ⟨fun p => .ok (.object [("find", if p.text = "/a/x.essence" then .object [("find", .null)]
    else .object [("given", .null)])]), .ok ⟨none, none⟩⟩

/-- The document of two files that are shown alike. -/
theorem shows_toJson_twins : ∃ c, Census.ofOracle twinSettings twinTree twinOracle = .ok c ∧
    c.files.map (fun f => f.pathText 1) = ["x.essence", "x.essence"] ∧
    c.index.keywords.keys = ["find"] ∧ Shows c 1 twinSettings.blocked (c.toJson 1) := by
  have hread : (Census.ofOracle twinSettings twinTree twinOracle).toOption.map
      (fun c => (c.files.map fun f => f.pathText 1, c.index.keywords.keys)) =
        some (["x.essence", "x.essence"], ["find"]) := by
    decide +kernel
  obtain ⟨c, hc, hpair⟩ := Option.map_eq_some_iff.mp hread
  obtain ⟨hpaths, hkeywords⟩ := Prod.mk.inj hpair
  have hcensus := eq_ok_of_toOption hc
  exact ⟨c, hcensus, hpaths, hkeywords, (shows_toJson twinSettings twinTree twinOracle 1).1 c hcensus⟩

end Snapshot

end KeywordCensus
