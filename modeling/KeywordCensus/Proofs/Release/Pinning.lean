import Mathlib.Data.List.Forall2
import KeywordCensus.Proofs.FileTree.Walking
import KeywordCensus.Release.Cache

/-!
# Pinned versions

The directory of a release is named for its tag, with an underscore for every slash. That is the name
of an entry of the cache for all tags but three (`Release.Pinnable`); the directory of these is the
cache itself or its parent. Two tags have the same directory if they differ in slashes and underscores
only (`Release.SameName`).

For all other pairs of tags, what is cached for one is never what is cached for the other one
(`Release.cached_of_pinned`).
-/

namespace KeywordCensus

namespace Release

variable {t : FileTree} {root cache binary : Path} {names : Location} {tag v w : String}

/-! ## The names of the directories -/

/-- A character of a tag as it stands in the name of a directory. -/
def written (c : Char) : Char := if c = '/' ∨ c = '\\' then '_' else c

/-- Is this a character that several ones are written as, or one of these? -/
def IsMark (c : Char) : Prop := c = '/' ∨ c = '\\' ∨ c = '_'

instance : DecidablePred IsMark := fun c =>
  inferInstanceAs (Decidable (c = '/' ∨ c = '\\' ∨ c = '_'))

/-- Are two tags the same but for slashes of both kinds and underscores? -/
def SameName (v w : String) : Prop :=
  List.Forall₂ (fun c d => c = d ∨ IsMark c ∧ IsMark d) v.toList w.toList

theorem written_ne_slash {c : Char} : written c ≠ '/' := by grind [written]

theorem written_of_not_isMark {c : Char} (h : ¬ IsMark c) : written c = c := by
  grind [written, IsMark]

/-- A character that has been replaced leaves a mark. -/
theorem written_eq_self {c : Char} (h : ¬ IsMark (written c)) : written c = c := by
  grind [written, IsMark]

/-- Only marks are written alike. -/
theorem written_eq_iff {c d : Char} : written c = written d ↔ c = d ∨ IsMark c ∧ IsMark d := by
  grind [written, IsMark]

theorem toList_underscored (tag : String) : (underscored tag).toList = tag.toList.map written :=
  String.toList_ofList

/-- **Two tags have the same name of a directory if they differ in slashes and underscores only.** -/
theorem directoryName_eq_iff : directoryName v = directoryName w ↔ SameName v w := by
  rw [directoryName, directoryName, Text.toBytes_inj, ← String.toList_inj, toList_underscored,
    toList_underscored, SameName, ← List.forall₂_eq_eq_eq, List.forall₂_map_left_iff,
    List.forall₂_map_right_iff]
  simp only [written_eq_iff]

/-- Can a tag name a directory of its own? -/
def Pinnable (tag : String) : Prop := tag ≠ "" ∧ tag ≠ "." ∧ tag ≠ ".."

instance : DecidablePred Pinnable := fun tag =>
  inferInstanceAs (Decidable (tag ≠ "" ∧ tag ≠ "." ∧ tag ≠ ".."))

/-- No separator is left in a tag whose marks are replaced. -/
theorem not_mem_underscored (tag : String) : '/' ∉ (underscored tag).toList := by
  rw [toList_underscored]
  intro hmem
  obtain ⟨c, -, hc⟩ := List.mem_map.mp hmem
  exact written_ne_slash hc

theorem not_mem_directoryName (tag : String) : '/' ∉ (directoryName tag).toList := by
  rw [directoryName, Text.mem_toBytes (by decide)]
  exact not_mem_underscored tag

/-- A text without marks is written for itself only. -/
theorem underscored_eq {text : String} (h : ∀ c ∈ text.toList, ¬ IsMark c) :
    underscored tag = text ↔ tag = text := by
  rw [← String.toList_inj, toList_underscored, ← String.toList_inj]
  constructor
  · intro heq
    -- No character of the tag has been replaced, as the mark would show.
    have hkept : tag.toList.map written = tag.toList.map id := by
      refine List.map_congr_left fun c hc => written_eq_self (h _ ?_)
      rw [← heq]
      exact List.mem_map_of_mem hc
    rw [← heq, hkept, List.map_id]
  · intro heq
    rw [heq]
    exact (List.map_congr_left fun c hc => written_of_not_isMark (h c hc)).trans (List.map_id _)

/-- The name of a directory can be that of an entry unless the tag is a step or empty. -/
theorem isName_directoryName : Path.IsName (directoryName tag) ↔ Pinnable tag := by
  have hpoint : ¬ IsMark '.' := by decide
  have hempty : underscored tag = "" ↔ tag = "" :=
    underscored_eq fun _ hc => absurd hc List.not_mem_nil
  have hdot : underscored tag = "." ↔ tag = "." :=
    underscored_eq (List.forall_mem_singleton.mpr hpoint)
  have hdots : underscored tag = ".." ↔ tag = ".." :=
    underscored_eq (List.forall_mem_cons.mpr ⟨hpoint, List.forall_mem_singleton.mpr hpoint⟩)
  rw [directoryName, Path.isName_toBytes, Path.IsName, Pinnable, ne_eq, ne_eq, ne_eq, hempty, hdot,
    hdots]
  exact ⟨fun h => ⟨h.1, h.2.1, h.2.2.1⟩, fun h => ⟨h.1, h.2.1, h.2.2, not_mem_underscored tag⟩⟩

/-! ## The places of the directories -/

/-- The install directory of a tag lies one name below the cache. -/
theorem components_directory (cache : Path) (h : Pinnable tag) :
    (directory cache tag).components = cache.components ++ [.name (directoryName tag)] :=
  Path.components_child_of_isName cache (isName_directoryName.mpr h)

/-- The directory of a tag that can name none is the cache or its parent. -/
theorem spelledPlace_directory (workDir : Location) (cache : Path) (h : ¬ Pinnable tag) :
    Path.spelledPlace workDir (directory cache tag) = Path.spelledPlace workDir cache ∨
    Path.spelledPlace workDir (directory cache tag) =
      (Path.spelledPlace workDir cache).dropLast := by
  have hname := not_mem_directoryName tag
  rw [directory, Path.spelledPlace_child workDir cache hname]
  rcases Path.isName_or_step hname with hin | hstay | hup
  · exact absurd (isName_directoryName.mp hin) h
  · exact .inl (Path.enter_of_stay _ hstay)
  · exact .inr (Path.enter_of_up _ hup)

/-- A directory that is spelled as an entry of the cache is that of a tag that can name one. -/
theorem pinnable_of_components {name : String}
    (h : (directory cache tag).components = cache.components ++ [.name name]) : Pinnable tag := by
  refine Classical.byContradiction fun hnot => ?_
  have hlength : (Path.spelledPlace [] (directory cache tag)).length =
      (Path.spelledPlace [] cache).length + 1 := by
    have hplace : Path.spelledPlace [] (directory cache tag) =
        Path.spelledPlace [] cache ++ [name] := Path.spelledPlace_of_components [] h
    rw [hplace, List.length_append, List.length_singleton]
  rcases spelledPlace_directory [] cache hnot with heq | heq
  · rw [heq] at hlength
    omega
  · rw [heq, List.length_dropLast] at hlength
    omega

/-- A tag that can name a directory shares it with the tags that are written alike. -/
theorem components_directory_inj (h : Pinnable v) :
    (directory cache v).components = (directory cache w).components ↔ SameName v w := by
  rw [← directoryName_eq_iff]
  constructor
  · intro heq
    rw [components_directory cache h] at heq
    rw [components_directory cache (pinnable_of_components heq.symm)] at heq
    exact Component.name.inj (List.singleton_inj.mp (List.append_cancel_left heq))
  · intro heq
    rw [directory, directory, heq]

/-! ## What is cached -/

/-- What is found in a directory is listed below it, by the name of the parser. -/
theorem listed_of_findBinary? (hordered : t.root.Ordered) (h : findBinary? t root = some binary) :
    ∃ names, t.Listed root binary names ∧ names.getLast? = some binaryName := by
  rw [findBinary?] at h
  split at h
  · rename_i hdirectory
    obtain ⟨hwanted, names, hlisted⟩ :=
      (FileTree.mem_filesBelow_iff hordered hdirectory).mp (List.mem_of_mem_head? h)
    have hname : binary.fileName? = some binaryName := of_decide_eq_true hwanted
    exact ⟨names, hlisted, hlisted.fileName? ▸ hname⟩
  · cases h

/-- Where all directories may be entered it is a file below. -/
theorem below_of_findBinary? (htidy : t.root.Tidy) (h : findBinary? t root = some binary) :
    ∃ names, t.Below root binary names ∧ names.getLast? = some binaryName := by
  obtain ⟨names, hlisted, hname⟩ := listed_of_findBinary? htidy.ordered h
  exact ⟨names, hlisted.below htidy, hname⟩

/-- Where such a file is listed, one is found. -/
theorem findBinary?_ne_none (hordered : t.root.Ordered) (h : t.Listed root binary names)
    (hname : names.getLast? = some binaryName) : findBinary? t root ≠ none := by
  rw [findBinary?, if_pos h.isDirectory]
  intro hnone
  have hmem : binary ∈ t.filesBelow root fun p => p.fileName? = some binaryName :=
    (FileTree.mem_filesBelow_iff hordered h.isDirectory).mpr
      ⟨decide_eq_true (h.fileName?.trans hname), names, h⟩
  rw [List.head?_eq_none_iff.mp hnone] at hmem
  exact List.not_mem_nil hmem

theorem cached?_of_ne_latest (t : FileTree) (cache : Path) (hv : v ≠ latest) :
    cached? t cache v = findBinary? t (directory cache v) := if_neg hv

/-- **A pinned version is served from its own directory alone**, as long as it can name one. That
directory is an entry of the cache, which other versions have as theirs if they differ in slashes and
underscores only; these versions are served the same files. What is found for the version is a file
below the directory with the name of the parser (one that is listed there, if a directory may be read
but not entered), and one is found if there is one; so nothing of it is ever found for a version with
another directory. The three versions that can name none have the cache
or its parent for their directory. -/
theorem cached_of_pinned (cache : Path) (hv : v ≠ latest) (hw : w ≠ latest) :
    (Pinnable v ↔ ∃ name, Path.IsName name ∧
      (directory cache v).components = cache.components ++ [.name name]) ∧
    (¬ Pinnable v → ∀ workDir,
      Path.spelledPlace workDir (directory cache v) = Path.spelledPlace workDir cache ∨
      Path.spelledPlace workDir (directory cache v) =
        (Path.spelledPlace workDir cache).dropLast) ∧
    (Pinnable v →
      ((directory cache v).components = (directory cache w).components ↔ SameName v w)) ∧
    (SameName v w → ∀ t, cached? t cache v = cached? t cache w) ∧
    (∀ (t : FileTree) (binary : Path), t.root.Ordered → cached? t cache v = some binary →
      ∃ names, t.Listed (directory cache v) binary names ∧ names.getLast? = some binaryName ∧
        (t.root.Tidy → t.Below (directory cache v) binary names)) ∧
    (∀ (t : FileTree) (binary : Path) (names : Location), t.root.Ordered →
      t.Listed (directory cache v) binary names → names.getLast? = some binaryName →
      cached? t cache v ≠ none) ∧
    (Pinnable v → Pinnable w → ¬ SameName v w → ∀ (t t' : FileTree) (binary other : Path),
      t.root.Ordered → t'.root.Ordered → cached? t cache v = some binary →
      cached? t' cache w = some other → binary.components ≠ other.components) := by
  refine ⟨⟨?_, ?_⟩, fun hout workDir => spelledPlace_directory workDir cache hout,
    fun hpin => components_directory_inj hpin, ?_, ?_, ?_, ?_⟩
  · intro hpin
    exact ⟨_, isName_directoryName.mpr hpin, components_directory cache hpin⟩
  · rintro ⟨name, -, hcomponents⟩
    exact pinnable_of_components hcomponents
  · intro hsame t
    rw [cached?_of_ne_latest t cache hv, cached?_of_ne_latest t cache hw, directory, directory,
      directoryName_eq_iff.mpr hsame]
  · intro t binary hordered hcached
    rw [cached?_of_ne_latest t cache hv] at hcached
    obtain ⟨names, hlisted, hname⟩ := listed_of_findBinary? hordered hcached
    exact ⟨names, hlisted, hname, hlisted.below⟩
  · intro t binary names hordered hlisted hname
    rw [cached?_of_ne_latest t cache hv]
    exact findBinary?_ne_none hordered hlisted hname
  · intro hpin hpin' hdiffer t t' binary other hordered hordered' hcached hcached' heq
    rw [cached?_of_ne_latest t cache hv] at hcached
    rw [cached?_of_ne_latest t' cache hw] at hcached'
    obtain ⟨names, hlisted, -⟩ := listed_of_findBinary? hordered hcached
    obtain ⟨names', hlisted', -⟩ := listed_of_findBinary? hordered' hcached'
    -- After the components of the cache, both paths go on with the names of the directories.
    rw [hlisted.components, hlisted'.components, components_directory cache hpin,
      components_directory cache hpin', List.append_assoc, List.append_assoc] at heq
    obtain ⟨hname, -⟩ := List.cons.inj (List.append_cancel_left heq)
    exact hdiffer (directoryName_eq_iff.mp (Component.name.inj hname))

/-- A cache with two releases. -/
def pairCache : FileTree :=
  ⟨.directory [("c", .directory
    [("v2.4.1", .directory [("conjure", .file ByteArray.empty 0o755)]),
      ("v2.5.1", .directory [("conjure", .file ByteArray.empty 0o755)])])], [], List.forall_mem_nil _⟩

theorem tidy_pairCache : pairCache.root.Tidy := by
  decide +kernel

/-- Each of two cached releases is found for its own version only. -/
theorem cached_pairCache :
    cached? pairCache ⟨"c"⟩ "v2.5.1" = some ⟨"c/v2.5.1/conjure"⟩ ∧
    cached? pairCache ⟨"c"⟩ "v2.4.1" = some ⟨"c/v2.4.1/conjure"⟩ ∧
    (Path.mk "c/v2.5.1/conjure").components ≠ (Path.mk "c/v2.4.1/conjure").components ∧
    ∃ names, pairCache.Below (directory ⟨"c"⟩ "v2.5.1") ⟨"c/v2.5.1/conjure"⟩ names ∧
      names.getLast? = some binaryName := by
  have hnewer : cached? pairCache ⟨"c"⟩ "v2.5.1" = some ⟨"c/v2.5.1/conjure"⟩ := by decide +kernel
  have holder : cached? pairCache ⟨"c"⟩ "v2.4.1" = some ⟨"c/v2.4.1/conjure"⟩ := by decide +kernel
  have hdiffer : ¬ SameName "v2.5.1" "v2.4.1" := by
    rw [← directoryName_eq_iff]
    decide +kernel
  obtain ⟨-, -, -, -, hbelow, -, hother⟩ :=
    cached_of_pinned ⟨"c"⟩ (v := "v2.5.1") (w := "v2.4.1") (by decide) (by decide)
  obtain ⟨names, -, hname, hown⟩ := hbelow _ _ tidy_pairCache.ordered hnewer
  refine ⟨hnewer, holder, ?_, names, hown tidy_pairCache, hname⟩
  exact hother (by decide) (by decide) hdiffer _ _ _ _ tidy_pairCache.ordered tidy_pairCache.ordered
    hnewer holder

/-- Tags that are written alike share a directory. -/
example : directory ⟨"c"⟩ "release/v2" = directory ⟨"c"⟩ "release_v2" := by decide +kernel

end Release

end KeywordCensus
