import KeywordCensus.Proofs.Census.Accounting

/-!
# The roots of a discovery

If all roots are directories, a discovery returns the first of what they list, root by root, whatever
is left out and whatever cap there is (`CensusSettings.candidates_of_directories`).

A root that is no directory is noticed when the discovery comes to it, and a discovery that has
stopped comes to no further root. It stops where a file, left out or not, follows as many candidates
as there may be; a cap that is filled exactly does not stop it. So the first root that is no directory
ends a census if and only if the files before it do not overflow (`Census.invalidDirectory_iff`).
-/

namespace KeywordCensus

namespace Discovery

variable {t : FileTree} {a : Admission} {roots before rest : List Path} {root : Path}
  {d : Discovery}

/-! ## What roots list -/

/-- What some roots list: the Essence files below each of them that are not left out, root by root,
with the name of the repository. -/
inductive Lists (t : FileTree) (excluded : Path → Bool) : List Path → List Candidate → Prop
  /-- No roots list nothing. -/
  | nil : Lists t excluded [] []
  /-- A root comes before the other ones. -/
  | cons {root : Path} {rest files : List Path} {hits : List Candidate} :
      t.essenceFiles? root = some files → Lists t excluded rest hits →
      Lists t excluded (root :: rest)
        ((files.filter fun p => !excluded p).map (fun p => ⟨p, repositoryName root⟩) ++ hits)

/-- The candidates that a discovery below some roots ends with. -/
def candidatesBelow (t : FileTree) (a : Admission) (roots : List Path) :
    Except CensusError (List Candidate) := (visit t a roots start).map (·.found)

/-- The hits below valid roots are the listing of those roots. -/
theorem lists_hitsBelow (a : Admission) (h : ∀ root ∈ roots, t.isDirectory root = true) :
    Lists t a.excluded roots (roots.flatMap (hitsBelow t a)) := by
  induction roots with
  | nil => exact .nil
  | cons root rest ih =>
    obtain ⟨hroot, hrest⟩ := List.forall_mem_cons.mp h
    have hfiles : t.essenceFiles? root = some (t.filesBelow root Path.isEssence) := if_pos hroot
    rw [List.flatMap_cons]
    exact .cons hfiles (ih hrest)

/-- With every root a directory the look-up cannot fail: it lists the hits of all roots and cuts
them at the cap. -/
theorem candidatesBelow_eq (a : Admission) (h : ∀ root ∈ roots, t.isDirectory root = true) :
    candidatesBelow t a roots = .ok (a.cap (roots.flatMap (hitsBelow t a))) := by
  obtain ⟨last, hlast, hafter⟩ := (after_start a).visit roots h
  rw [candidatesBelow, hlast]
  exact congrArg Except.ok hafter.found

/-! ## Roots that are no directories -/

/-- A full discovery visits no further root, and so does not ask if it is a directory. -/
theorem visit_of_full (h : d.full = true) (roots : List Path) : visit t a roots d = .ok d := by
  cases roots with
  | nil => rfl
  | cons root rest => rw [visit, if_pos h]

/-- Roots can be gone through in two goes. -/
theorem visit_append (before rest : List Path) (d : Discovery) :
    visit t a (before ++ rest) d = visit t a before d >>= visit t a rest := by
  induction before generalizing d with
  | nil => rfl
  | cons root before ih =>
    rw [List.cons_append, visit, visit]
    by_cases hfull : d.full = true
    · rw [if_pos hfull, if_pos hfull]
      exact (visit_of_full hfull rest).symm
    · rw [if_neg hfull, if_neg hfull]
      cases t.essenceFiles? root with
      | none => rfl
      | some files => exact ih _

/-- Is a root, after some other ones, the first that is no directory? -/
structure FirstInvalid (t : FileTree) (roots before : List Path) (root : Path) : Prop where
  listed : ∃ after, roots = before ++ root :: after
  directories : ∀ r ∈ before, t.isDirectory r = true
  invalid : t.isDirectory root = false

/-- Unless all roots are directories, one is the first that is none. -/
theorem directories_or_firstInvalid (t : FileTree) (roots : List Path) :
    (∀ root ∈ roots, t.isDirectory root = true) ∨ ∃ before root, FirstInvalid t roots before root := by
  cases hfind : roots.find? fun root => !t.isDirectory root with
  | none =>
    left
    intro root hroot
    simpa using List.find?_eq_none.mp hfind root hroot
  | some root =>
    obtain ⟨hinvalid, before, after, hsplit, hbefore⟩ := List.find?_eq_some_iff_append.mp hfind
    refine .inr ⟨before, root, ⟨after, hsplit⟩, fun r hr => ?_, (Bool.not_eq_true' _).mp hinvalid⟩
    simpa using hbefore r hr

/-- There is such a root if and only if some root is no directory. -/
theorem exists_firstInvalid_iff : (∃ before root, FirstInvalid t roots before root) ↔
    ∃ root ∈ roots, t.isDirectory root = false := by
  constructor
  · rintro ⟨before, root, h⟩
    obtain ⟨after, rfl⟩ := h.listed
    exact ⟨root, List.mem_append_right _ List.mem_cons_self, h.invalid⟩
  · rintro ⟨root, hroot, hinvalid⟩
    refine (directories_or_firstInvalid t roots).resolve_left fun hroots => ?_
    rw [hroots root hroot] at hinvalid
    cases hinvalid

/-- **The first root that is no directory is noticed unless the discovery has stopped before**, and
then the candidates are those below the roots before it. -/
theorem candidatesBelow_of_firstInvalid (a : Admission) (h : FirstInvalid t roots before root) :
    (¬ a.Overflows (filesBelow t before) ∧
      candidatesBelow t a roots = .error (.invalidDirectory root)) ∨
    (a.Overflows (filesBelow t before) ∧
      candidatesBelow t a roots = .ok (a.cap (before.flatMap (hitsBelow t a)))) := by
  obtain ⟨after, rfl⟩ := h.listed
  obtain ⟨last, hlast, hafter⟩ := (after_start a).visit before h.directories
  rw [candidatesBelow, visit_append, hlast]
  show (_ ∧ (visit t a (root :: after) last).map (·.found) = _) ∨
    (_ ∧ (visit t a (root :: after) last).map (·.found) = _)
  have hover := hafter.full
  rw [List.nil_append] at hover
  by_cases hfull : last.full = true
  · rw [visit_of_full hfull]
    exact .inr ⟨hover.mp hfull, congrArg Except.ok hafter.found⟩
  · have hmissing : t.essenceFiles? root = none :=
      if_neg (Bool.eq_false_iff.mp h.invalid)
    rw [visit, if_neg hfull, hmissing]
    exact .inl ⟨fun hcontra => hfull (hover.mpr hcontra), rfl⟩

end Discovery

namespace CensusSettings

variable {settings : CensusSettings} {t : FileTree}

/-- **The candidates are the first ones of what the roots list**, if all of these are directories: for
every way of leaving out paths and every cap. What is left out does not count, the cap is one for all
roots together, and a higher cap only adds candidates at the end. A census leaves out the paths that
show a match of its pattern, if it has one, and its cap is the greatest number of files. -/
theorem candidates_of_directories (settings : CensusSettings) (t : FileTree)
    (hroots : ∀ root ∈ settings.roots, t.isDirectory root.1 = true) :
    (∀ excluded : Path → Bool, ∃ hits,
      Discovery.Lists t excluded (settings.roots.map (·.1)) hits ∧
      Discovery.candidatesBelow t ⟨none, excluded⟩ (settings.roots.map (·.1)) = .ok hits ∧
      (∀ limit, Discovery.candidatesBelow t ⟨some limit, excluded⟩ (settings.roots.map (·.1)) =
        .ok (hits.take limit)) ∧
      ∀ few many found more, few ≤ many →
        Discovery.candidatesBelow t ⟨some few, excluded⟩ (settings.roots.map (·.1)) = .ok found →
        Discovery.candidatesBelow t ⟨some many, excluded⟩ (settings.roots.map (·.1)) = .ok more →
        found <+: more) ∧
    settings.candidates t = Discovery.candidatesBelow t settings.admission
      (settings.roots.map (·.1)) ∧
    settings.admission.limit = settings.maxFiles ∧
    ∀ p, settings.admission.excluded p = true ↔
      ∃ rule, settings.exclusion = some rule ∧ rule.pattern.isIn p.shown = true := by
  have hmap : ∀ root ∈ settings.roots.map (·.1), t.isDirectory root = true :=
    List.forall_mem_map.mpr hroots
  refine ⟨fun excluded => ?_, rfl, rfl, fun p => Option.any_eq_true _ _⟩
  -- No cap is needed to make the list, and a cap only cuts it.
  have hcapped : ∀ limit, Discovery.candidatesBelow t ⟨some limit, excluded⟩
      (settings.roots.map (·.1)) = .ok (((settings.roots.map (·.1)).flatMap
        (Discovery.hitsBelow t ⟨none, excluded⟩)).take limit) :=
    fun limit => Discovery.candidatesBelow_eq ⟨some limit, excluded⟩ hmap
  refine ⟨_, Discovery.lists_hitsBelow ⟨none, excluded⟩ hmap,
    Discovery.candidatesBelow_eq ⟨none, excluded⟩ hmap, hcapped, ?_⟩
  intro few many found more hle hfound hmore
  rw [hcapped] at hfound hmore
  cases hfound
  cases hmore
  exact List.take_prefix_take_left hle

theorem admission_of_maxFiles {limit : Nat} (h : settings.maxFiles = some limit) :
    settings.admission = ⟨some limit, settings.admission.excluded⟩ := by
  rw [admission, h]

/-- A tree with two clones, of two files and of one. -/
def shelvesTree : FileTree :=
  ⟨.directory [("c", .directory [("o", .directory
    [("r", .directory [("x.essence", .file ByteArray.empty 0o644),
        ("y.essence", .file ByteArray.empty 0o644)]),
      ("s", .directory [("z.essence", .file ByteArray.empty 0o644)])])])], [],
    List.forall_mem_nil _⟩

/-- The settings for some repositories of one owner, under a cap. -/
def shelvesSettings (names : List String) (limit : Nat) : CensusSettings :=
  ⟨⟨"/c"⟩, names.map fun name => ⟨"o/" ++ name, "master", ⟨"o", name⟩⟩, .binary ⟨"/conjure"⟩, ⟨60000⟩,
    SortedMap.empty, none, some limit, false⟩

/-- The settings for both clones that leave out the paths with a certain letter. -/
def excludingSettings : CensusSettings :=
  { shelvesSettings ["r", "s"] 2 with
    exclusion := (Pattern.ofText? "[xv]\\.").map fun pattern => ⟨"[xv]\\.", pattern⟩ }

/-- Three files, one of which is left out; the others are let in. -/
theorem candidates_shelvesTree :
    (∀ root ∈ excludingSettings.roots, shelvesTree.isDirectory root.1 = true) ∧
    ∃ rule hits, excludingSettings.exclusion = some rule ∧
      rule.pattern.isIn "/c/o/r/x.essence" = true ∧
      Discovery.Lists shelvesTree excludingSettings.admission.excluded
        (excludingSettings.roots.map (·.1)) hits ∧
      excludingSettings.candidates shelvesTree = .ok (hits.take 2) ∧
      hits.take 2 = [⟨⟨"/c/o/r/y.essence"⟩, "o/r"⟩, ⟨⟨"/c/o/s/z.essence"⟩, "o/s"⟩] := by
  have hroots : ∀ root ∈ excludingSettings.roots, shelvesTree.isDirectory root.1 = true := by
    decide +kernel
  obtain ⟨hall, hown, -, hexcluded⟩ := candidates_of_directories _ _ hroots
  obtain ⟨hits, hlists, -, hcapped, -⟩ := hall excludingSettings.admission.excluded
  have hfound : excludingSettings.candidates shelvesTree = .ok (hits.take 2) := by
    rw [hown, admission_of_maxFiles rfl]
    exact hcapped 2
  have hread : excludingSettings.candidates shelvesTree =
      .ok [⟨⟨"/c/o/r/y.essence"⟩, "o/r"⟩, ⟨⟨"/c/o/s/z.essence"⟩, "o/s"⟩] := by decide +kernel
  -- The pattern leaves out the first file of the first root.
  have hleft : excludingSettings.admission.excluded ⟨"/c/o/r/x.essence"⟩ = true := by decide +kernel
  have hshown : Path.shown ⟨"/c/o/r/x.essence"⟩ = "/c/o/r/x.essence" := by decide +kernel
  obtain ⟨rule, hrule, hmatch⟩ := (hexcluded _).mp hleft
  rw [hshown] at hmatch
  exact ⟨hroots, rule, hits, hrule, hmatch, hlists, hfound, Except.ok.inj (hfound.symm.trans hread)⟩

end CensusSettings

namespace Census

open Discovery
open CensusSettings (shelvesTree shelvesSettings)

variable {settings : CensusSettings} {t : FileTree} {oracle : Oracle}

/-- A census fails as its discovery does, and not otherwise. -/
theorem ofOracle_eq_error {e : CensusError} : ofOracle settings t oracle = .error e ↔
    candidatesBelow t settings.admission (settings.roots.map (·.1)) = .error e := by
  rw [ofOracle]
  show (settings.candidates t >>= _) = _ ↔ settings.candidates t = .error e
  cases settings.candidates t with
  | error other =>
    show Except.error other = Except.error e ↔ Except.error other = Except.error e
    rw [Except.error.injEq, Except.error.injEq]
  | ok cs => exact iff_of_false (fun h => by cases h) fun h => by cases h

/-- The error is the first root that is no directory, unless the files before it overflow. -/
theorem ofOracle_eq_error_iff {e : CensusError} : ofOracle settings t oracle = .error e ↔
    ∃ before root, FirstInvalid t (settings.roots.map (·.1)) before root ∧
      e = .invalidDirectory root ∧ ¬ settings.admission.Overflows (filesBelow t before) := by
  rw [ofOracle_eq_error]
  constructor
  · intro herror
    rcases directories_or_firstInvalid t (settings.roots.map (·.1)) with hroots | ⟨before, root, h⟩
    · rw [candidatesBelow_eq _ hroots] at herror
      cases herror
    · rcases candidatesBelow_of_firstInvalid settings.admission h with ⟨hnot, heq⟩ | ⟨-, heq⟩
      · rw [heq] at herror
        cases herror
        exact ⟨before, root, h, rfl, hnot⟩
      · rw [heq] at herror
        cases herror
  · rintro ⟨before, root, h, rfl, hnot⟩
    rcases candidatesBelow_of_firstInvalid settings.admission h with ⟨-, heq⟩ | ⟨hover, -⟩
    · exact heq
    · exact absurd hover hnot

/-- **A root that is no directory is reported if it is the first one and the files before it do not
overflow**, and nothing else is reported. Without a cap nothing overflows, and so the first such root
is always reported. With a cap the census goes on with the candidates of the roots before if a file
comes after as many as there may be, be it one that is left out. -/
theorem invalidDirectory_iff (settings : CensusSettings) (t : FileTree) (oracle : Oracle) :
    (∀ e, ofOracle settings t oracle = .error e ↔ ∃ before root,
      FirstInvalid t (settings.roots.map (·.1)) before root ∧ e = .invalidDirectory root ∧
      ¬ settings.admission.Overflows (filesBelow t before)) ∧
    (settings.maxFiles = none → ∀ e, ofOracle settings t oracle = .error e ↔ ∃ before root,
      FirstInvalid t (settings.roots.map (·.1)) before root ∧ e = .invalidDirectory root) ∧
    (∀ before root, FirstInvalid t (settings.roots.map (·.1)) before root →
      settings.admission.Overflows (filesBelow t before) →
      (∃ c, ofOracle settings t oracle = .ok c) ∧ settings.candidates t =
        .ok (settings.admission.cap (before.flatMap (hitsBelow t settings.admission)))) ∧
    ((∃ root ∈ settings.roots, t.isDirectory root.1 = false) ↔
      ∃ before root, FirstInvalid t (settings.roots.map (·.1)) before root) := by
  refine ⟨fun _ => ofOracle_eq_error_iff, fun hnone e => ?_, fun before root h hover => ?_, ?_⟩
  · rw [ofOracle_eq_error_iff]
    refine exists_congr fun before => exists_congr fun root => and_congr_right fun _ => ?_
    exact and_iff_left (Admission.not_overflows_of_none hnone _)
  · -- Once the cap overflows, the roots after are not looked at.
    rcases candidatesBelow_of_firstInvalid settings.admission h with ⟨hnot, -⟩ | ⟨-, heq⟩
    · exact absurd hover hnot
    · have hcandidates : settings.candidates t = _ := heq
      refine ⟨?_, heq⟩
      rw [ofOracle, hcandidates]
      exact ⟨_, rfl⟩
  · simp only [exists_firstInvalid_iff, List.mem_map, exists_exists_and_eq_and]

/-- **The second repository is missing, and whether that is noticed depends on the cap**: the first one
has two files, which fill a cap of two and overflow a cap of one. -/
theorem missing_shelvesTree :
    (∀ limit, (shelvesSettings ["r", "lost"] limit).roots.map (·.1) =
      [⟨"/c/o/r"⟩, ⟨"/c/o/lost"⟩]) ∧
    shelvesTree.isDirectory ⟨"/c/o/lost"⟩ = false ∧
    ofOracle (shelvesSettings ["r", "lost"] 2) shelvesTree refusingOracle =
      .error (.invalidDirectory ⟨"/c/o/lost"⟩) ∧
    ∃ c, ofOracle (shelvesSettings ["r", "lost"] 1) shelvesTree refusingOracle = .ok c := by
  have hroots : (shelvesSettings ["r", "lost"] 1).roots.map (·.1) =
      [⟨"/c/o/r"⟩, ⟨"/c/o/lost"⟩] := by decide +kernel
  have hlost : shelvesTree.isDirectory ⟨"/c/o/lost"⟩ = false := by decide +kernel
  have hfirst : ∀ limit, FirstInvalid shelvesTree
      ((shelvesSettings ["r", "lost"] limit).roots.map (·.1)) [⟨"/c/o/r"⟩] ⟨"/c/o/lost"⟩ :=
    fun _ => ⟨⟨[], hroots⟩, by decide +kernel, hlost⟩
  refine ⟨fun _ => hroots, hlost, ?_, ?_⟩
  · exact ((invalidDirectory_iff _ _ _).1 _).mpr ⟨_, _, hfirst 2, rfl, by decide +kernel⟩
  · exact ((invalidDirectory_iff _ _ _).2.2.1 _ _ (hfirst 1) (by decide +kernel)).1

end Census

end KeywordCensus
