import KeywordCensus.Proofs.Census.Roots
import KeywordCensus.Proofs.Path.Trimming
import KeywordCensus.Proofs.Remote.Boundary

/-!
# The repository of a candidate

A candidate carries the last two names of the root below which it was found, and below the clone
directory of a remote these are meant to be its owner and its name. They are wherever a third name
stands before them. Where the root directory of the clones leaves no name, the whole normal form of the
clone directory is taken, and with it what such a root directory is spelled as (`Path.overhang`): a
slash, a step up, or both. `CensusSettings.repository_of_candidates` says of every candidate what it
carries, and when that is the owner and the name.
-/

namespace KeywordCensus

namespace Path

variable {p q : Path} {names : List String} {owner name : String}

/-! ## Two names more -/

theorem rise_append_names (cs : List Component) (names : List String) :
    rise (cs ++ names.map .name) = rise cs := by
  induction cs with
  | nil => exact rise_up_names 0 names
  | cons c rest ih => cases c <;> simp only [List.cons_append, rise, ih]

/-- A path begins at the root if the root is among its components. -/
theorem isAbsolute_iff : p.isAbsolute = true ↔ .root ∈ p.components := by
  obtain ⟨cs, hcomponents, hroot⟩ := components_eq_rootOf p
  rw [hcomponents, List.mem_append, or_iff_left hroot, rootOf]
  split
  · rename_i habsolute
    exact iff_of_true habsolute (List.mem_singleton_self _)
  · rename_i hrelative
    exact iff_of_false hrelative List.not_mem_nil

section Descended

variable (h : q.components = p.components ++ names.map .name)

include h

theorem isAbsolute_descended : q.isAbsolute = p.isAbsolute := by
  rw [Bool.eq_iff_iff, isAbsolute_iff, isAbsolute_iff, h, List.mem_append, or_iff_left]
  intro hroot
  obtain ⟨name, -, hname⟩ := List.mem_map.mp hroot
  cases hname

/-- The normal names of a file below a root are those of the root and then the way down. -/
theorem normalNames_descended : q.normalNames = p.normalNames ++ names := by
  rw [normalNames_eq, normalNames_eq, h, climb_append, climb_names, List.reverse_append,
    List.reverse_reverse]

end Descended

/-- What a path without names is spelled as in front of names. -/
def overhang (p : Path) : String :=
  if climb [] p.components ≠ [] then ""
  else (if p.isAbsolute then "/" else "") ++ if rise p.components % 2 = 1 then "../" else ""

/-- Nothing hangs over exactly if the path names a directory of its own, or is relative and climbs
an even number of times. -/
theorem overhang_eq_empty_iff : p.overhang = "" ↔
    climb [] p.components ≠ [] ∨ p.isAbsolute = false ∧ rise p.components % 2 = 0 := by
  rw [overhang]
  split
  · rename_i hnames
    exact iff_of_true rfl (.inl hnames)
  · rename_i hnone
    have hslash : (if p.isAbsolute then "/" else "") = "" ↔ p.isAbsolute = false := by
      cases p.isAbsolute <;> decide
    have hstep : (if rise p.components % 2 = 1 then "../" else "") = "" ↔
        rise p.components % 2 = 0 := by
      rcases Nat.mod_two_eq_zero_or_one (rise p.components) with hmod | hmod <;> rw [hmod] <;> decide
    rw [or_iff_right hnone, String.append_eq_empty_iff, hslash, hstep]

/-- It is spelled with characters of one byte. -/
theorem toBytes_overhang (p : Path) : Text.toBytes p.overhang = p.overhang := by
  refine Text.toBytes_of_ascii fun c hc => ?_
  rw [overhang] at hc
  split at hc
  · cases hc
  rw [String.toList_append, List.mem_append] at hc
  rcases hc with hslash | hstep
  · split at hslash
    · cases List.mem_singleton.mp hslash
      decide
    · cases hslash
  · split at hstep
    · have hascii : Text.IsAscii "../" := by decide
      exact hascii c hstep
    · cases hstep

/-- The spelling of steps, from the root or not. -/
theorem render_rootOf {steps : List Component} (h : ∀ c ∈ steps, IsStep c) :
    render (p.rootOf ++ steps) =
      (if p.isAbsolute then "/" else "").toList ++ Text.join '/' (steps.map Component.text) := by
  rw [rootOf]
  split
  · rfl
  · exact render_steps h

/-- A path whose root folds away to no name keeps its anchor, its odd climb and the way down. -/
theorem normalize_text_of_nameless (h : q.components = p.components ++ names.map .name)
    (hnone : climb [] p.components = []) (hnames : ∀ name ∈ names, IsName name) :
    q.normalize.text = String.ofList ((if p.isAbsolute then "/" else "").toList ++ Text.join '/'
      ((List.replicate (rise p.components % 2) Component.parent ++
        names.map Component.name).map Component.text)) := by
  have hsteps : ∀ c ∈ List.replicate (rise p.components % 2) Component.parent ++ names.map .name,
      IsStep c := by
    intro c hc
    rcases List.mem_append.mp hc with hparent | hname
    · exact .inl (List.eq_of_mem_replicate hparent)
    · exact isStep_names hnames c hname
  have hroot : q.rootOf = p.rootOf := by rw [rootOf, rootOf, isAbsolute_descended h]
  rw [normalize, normalComponents_components, ofComponents, hroot, h, rise_append_names,
    climb_append, hnone, climb_names, List.append_nil, List.reverse_reverse, render_rootOf hsteps]

/-- **Trimming to two names leaves these two, and what hangs over if there are no others.** -/
theorem trim_two_names (h : q.components = p.components ++ [owner, name].map .name)
    (howner : IsName owner) (hname : IsName name) :
    (q.trim 2).text = p.overhang ++ (owner ++ "/" ++ name) := by
  have hnames : ∀ s ∈ [owner, name], IsName s := by
    simpa using ⟨howner, hname⟩
  have hlength : q.normalNames.length = (climb [] p.components).length + 2 := by
    rw [normalNames_descended h, List.length_append, normalNames_eq, List.length_reverse]
    rfl
  rw [overhang]
  split
  · -- With a name above it, the path has more than two, and the last two are owner and name.
    rename_i hmore
    have hpos := List.length_pos_iff.mpr hmore
    have hlast : q.lastNames 2 = [owner, name] := by
      have hlast : p.normalNames.length + [owner, name].length - 2 = p.normalNames.length :=
        Nat.add_sub_cancel _ _
      rw [lastNames, normalNames_descended h, List.length_append, hlast, List.drop_left]
    rw [trim_of_lt (by decide) (by omega), hlast, ← String.toList_inj, toList_ofNames hnames]
    simp [Text.join]
  · -- Without one nothing is cut off, and what stands in front of the names stays.
    rename_i hnone
    rw [not_not] at hnone
    rw [trim_of_all (.inr (by rw [hlength, hnone]; exact Nat.le_refl 2)),
      normalize_text_of_nameless h hnone hnames, ← String.toList_inj]
    rcases Nat.mod_two_eq_zero_or_one (rise p.components) with heven | hodd
    · simp [heven, Text.join, Component.text]
    · simp [hodd, Text.join, Component.text]

end Path

namespace CensusSettings

open Discovery

variable {settings : CensusSettings} {t : FileTree} {cs : List Candidate} {r : Remote}

/-- Candidates are found in the order of the roots, also where the discovery stops before the last. -/
theorem candidates_prefix_hits (h : settings.candidates t = .ok cs) : cs <+: settings.hits t := by
  rcases directories_or_firstInvalid t (settings.roots.map (·.1)) with hroots | ⟨before, root, hfirst⟩
  · rw [candidates_eq (List.forall_mem_map.mp hroots)] at h
    cases h
    exact Admission.cap_prefix _ _
  · rcases candidatesBelow_of_firstInvalid settings.admission hfirst with ⟨-, heq⟩ | ⟨-, heq⟩
    · cases h.symm.trans heq
    · cases h.symm.trans heq
      obtain ⟨after, hlisted⟩ := hfirst.listed
      rw [hits, hlisted, List.flatMap_append]
      exact (Admission.cap_prefix _ _).trans (List.prefix_append _ _)

/-- With remotes configured the hits are those below the clones, remote by remote. -/
theorem hits_of_remotes (h : settings.remotes ≠ []) : settings.hits t =
    settings.remotes.flatMap fun r =>
      hitsBelow t settings.admission (r.cloneDirectory settings.directory) := by
  have hroots : settings.roots.map (·.1) =
      settings.remotes.map (·.cloneDirectory settings.directory) := by
    rw [roots]
    split
    · contradiction
    · rw [List.map_map]
      rfl
  rw [hits, hroots, List.flatMap_map]

/-- The name that is shown for a clone directory is a text, as those of the owner and the repository
are. -/
theorem repositoryName_cloneDirectory (h : r.Named) (root : Path) :
    repositoryName (r.cloneDirectory root) =
      root.overhang ++ (r.repository.owner ++ "/" ++ r.repository.name) := by
  have htrim := Path.trim_two_names (h.components root) (Path.isName_toBytes.mpr h.1)
    (Path.isName_toBytes.mpr h.2)
  have hslash : Text.toBytes "/" = "/" := Text.toBytes_of_ascii (by decide)
  have hbytes : root.overhang ++
        (Text.toBytes r.repository.owner ++ "/" ++ Text.toBytes r.repository.name) =
      Text.toBytes (root.overhang ++ (r.repository.owner ++ "/" ++ r.repository.name)) := by
    rw [Text.toBytes_append, Text.toBytes_append, Text.toBytes_append, Path.toBytes_overhang, hslash]
  rw [repositoryName, Path.shown, htrim, hbytes, Text.ofBytes_toBytes]

theorem repository_of_mem_hitsBelow {a : Admission} {root : Path} {c : Candidate}
    (h : c ∈ hitsBelow t a root) : c.repository = repositoryName root := by
  obtain ⟨p, -, rfl⟩ := List.mem_map.mp h
  rfl

/-- **Every candidate carries the repository of the remote below whose clone directory it was found**,
with what hangs over from the root directory in front. Nothing hangs over if and only if that directory
keeps a name, or is relative with an even number of steps up. The files of an index carry what their
candidates carry. -/
theorem repository_of_candidates (h : settings.candidates t = .ok cs)
    (hremotes : settings.remotes ≠ []) :
    (cs <+: settings.remotes.flatMap fun r =>
      hitsBelow t settings.admission (r.cloneDirectory settings.directory)) ∧
    (∀ r ∈ settings.remotes, r.Named →
      ∀ c ∈ hitsBelow t settings.admission (r.cloneDirectory settings.directory),
        c.repository = settings.directory.overhang ++
          (r.repository.owner ++ "/" ++ r.repository.name) ∧
        (c.repository = r.repository.owner ++ "/" ++ r.repository.name ↔
          Path.climb [] settings.directory.components ≠ [] ∨
            settings.directory.isAbsolute = false ∧
              Path.rise settings.directory.components % 2 = 0)) ∧
    ∀ oracle, ∀ file ∈ (Scan.ofCandidates t oracle settings.blocked cs).index.files.values,
      ∃ c ∈ cs, file.repository = some c.repository := by
  refine ⟨?_, fun r _ hnamed c hc => ?_, fun oracle file hfile => ?_⟩
  · rw [← hits_of_remotes hremotes]
    exact candidates_prefix_hits h
  · have hcarried := (repository_of_mem_hitsBelow hc).trans
      (repositoryName_cloneDirectory hnamed settings.directory)
    refine ⟨hcarried, ?_⟩
    rw [hcarried, String.append_eq_right_iff]
    exact Path.overhang_eq_empty_iff
  · obtain ⟨c, hc, found, -, rfl⟩ := Scan.load_of_mem_files hfile
    exact ⟨c, hc, rfl⟩

/-- Two repositories below a root directory with a name. -/
theorem repository_shelvesTree :
    (shelvesSettings ["r", "s"] 3).candidates shelvesTree =
      .ok [⟨⟨"/c/o/r/x.essence"⟩, "o/r"⟩, ⟨⟨"/c/o/r/y.essence"⟩, "o/r"⟩,
        ⟨⟨"/c/o/s/z.essence"⟩, "o/s"⟩] ∧
    ∀ c ∈ hitsBelow shelvesTree (shelvesSettings ["r", "s"] 3).admission
        (Remote.cloneDirectory ⟨"o/s", "master", ⟨"o", "s"⟩⟩ ⟨"/c"⟩),
      c.repository = "o" ++ "/" ++ "s" := by
  have hfound : (shelvesSettings ["r", "s"] 3).candidates shelvesTree =
      .ok [⟨⟨"/c/o/r/x.essence"⟩, "o/r"⟩, ⟨⟨"/c/o/r/y.essence"⟩, "o/r"⟩,
        ⟨⟨"/c/o/s/z.essence"⟩, "o/s"⟩] := by decide +kernel
  obtain ⟨-, hcarried, -⟩ := repository_of_candidates hfound (by decide)
  refine ⟨hfound, fun c hc => ?_⟩
  have hright := (hcarried ⟨"o/s", "master", ⟨"o", "s"⟩⟩ (by decide +kernel)
    ⟨by decide +kernel, by decide +kernel⟩ c hc).2
  exact hright.mpr (.inl (by decide +kernel))

/-- The root itself as the root directory hangs over. -/
example : CensusSettings.candidates { shelvesSettings [] 1 with
      directory := ⟨"/"⟩, remotes := [⟨"c/o", "master", ⟨"c", "o"⟩⟩] } shelvesTree =
    .ok [⟨⟨"/c/o/r/x.essence"⟩, "/c/o"⟩] := by
  decide +kernel

end CensusSettings

end KeywordCensus
