import KeywordCensus.Corpus.Specification
import KeywordCensus.Proofs.FileTree.Plain
import KeywordCensus.Proofs.FileTree.Walking

/-!
# Canonical paths of files

The path of a place leads there, if that is the place of a file (`FileTree.locate_pathOf`). So the
file below a directory that any path leads to has a canonical path, and it is found there again
(`FileTree.Below.canonical`).
-/

namespace KeywordCensus

namespace Path

variable {place : Location}

/-- The parts of the path of a place are what stands before the first slash, which is nothing, and
the names. -/
theorem splitOn_pathOf (h : ∀ name ∈ place, IsName name) (hne : place ≠ []) :
    Text.splitOn '/' (FileTree.pathOf place).text.toList = [] :: place.map String.toList := by
  rw [toList_pathOf, Text.splitOn, if_pos rfl, Text.splitOn_join]
  · exact fun heq => hne (List.map_eq_nil_iff.mp heq)
  · exact List.forall_mem_map.mpr fun name hname => (h name hname).2.2.2

/-- The segments of the path of a place are its names. -/
theorem segments_pathOf (h : ∀ name ∈ place, IsName name) (hne : place ≠ []) :
    (FileTree.pathOf place).segments = place := by
  have hkept : (place.map String.toList).filter (· ≠ []) = place.map String.toList := by
    refine List.filter_eq_self.mpr (List.forall_mem_map.mpr fun name hname => ?_)
    exact decide_eq_true fun hnil => (h name hname).1 (String.toList_eq_nil_iff.mp hnil)
  rw [segments, splitOn_pathOf h hne, List.filter_cons_of_neg (by decide), hkept, List.map_map]
  exact (List.map_congr_left fun name _ => String.ofList_toList).trans (List.map_id place)

/-- The path of a place other than the root does not end with a slash. -/
theorem trail_pathOf (h : ∀ name ∈ place, IsName name) (hne : place ≠ []) :
    (FileTree.pathOf place).trail = place := by
  have hslash : ¬ (FileTree.pathOf place).endsWithSlash = true := by
    intro hslash
    obtain ⟨before, hbefore⟩ := List.getLast?_eq_some_iff.mp (of_decide_eq_true hslash)
    have hparts := splitOn_pathOf h hne
    rw [hbefore, Text.splitOn_append_sep] at hparts
    -- The last part would be nothing, but it is a name.
    have hlast := congrArg List.getLast? hparts
    obtain ⟨names, last, rfl⟩ := (List.eq_nil_or_concat place).resolve_left hne
    rw [List.concat_eq_append] at h hlast
    rw [List.map_append, ← List.cons_append, List.getLast?_append, List.getLast?_append] at hlast
    have hname : last.toList = [] := (Option.some.inj hlast).symm
    exact (h last (List.mem_append_right _ (List.mem_singleton_self last))).1
      (String.toList_eq_nil_iff.mp hname)
  rw [trail, if_neg hslash, segments_pathOf h hne]

/-- The path of a place names what its last name does. -/
theorem fileName?_pathOf (h : ∀ name ∈ place, IsName name) :
    (FileTree.pathOf place).fileName? = place.getLast? := by
  rw [fileName?, components_pathOf h]
  cases hlast : place.getLast? with
  | none =>
    rw [List.getLast?_eq_none_iff.mp hlast]
    rfl
  | some name =>
    obtain ⟨before, rfl⟩ := List.getLast?_eq_some_iff.mp hlast
    rw [List.map_append, ← List.cons_append, List.getLast?_append]
    rfl

end Path

namespace FileTree

variable {t : FileTree} {root p : Path} {place names : Location} {node : Node}

/-- **The path of a place leads to what stands there**, unless that is a link. -/
theorem locate_pathOf (h : ∀ name ∈ place, Path.IsName name) (hne : place ≠ [])
    (hnode : t.shell? place = some node) (hnotlink : ∀ target, node ≠ .link target) :
    t.locate (pathOf place) true = .ok place := by
  refine locate_eq_ok.mpr ⟨?_, ?_⟩
  · intro hempty
    have habsolute := Path.splitOn_pathOf h hne
    rw [hempty] at habsolute
    exact hne (List.map_eq_nil_iff.mp (List.cons.inj habsolute).2.symm)
  · have hstart : startIn t.workDir (pathOf place) = [] := if_pos (Path.isAbsolute_pathOf place)
    rw [hstart, Path.trail_pathOf h hne]
    exact follows_names h hnode hnotlink

/-- **A file below a directory has a canonical path**, whatever path the directory is given by. -/
theorem Below.canonical (h : t.Below root p names) (hp : p.isEssence = true) :
    ∃ file, t.canonicalize p = .ok file ∧ Specification.canonicalPath? t p = some file := by
  obtain ⟨top, bytes, mode, -, hplace, hfile⟩ := h.found
  have hnamed := locate_named hplace
  have hne : top ++ names ≠ [] := List.append_ne_nil_of_right_ne_nil top h.inner
  have hcanonical : t.canonicalize p = .ok (pathOf (top ++ names)) := by
    rw [canonicalize, hplace]
    rfl
  have hshell : t.shell? (top ++ names) = some (.file bytes mode) := by
    rw [shell?, hfile]
    rfl
  have hlocate := locate_pathOf hnamed hne hshell fun _ hlink => by cases hlink
  have hregular : t.isFile (pathOf (top ++ names)) = true := by
    rw [isFile, lookup_eq_ok.mpr ⟨_, hlocate, hfile⟩]
    rfl
  have hname : (pathOf (top ++ names)).fileName? = p.fileName? := by
    rw [Path.fileName?_pathOf hnamed, h.fileName?, List.getLast?_append,
      List.getLast?_eq_some_getLast h.inner]
    rfl
  have hessence : (pathOf (top ++ names)).isEssence = true := by
    rw [Path.isEssence, Path.extension?, hname]
    exact hp
  refine ⟨_, hcanonical, ?_⟩
  rw [Specification.canonicalPath?, hcanonical]
  simp only [hregular, hessence, Bool.and_self, if_true]

/-- A file that is out of reach has none. -/
theorem OutOfReach.canonicalPath?_eq (h : t.OutOfReach root p names) :
    t.canonicalize p = .error .permissionDenied ∧ Specification.canonicalPath? t p = none := by
  have hcanonical : t.canonicalize p = .error .permissionDenied := by
    rw [canonicalize, h.locate_eq]
    rfl
  exact ⟨hcanonical, by rw [Specification.canonicalPath?, hcanonical]⟩

end FileTree

end KeywordCensus
