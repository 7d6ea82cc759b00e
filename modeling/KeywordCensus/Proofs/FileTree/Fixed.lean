import KeywordCensus.Proofs.FileTree.Writing

/-!
# Paths after writing

Writing leaves everything where it is, so a path that leads somewhere goes on leading there
(`FileTree.locate_writes`), and what is below a directory stays below it (`FileTree.Below.writes`).

A path that leads nowhere may come to lead somewhere. `FileTree.Fixed` says that only one place comes
into question for that, and that the path leads there already if it is a directory. A file that comes
to be below such a path is a new one (`FileTree.Below.of_not_isFile`), and what is written by names
below it comes to be there (`FileTree.below_of_writeBytes`).
-/

namespace KeywordCensus

namespace FileTree

open FileAction

variable {t t' : FileTree} {p root : Path} {place outer top directory found : Location}
  {name : String} {names : Location} {bytes : ByteArray}
  {written : Location → ByteArray → Prop}

/-! ## Where paths lead after writing -/

/-- **Where a path leads, it leads after writing.** -/
theorem locate_writes (ht : t.WritesTo written t') (h : t.locate p true = .ok found) :
    t'.locate p true = .ok found :=
  ht.keepsWays.locate h

/-- A file below a directory stays one when files are written. -/
theorem Below.writes (ht : t.WritesTo written t') (h : t.Below root p names) :
    t'.Below root p names := by
  obtain ⟨top, bytes, mode, htop, hfound, hfile⟩ := h.found
  have hshell : t.shell? (top ++ names) = some (.file bytes mode) := by
    rw [shell?, hfile]
    rfl
  obtain ⟨new, hnew⟩ := ht.kept_file hshell
  exact ⟨h.inner, h.named, h.spelled, top, new, mode, locate_writes ht htop, locate_writes ht hfound,
    at?_of_shell? hnew Node.file_ne_directory⟩

theorem isFile_eq_true : t.isFile p = true ↔
    ∃ place bytes mode, t.locate p true = .ok place ∧ t.at? place = some (.file bytes mode) := by
  constructor
  · intro h
    rw [isFile] at h
    split at h
    · rename_i node hnode
      obtain ⟨place, hplace, hat⟩ := lookup_eq_ok.mp hnode
      cases node with
      | file bytes mode => exact ⟨place, bytes, mode, hplace, hat⟩
      | directory => cases h
      | link => cases h
      | repository => cases h
      | closed => cases h
    · cases h
  · rintro ⟨place, bytes, mode, hplace, hat⟩
    rw [isFile, lookup_eq_ok.mpr ⟨place, hplace, hat⟩]
    rfl

/-- What is below a directory is a file. -/
theorem Below.isFile (h : t.Below root p names) : t.isFile p = true := by
  obtain ⟨top, bytes, mode, -, hfound, hfile⟩ := h.found
  exact isFile_eq_true.mpr ⟨_, bytes, mode, hfound, hfile⟩

/-- The last name of the path of an entry is met where the path itself leads to. -/
theorem parentPlace_child (hempty : p.text ≠ "") (hname : Path.IsName name) {last : String}
    (h : t.parentPlace (p.child name) = .ok (outer, some last)) :
    last = name ∧ t.locate p true = .ok outer ∧
      ∃ here, t.shell? outer = some here ∧ here.isDirectory = true := by
  obtain ⟨-, before, here, hsegments, hfollows, hhere, hdirectory⟩ := parentPlaceIn_eq_ok h
  rw [Path.segments_child hempty hname] at hsegments
  obtain ⟨rfl, hlast⟩ := List.append_inj' hsegments rfl
  rw [startIn, Path.isAbsolute_child hempty hname.2.2.2] at hfollows
  exact ⟨(List.singleton_inj.mp hlast).symm,
    locate_eq_ok.mpr ⟨hempty, hfollows.trail_of_segments hhere hdirectory⟩, here, hhere, hdirectory⟩

/-- What the path of an entry of an entry leads to, it leads there through the directory. -/
theorem locate_of_descend (hempty : root.text ≠ "") (hnames : ∀ name ∈ names, Path.IsName name)
    (h : t.locate (root.descend names) true = .ok found) :
    ∃ top, t.locate root true = .ok top := by
  induction names using List.reverseRecOn generalizing found with
  | nil => exact ⟨found, h⟩
  | append_singleton names name ih =>
    obtain ⟨hbefore, hname⟩ := List.forall_mem_append.mp hnames
    rw [Path.descend_concat] at h
    obtain ⟨place, -, hplace, -, -⟩ := locate_of_child (Path.text_descend_ne hempty hbefore)
      (List.forall_mem_singleton.mp hname) h
    exact ih hbefore hplace

/-- A file that is below a directory after writing was below it before, if it was a file. -/
theorem Below.of_isFile (ht : t.WritesTo written t') (h : t'.Below root p names)
    (hfile : t.isFile p = true) : t.Below root p names := by
  obtain ⟨top, new, mode, htop, hfound, -⟩ := h.found
  obtain ⟨place, bytes, mode, hplace, hat⟩ := isFile_eq_true.mp hfile
  obtain ⟨before, hbefore⟩ := locate_of_descend (locate_eq_ok.mp htop).1 h.named (h.spelled ▸ hplace)
  cases htop.symm.trans (locate_writes ht hbefore)
  cases hfound.symm.trans (locate_writes ht hplace)
  exact ⟨h.inner, h.named, h.spelled, top, bytes, mode, hbefore, hplace, hat⟩

/-! ## Paths that lead to one place only -/

/-- Does a path lead to a place or nowhere, whatever is written, and to that place if a directory
stands there? -/
structure Fixed (t : FileTree) (p : Path) (place : Location) : Prop where
  text : p.text ≠ ""
  leads : ∀ t', t.WritesTo (fun _ _ => True) t' → ∀ found, t'.locate p true = .ok found →
    found = place
  there : t.shell? place = some (.directory []) → t.locate p true = .ok place

/-- A name in a directory that a path leads to is fixed, unless a link stands there. -/
theorem fixed_child (hname : Path.IsName name) (h : t.locate p true = .ok directory)
    (hlink : ∀ target, t.shell? (directory ++ [name]) ≠ some (.link target)) :
    t.Fixed (p.child name) (directory ++ [name]) := by
  have hempty := (locate_eq_ok.mp h).1
  refine ⟨Path.text_child_ne hempty hname.2.2.2, fun t' ht found hfound => ?_, fun hthere => ?_⟩
  · obtain ⟨place, rest, hplace, hfollows, -⟩ := locate_of_child hempty hname hfound
    cases (locate_writes ht h).symm.trans hplace
    rcases hfollows.entry hname with heq | ⟨target, hnew⟩
    · exact heq
    · exact absurd (ht.known_link hnew) (hlink target)
  · exact locate_child hname h hthere fun _ => Node.directory_ne_link

/-- Does a fixed path name the entry at its place, whatever is written? -/
structure FixedEntry (t : FileTree) (p : Path) (place : Location) : Prop extends t.Fixed p place where
  entry : ∀ t', t.WritesTo (fun _ _ => True) t' → ∀ outer name,
    t'.parentPlace p = .ok (outer, some name) → outer ++ [name] = place

/-- The path of an entry leads to its own place for good, unless the entry is a link. -/
theorem fixedEntry_child (hname : Path.IsName name) (h : t.locate p true = .ok directory)
    (hlink : ∀ target, t.shell? (directory ++ [name]) ≠ some (.link target)) :
    t.FixedEntry (p.child name) (directory ++ [name]) := by
  refine ⟨fixed_child hname h hlink, fun t' ht outer last hparent => ?_⟩
  obtain ⟨rfl, hlocate, -⟩ := parentPlace_child (locate_eq_ok.mp h).1 hname hparent
  cases (locate_writes ht h).symm.trans hlocate
  rfl

/-- **A file that comes to be below a directory is a new one, with what was written there.** -/
theorem Below.of_not_isFile (ht : t.WritesTo written t') (hroot : t.Fixed root top)
    (h : t'.Below root p names) (hfile : t.isFile p = false) :
    t.at? (top ++ names) = none ∧ ∃ bytes, written (top ++ names) bytes ∧
      t'.at? (top ++ names) = some (.file bytes newFileMode) := by
  obtain ⟨found, bytes, mode, hfound, -, hat⟩ := h.found
  cases hroot.leads t' (ht.imp fun _ _ _ => trivial) found hfound
  -- Had there been a file before, the path would have led to it.
  have hold {old : ByteArray} {mode : Nat}
      (hold : t.shell? (top ++ names) = some (.file old mode)) : False := by
    have hdirectory := directory_above (List.prefix_append top names)
      (fun heq => h.inner (List.append_right_eq_self.mp heq.symm)) (at?_ne_none hold)
    have hbelow := locate_descend h.named (hroot.there hdirectory) hold fun _ hlink => by cases hlink
    rw [← h.spelled] at hbelow
    rw [isFile_eq_true.mpr ⟨_, old, mode, hbelow, at?_of_shell? hold Node.file_ne_directory⟩] at hfile
    cases hfile
  have hshell : t'.shell? (top ++ names) = some (.file bytes mode) := by
    rw [shell?, hat]
    rfl
  rcases ht.known _ _ hshell Node.file_ne_directory with
    hsame | ⟨new, mode', hnew, hwritten, ⟨hnone, rfl⟩ | ⟨old, hbefore⟩⟩
  · exact absurd hsame hold
  · cases hnew
    exact ⟨shell?_eq_none.mp hnone, bytes, hwritten, hat⟩
  · exact absurd hbefore hold

/-! ## Writing below a directory -/

/-- Are there only directories and files at a place and below it? -/
def OnlyFiles (t : FileTree) (top : Location) : Prop :=
  ∀ place node, top <+: place → t.shell? place = some node →
    node = .directory [] ∨ ∃ bytes mode, node = .file bytes mode

/-- Writing files leaves directories that hold no links without links. -/
theorem OnlyFiles.writes (ht : t.WritesTo written t') (h : t.OnlyFiles top) : t'.OnlyFiles top := by
  intro place node hbelow hnode
  by_cases hne : node = .directory []
  · exact .inl hne
  rcases ht.known place node hnode hne with hold | ⟨new, mode, hfile, -⟩
  · exact h place node hbelow hold
  · exact .inr ⟨new, mode, hfile⟩

theorem OnlyFiles.not_link (h : t.OnlyFiles top) (hbelow : top <+: place) (target : String) :
    t.shell? place ≠ some (.link target) := by
  intro hlink
  rcases h place _ hbelow hlink with hdirectory | ⟨_, _, hfile⟩
  · cases hdirectory
  · cases hfile

/-- Where no links are, the names below a directory lead to the place with these names. -/
theorem locate_descend_eq (hempty : root.text ≠ "") (honly : t.OnlyFiles top)
    (hleads : ∀ found, t.locate root true = .ok found → found = top)
    (hnames : ∀ name ∈ names, Path.IsName name)
    (h : t.locate (root.descend names) true = .ok found) : found = top ++ names := by
  -- From the end, as the parent of the last name is found first.
  induction names using List.reverseRecOn generalizing found with
  | nil =>
    rw [List.append_nil]
    exact hleads found h
  | append_singleton names name ih =>
    obtain ⟨hbefore, hname⟩ := List.forall_mem_append.mp hnames
    have hname := List.forall_mem_singleton.mp hname
    rw [Path.descend_concat] at h
    obtain ⟨place, rest, hplace, hfollows, -⟩ :=
      locate_of_child (Path.text_descend_ne hempty hbefore) hname h
    cases ih hbefore hplace
    rw [← List.append_assoc]
    -- Only a link could lead elsewhere, and there is none below.
    rcases hfollows.entry hname with heq | ⟨target, hlink⟩
    · exact heq
    · refine absurd hlink (honly.not_link ?_ target)
      rw [List.append_assoc]
      exact List.prefix_append top _

/-- **What is written by names below a directory comes to be below it.** -/
theorem below_of_writeBytes (hempty : root.text ≠ "") (honly : t'.OnlyFiles top)
    (hleads : ∀ found, t'.locate root true = .ok found → found = top)
    (hnames : ∀ other ∈ names, Path.IsName other) (hne : names ≠ [])
    (h : on (writeBytes (root.descend names) bytes) t = (.ok (), t')) :
    t'.Below root (root.descend names) names := by
  obtain ⟨place, hplace, hover, -⟩ := overwrites_writeBytes h
  obtain ⟨mode, hfile, -⟩ := hover.file
  obtain rfl := locate_descend_eq hempty honly hleads hnames hplace
  obtain ⟨found, hfound⟩ := locate_of_descend hempty hnames hplace
  cases hleads found hfound
  exact ⟨hne, hnames, rfl, top, bytes, mode, hfound, hplace,
    at?_of_shell? hfile Node.file_ne_directory⟩

end FileTree

end KeywordCensus
