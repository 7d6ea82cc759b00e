import KeywordCensus.Proofs.FileTree.Growth
import KeywordCensus.Proofs.FileTree.Missing
import KeywordCensus.Proofs.FileTree.Plain
import KeywordCensus.Proofs.FileTree.Walking
import KeywordCensus.Proofs.Path.Canonical

/-!
# Writing files

Making directories and writing files leaves everything where it is: all that changes is the content
of files, and all that is new is directories and files with what was written (`FileTree.WritesTo`).
Making directories is the case in which nothing was written (`FileTree.writes_makeDirectories`), and a
file is written at one place (`FileTree.overwrites_writeBytes`).
-/

namespace KeywordCensus

namespace Node

variable {change : Option Node → Option Node} {place : Location}

/-- A change to a tidy node, at a place that is given by names, leaves it tidy. -/
theorem Tidy.alter (hchange : ∀ node?, (∀ node ∈ node?, node.Tidy) → ∀ node ∈ change node?, node.Tidy)
    (hnames : ∀ name ∈ place, Path.IsName name) : ∀ node? : Option Node,
    (∀ node ∈ node?, node.Tidy) → ∀ node ∈ Node.alter change place node?, node.Tidy := by
  induction place with
  | nil => exact hchange
  | cons name rest ih =>
    obtain ⟨hname, hrest⟩ := List.forall_mem_cons.mp hnames
    intro node? htidy
    rcases directory_or_not node? with ⟨entries, rfl⟩ | hnot
    · cases htidy _ rfl with
      | directory hincrease hnamed hinner =>
        have hentry := ih hrest (Entries.get? name entries) fun child hchild =>
          hinner _ (Entries.mem_of_get? hchild)
        rw [Node.alter]
        split
        · rintro node ⟨⟩
          -- The entry is taken away; the others are as before.
          have hkept {e : String × Node} (he : e ∈ removeEntry name entries) : e ∈ entries :=
            (List.mem_filter.mp he).1
          exact .directory (hincrease.sublist List.filter_sublist) (fun e he => hnamed e (hkept he))
            fun e he => hinner e (hkept he)
        · rename_i child hchild
          rintro node ⟨⟩
          refine .directory (Entries.keysIncrease_insert name child hincrease) ?_ ?_
          · intro e he
            rcases Entries.mem_insert he with rfl | he
            · exact hname
            · exact hnamed e he
          · intro e he
            rcases Entries.mem_insert he with rfl | he
            · exact hentry child hchild
            · exact hinner e he
    · rw [alter_of_not_directory hnot]
      exact htidy

end Node

namespace FileTree

open FileAction

variable {t t' t'' : FileTree} {p root : Path} {place outer directory found : Location}
  {name : String} {names : Location} {node : Node} {bytes : ByteArray}
  {written written' : Location → ByteArray → Prop}

/-- A tidy tree stays tidy where tidy things are put. -/
theorem tidy_alter {change : Option Node → Option Node} (htidy : t.root.Tidy)
    (hnames : ∀ name ∈ place, Path.IsName name)
    (hchange : ∀ node?, (∀ node ∈ node?, node.Tidy) → ∀ node ∈ change node?, node.Tidy) :
    (t.alter place change).root.Tidy := by
  have halter := Node.Tidy.alter hchange hnames (some t.root) fun node hnode => by
    cases hnode
    exact htidy
  rw [alter]
  cases hroot : Node.alter change place (some t.root) with
  | none => exact .directory List.Pairwise.nil (List.forall_mem_nil _) (List.forall_mem_nil _)
  | some root => exact halter root hroot

/-! ## What a tree has after writing -/

/-- Does a tree have what another one has, up to the content of files, and nothing new but directories
and files with what was written? -/
structure WritesTo (written : Location → ByteArray → Prop) (t t' : FileTree) : Prop where
  workDir : t'.workDir = t.workDir
  /-- Whatever was there is still there, a file perhaps with another content. -/
  kept : ∀ place node, t.shell? place = some node → t'.shell? place = some node ∨
    ∃ old new mode, node = .file old mode ∧ t'.shell? place = some (.file new mode)
  /-- What is new, or new in content, was written. -/
  known : ∀ place node, t'.shell? place = some node → node ≠ .directory [] →
    t.shell? place = some node ∨ ∃ new mode, node = .file new mode ∧ written place new ∧
      ((t.shell? place = none ∧ mode = newFileMode) ∨ ∃ old, t.shell? place = some (.file old mode))
  /-- Directories go on listing names of entries in order. -/
  tidy : t.root.Tidy → t'.root.Tidy

theorem writesTo_refl (t : FileTree) : t.WritesTo written t :=
  ⟨rfl, fun _ _ h => .inl h, fun _ _ h _ => .inl h, id⟩

theorem WritesTo.imp (h : t.WritesTo written t')
    (himp : ∀ place bytes, written place bytes → written' place bytes) :
    t.WritesTo written' t' := by
  refine ⟨h.workDir, h.kept, fun place node hnode hne => ?_, h.tidy⟩
  rcases h.known place node hnode hne with hold | ⟨new, mode, hfile, hnew, hbefore⟩
  · exact .inl hold
  · exact .inr ⟨new, mode, hfile, himp place new hnew, hbefore⟩

/-- Files that change their content do not get in the way. -/
theorem keepsWays_of_kept (hworkDir : t'.workDir = t.workDir)
    (hkept : ∀ place node, t.shell? place = some node → t'.shell? place = some node ∨
      ∃ old new mode, node = .file old mode ∧ t'.shell? place = some (.file new mode)) :
    t.KeepsWays t' := by
  refine ⟨hworkDir, fun here node hnode => ?_⟩
  rcases hkept here node hnode with hkept | ⟨old, new, mode, rfl, hfile⟩
  · exact ⟨node, hkept, node.kindOf_refl⟩
  · exact ⟨_, hfile, rfl, rfl, fun _ => iff_of_false nofun nofun⟩

theorem WritesTo.keepsWays (h : t.WritesTo written t') : t.KeepsWays t' :=
  keepsWays_of_kept h.workDir h.kept

/-- A file is still a file with the same permissions. -/
theorem WritesTo.kept_file (h : t.WritesTo written t') {bytes : ByteArray} {mode : Nat}
    (hnode : t.shell? place = some (.file bytes mode)) :
    ∃ new, t'.shell? place = some (.file new mode) := by
  rcases h.kept place _ hnode with hkept | ⟨old, new, mode', hfile, hnew⟩
  · exact ⟨bytes, hkept⟩
  · cases hfile
    exact ⟨new, hnew⟩

/-- No link is new. -/
theorem WritesTo.known_link (h : t.WritesTo written t') {target : String}
    (hlink : t'.shell? place = some (.link target)) : t.shell? place = some (.link target) := by
  rcases h.known place _ hlink Node.link_ne_directory with hold | ⟨_, _, hfile, _⟩
  · exact hold
  · cases hfile

/-- What is not there after writing was not there before. -/
theorem WritesTo.absent (h : t.WritesTo written t') (hnone : t'.shell? place = none) :
    t.shell? place = none := by
  cases hnode : t.shell? place with
  | none => rfl
  | some node =>
    rcases h.kept place node hnode with hkept | ⟨_, _, _, _, hkept⟩
    · cases hnone.symm.trans hkept
    · cases hnone.symm.trans hkept

theorem WritesTo.trans (h : t.WritesTo written t') (h' : t'.WritesTo written t'') :
    t.WritesTo written t'' := by
  refine ⟨h'.workDir.trans h.workDir, fun place node hnode => ?_, fun place node hnode hne => ?_,
    fun htidy => h'.tidy (h.tidy htidy)⟩
  · rcases h.kept place node hnode with hkept | ⟨old, new, mode, rfl, hfile⟩
    · exact h'.kept place node hkept
    · obtain ⟨newest, hnewest⟩ := h'.kept_file hfile
      exact .inr ⟨old, newest, mode, rfl, hnewest⟩
  · rcases h'.known place node hnode hne with hold | ⟨new, mode, rfl, hwritten, hbefore⟩
    · exact h.known place node hold hne
    · refine .inr ⟨new, mode, rfl, hwritten, ?_⟩
      -- What stood there when it was written had been there before, or had been written itself.
      rcases hbefore with ⟨hnone, hmode⟩ | ⟨old, hfile⟩
      · exact .inl ⟨h.absent hnone, hmode⟩
      · rcases h.known place _ hfile Node.file_ne_directory with hold | ⟨_, _, hsame, _, hbefore⟩
        · exact .inr ⟨old, hold⟩
        · cases hsame
          exact hbefore

/-- Where a tree grows, nothing is written over. -/
theorem GrowsTo.writes (h : t.GrowsTo t') (htidy : t.root.Tidy → t'.root.Tidy) :
    t.WritesTo written t' :=
  ⟨h.extends_.workDir, fun place node hnode => .inl (h.extends_.kept place node hnode),
    fun place node hnode hne => .inl (h.clears.known place node hnode hne), htidy⟩

/-! ## Making directories -/

/-- The names of a path before the last one lead to a directory. -/
theorem parentPlaceIn_eq_ok (h : t.parentPlaceIn directory p = .ok (outer, some name)) :
    p.text ≠ "" ∧ ∃ before here, p.segments = before ++ [name] ∧
      t.Follows (linkLimit + 1) (startIn directory p) before outer ∧
      t.shell? outer = some here ∧ here.isDirectory = true := by
  rw [parentPlaceIn] at h
  split at h
  · cases h
  rename_i hempty
  split at h
  · cases h
  rename_i last before hreversed
  have hsegments : p.segments = before.reverse ++ [last] := by
    rw [← List.reverse_reverse p.segments, hreversed, List.reverse_cons]
  split at h
  · rename_i found hfound
    cases h
    -- The last segment was exchanged for a step that stays, so the way before it ends where the
    -- whole does.
    obtain ⟨middle, rest, hbefore, hlast⟩ := (followWithin_eq_present.mp hfound).split
    cases hlast.of_stay (.inr rfl)
    obtain ⟨here, hhere, hdirectory⟩ := hlast.inside (List.cons_ne_nil _ _)
    exact ⟨fun htext => hempty (String.isEmpty_iff.mpr htext), before.reverse, here, hsegments,
      hbefore, hhere, hdirectory⟩
  · cases h
  · cases h

/-- The last name of a path is met at a place that is given by names. -/
theorem named_of_parentPlaceIn (hdirectory : ∀ name ∈ directory, Path.IsName name)
    (h : t.parentPlaceIn directory p = .ok (outer, some name)) (hstep : isStep name = false) :
    ∀ other ∈ outer ++ [name], Path.IsName other := by
  obtain ⟨-, before, -, hsegments, hfollows, -, -⟩ := parentPlaceIn_eq_ok h
  have hmem {segment : String} (h : segment ∈ before ++ [name]) :
      segment ≠ "" ∧ '/' ∉ segment.toList := Path.mem_segments (hsegments ▸ h)
  refine List.forall_mem_append.mpr ⟨?_, List.forall_mem_singleton.mpr ?_⟩
  · exact followWithin_keepsNames _ _ _ (startIn_named hdirectory p)
      (fun _ hs => (hmem (List.mem_append_left _ hs)).2) _ (followWithin_eq_present.mpr hfollows)
  · obtain ⟨hne, hslash⟩ := hmem (List.mem_append_right _ List.mem_cons_self)
    obtain ⟨hdot, hdots⟩ := isStep_eq_false.mp hstep
    exact ⟨hne, hdot, hdots, hslash⟩

theorem writesTo_makeDirectory (h : t.makeDirectory p = .ok t') : t.WritesTo written t' := by
  refine (growsTo_makeDirectory h).writes fun htidy => ?_
  obtain ⟨place, name, hparent, hstep, -, -, rfl⟩ := makeDirectory_eq_ok h
  refine tidy_alter htidy (named_of_parentPlaceIn t.workDir_named hparent hstep) ?_
  rintro node? - node ⟨⟩
  exact .directory List.Pairwise.nil (List.forall_mem_nil _) (List.forall_mem_nil _)

theorem writes_makeDirectories (p : Path) : Keeps (WritesTo written) (makeDirectories p) :=
  have hmake : ∀ {t t' : FileTree} {q : Path}, True → t.makeDirectory q = .ok t' →
      WritesTo written t t' := fun _ => writesTo_makeDirectory
  keeps_makeDirectoriesWith writesTo_refl WritesTo.trans (fun _ _ => trivial) hmake _ trivial

/-! ## Writing a file -/

theorem overwrite_eq_file (bytes : ByteArray) (node? : Option Node) :
    ∃ mode, overwrite bytes node? = some (.file bytes mode) := by
  unfold overwrite
  split
  · exact ⟨_, rfl⟩
  · exact ⟨_, rfl⟩

/-- A write goes to the place that the path leads to, or fails as the search for it does. -/
theorem on_writeBytes (p : Path) (bytes : ByteArray) (t : FileTree) :
    on (writeBytes p bytes) t = match t.placeToWrite p with
      | .ok place => (.ok (), t.alter place (overwrite bytes))
      | .error e => (.error e, t) := by
  rw [writeBytes, on_get_bind]
  cases t.placeToWrite p with
  | ok place => rfl
  | error e => rfl

/-- Bytes are written in a directory, at a name that is free or that of a file; the path leads to the
file that stands there afterwards. -/
theorem placeToWrite_eq_ok (h : t.placeToWrite p = .ok place) :
    ∃ outer name, place = outer ++ [name] ∧ t.shell? outer = some (.directory []) ∧
      (t.shell? place = none ∨ ∃ old mode, t.shell? place = some (.file old mode)) ∧
      ∀ t' bytes mode, t.KeepsWays t' → t'.shell? place = some (.file bytes mode) →
        t'.locate p true = .ok place := by
  rw [placeToWrite] at h
  -- The path leads to a file, or it ends at a free name.
  split at h
  · rename_i found hresolve
    split at h
    · rename_i old mode hfile
      cases h
      have hlocate : t.locate p true = .ok place := by rw [locate, hresolve]
      have hshell : t.shell? place = some (.file old mode) := by
        rw [shell?, hfile]
        rfl
      obtain ⟨outer, name, rfl⟩ := entry_of_locate_file hlocate hshell
      exact ⟨outer, name, rfl, directory_of_entry (at?_ne_none hshell), .inr ⟨old, mode, hshell⟩,
        fun t' _ _ ht _ => ht.locate hlocate⟩
    · cases h
  · rename_i outer name hresolve
    split at h
    · rename_i entries hentries
      cases h
      rw [resolve] at hresolve
      split at hresolve
      · cases hresolve
      rename_i hempty
      -- A free name is found again once a file is there, and no link can stand in the way of that.
      obtain ⟨hfree, hfollows⟩ := misses_of_followWithin hresolve
      refine ⟨outer, name, rfl, shell?_eq_directory.mpr ⟨entries, hentries⟩,
        .inl (shell?_eq_none.mpr hfree), fun t' bytes mode ht hnew => locate_eq_ok.mpr ⟨?_, ?_⟩⟩
      · exact fun htext => hempty (String.isEmpty_iff.mpr htext)
      · rw [ht.workDir]
        exact hfollows t' _ ht hnew fun _ hlink => by cases hlink
    · cases h
  · cases h

/-- What has been written stands there, with the permissions of the file that was there. -/
theorem shell?_overwrite (bytes : ByteArray) (hdirectory : t.shell? outer = some (.directory []))
    (hplace : t.shell? (outer ++ [name]) = none ∨
      ∃ old mode, t.shell? (outer ++ [name]) = some (.file old mode)) :
    ∃ mode, (t.alter (outer ++ [name]) (overwrite bytes)).shell? (outer ++ [name]) =
        some (.file bytes mode) ∧
      ((t.shell? (outer ++ [name]) = none ∧ mode = newFileMode) ∨
        ∃ old, t.shell? (outer ++ [name]) = some (.file old mode)) := by
  rcases hplace with hnone | ⟨old, mode, hfile⟩
  · refine ⟨newFileMode, ?_, .inl ⟨hnone, rfl⟩⟩
    rw [shell?, at?_alter_self hdirectory, shell?_eq_none.mp hnone]
    rfl
  · refine ⟨mode, ?_, .inr ⟨old, hfile⟩⟩
    rw [shell?, at?_alter_self hdirectory, at?_of_shell? hfile Node.file_ne_directory]
    rfl

/-- Below a place without a directory there is nothing. -/
theorem eq_of_not_directory {other : Location} (hnot : t.shell? place ≠ some (.directory []))
    (hbelow : place <+: other) (hother : t.at? other ≠ none) : place = other := by
  by_contra hne
  exact hnot (directory_above hbelow hne hother)

/-- Is a tree another one with bytes written at a place, where nothing or a file stood before? -/
structure Overwrites (t : FileTree) (place : Location) (bytes : ByteArray) (t' : FileTree) :
    Prop where
  workDir : t'.workDir = t.workDir
  /-- A file that was there keeps its permissions. -/
  file : ∃ mode, t'.shell? place = some (.file bytes mode) ∧
    ((t.shell? place = none ∧ mode = newFileMode) ∨ ∃ old, t.shell? place = some (.file old mode))
  /-- Everything else is as it was. -/
  apart : ∀ other, other ≠ place → t'.shell? other = t.shell? other

/-- Writing where nothing or a file stands in a directory changes what stands there, and nothing
else. -/
theorem overwrites_alter (bytes : ByteArray) (hdirectory : t.shell? outer = some (.directory []))
    (hplace : t.shell? (outer ++ [name]) = none ∨
      ∃ old mode, t.shell? (outer ++ [name]) = some (.file old mode)) :
    t.Overwrites (outer ++ [name]) bytes (t.alter (outer ++ [name]) (overwrite bytes)) := by
  have hfile := shell?_overwrite bytes hdirectory hplace
  refine ⟨rfl, hfile, fun other hne => ?_⟩
  by_cases hbelow : outer ++ [name] <+: other
  · -- Neither what stood there nor the file has anything below it.
    obtain ⟨mode, hnew, -⟩ := hfile
    have hleaf : t.shell? (outer ++ [name]) ≠ some (.directory []) := by
      rcases hplace with hnone | ⟨old, mode, hold⟩
      · simp [hnone]
      · simp [hold]
    have hleaf' : (t.alter (outer ++ [name]) (overwrite bytes)).shell? (outer ++ [name]) ≠
        some (.directory []) := by simp [hnew]
    have hnone : t.shell? other = none := shell?_eq_none.mpr <|
      by_contra fun hother => hne (eq_of_not_directory hleaf hbelow hother).symm
    have hnone' : (t.alter (outer ++ [name]) (overwrite bytes)).shell? other = none :=
      shell?_eq_none.mpr <|
        by_contra fun hother => hne (eq_of_not_directory hleaf' hbelow hother).symm
    rw [hnone, hnone']
  · exact shell?_alter hbelow

/-- Where a file is written over, only bytes of files change. -/
theorem Overwrites.kept (h : t.Overwrites place bytes t') (other : Location) (node : Node)
    (hnode : t.shell? other = some node) : t'.shell? other = some node ∨
      ∃ old new mode, node = .file old mode ∧ t'.shell? other = some (.file new mode) := by
  by_cases hother : other = place
  · subst hother
    obtain ⟨mode, hnew, ⟨hnone, -⟩ | ⟨old, hold⟩⟩ := h.file
    · cases hnode.symm.trans hnone
    · cases hnode.symm.trans hold
      exact .inr ⟨old, bytes, mode, rfl, hnew⟩
  · exact .inl ((h.apart other hother).trans hnode)

/-- Writing over one file writes nothing else. -/
theorem Overwrites.writes (h : t.Overwrites place bytes t')
    (htidy : t.root.Tidy → t'.root.Tidy) :
    t.WritesTo (fun other new => other = place ∧ new = bytes) t' := by
  refine ⟨h.workDir, h.kept, fun other node hnode _ => ?_, htidy⟩
  by_cases hother : other = place
  · subst hother
    obtain ⟨mode, hnew, hbefore⟩ := h.file
    cases hnode.symm.trans hnew
    exact .inr ⟨bytes, mode, rfl, ⟨rfl, rfl⟩, hbefore⟩
  · exact .inl ((h.apart other hother).symm.trans hnode)

theorem tidy_overwrite (hnames : ∀ name ∈ place, Path.IsName name) (htidy : t.root.Tidy) :
    (t.alter place (overwrite bytes)).root.Tidy := by
  refine tidy_alter htidy hnames ?_
  rintro node? - node hnode
  obtain ⟨mode, hfile⟩ := overwrite_eq_file bytes node?
  cases hfile.symm.trans hnode
  exact .file bytes mode

/-- A file that cannot be written changes nothing. -/
theorem writeBytes_eq_error {e : IoError} (h : on (writeBytes p bytes) t = (.error e, t')) :
    t' = t := by
  rw [on_writeBytes] at h
  split at h
  · cases h
  · cases h
    rfl

/-- Where a file can be written, the path leads to it when it has been written. -/
theorem overwrites_of_placeToWrite (h : t.placeToWrite p = .ok place) (bytes : ByteArray) :
    (t.alter place (overwrite bytes)).locate p true = .ok place ∧
      t.Overwrites place bytes (t.alter place (overwrite bytes)) ∧
      (t.root.Tidy → (t.alter place (overwrite bytes)).root.Tidy) := by
  obtain ⟨outer, name, rfl, hdirectory, hfree, hleads⟩ := placeToWrite_eq_ok h
  have hover := overwrites_alter bytes hdirectory hfree
  obtain ⟨mode, hnew, -⟩ := hover.file
  have hways : t.KeepsWays (t.alter (outer ++ [name]) (overwrite bytes)) :=
    keepsWays_of_kept rfl hover.kept
  have hlocate := hleads _ bytes mode hways hnew
  exact ⟨hlocate, hover, tidy_overwrite (locate_named hlocate)⟩

/-- **A file that is written is written at one place**, to which the path leads afterwards. -/
theorem overwrites_writeBytes (h : on (writeBytes p bytes) t = (.ok (), t')) :
    ∃ place, t'.locate p true = .ok place ∧ t.Overwrites place bytes t' ∧
      (t.root.Tidy → t'.root.Tidy) := by
  rw [on_writeBytes] at h
  split at h
  · rename_i place hplace
    cases h
    exact ⟨place, overwrites_of_placeToWrite hplace bytes⟩
  · cases h

end FileTree

end KeywordCensus
