import KeywordCensus.Proofs.FileTree.Following

/-!
# Paths to what is not there

A path may lead to a name that is free in a directory, through a link that leads nowhere as well
(`FileTree.Misses`). Once something other than a link stands there, the path leads to it, provided
that what was on the way is still on the way (`FileTree.KeepsWays`).
-/

namespace KeywordCensus

/-- Nothing stands between separators only. -/
theorem Text.eq_of_mem_join {sep : Char} {parts : List (List Char)} (h : ∀ part ∈ parts, part = []) :
    ∀ c ∈ join sep parts, c = sep := by
  induction parts with
  | nil => exact List.forall_mem_nil _
  | cons part rest ih =>
    obtain ⟨rfl, hrest⟩ := List.forall_mem_cons.mp h
    cases rest with
    | nil => exact List.forall_mem_nil _
    | cons next rest => exact List.forall_mem_cons.mpr ⟨rfl, ih hrest⟩

namespace Path

variable {p : Path}

/-- A path that is spelled at all has something to follow. -/
theorem trail_ne_nil (h : p.text ≠ "") : p.trail ≠ [] := by
  rw [trail]
  split
  · exact List.append_ne_nil_of_right_ne_nil _ (List.cons_ne_nil _ _)
  · rename_i hslash
    intro hnone
    refine hslash (decide_eq_true ?_)
    -- Without a name there are only slashes, the last character among them.
    have hparts : ∀ part ∈ Text.splitOn '/' p.text.toList, part = [] := by
      have hfilter := List.filter_eq_nil_iff.mp (List.map_eq_nil_iff.mp hnone)
      exact fun part hpart => Decidable.byContradiction fun hne =>
        hfilter part hpart (decide_eq_true hne)
    have hall : ∀ c ∈ Text.join '/' (Text.splitOn '/' p.text.toList), c = '/' :=
      Text.eq_of_mem_join hparts
    rw [Text.join_splitOn] at hall
    have hne : p.text.toList ≠ [] := fun hnil => h (String.toList_eq_nil_iff.mp hnil)
    rw [List.getLast?_eq_some_getLast hne, hall _ (List.getLast_mem hne)]

end Path

namespace FileTree

variable {t t' : FileTree} {k : Nat} {place found directory : Location} {segments : List String}
  {p : Path} {name : String}

/-- Does a tree have directories for directories, the same links for links and no others, wherever
another one has something? -/
structure KeepsWays (t t' : FileTree) : Prop where
  workDir : t'.workDir = t.workDir
  kept : ∀ here node, t.shell? here = some node → ∃ kept, t'.shell? here = some kept ∧
    node.KindOf kept

/-- Where a path leads, it leads in a tree that keeps the ways. -/
theorem KeepsWays.locate (ht : t.KeepsWays t') (h : t.locate p true = .ok found) :
    t'.locate p true = .ok found := by
  obtain ⟨hempty, hfollows⟩ := locate_eq_ok.mp h
  refine locate_eq_ok.mpr ⟨hempty, ?_⟩
  rw [ht.workDir]
  exact hfollows.of_kept ht.kept

theorem Extends.keepsWays (h : t.Extends t') : t.KeepsWays t' :=
  ⟨h.workDir, fun here node hnode => ⟨node, h.kept here node hnode, node.kindOf_refl⟩⟩

theorem KeepsWays.isDirectory (ht : t.KeepsWays t') {here : Node} (hhere : t.shell? place = some here)
    (hdirectory : here.isDirectory = true) :
    ∃ kept, t'.shell? place = some kept ∧ kept.isDirectory = true := by
  obtain ⟨kept, hkept, hkind⟩ := ht.kept place here hhere
  exact ⟨kept, hkept, hkind.isDirectory.trans hdirectory⟩

theorem KeepsWays.isOpen (ht : t.KeepsWays t') {here : Node} (hhere : t.shell? place = some here)
    (hopen : here.isOpen = true) : ∃ kept, t'.shell? place = some kept ∧ kept.isOpen = true := by
  obtain ⟨kept, hkept, hkind⟩ := ht.kept place here hhere
  exact ⟨kept, hkept, hkind.isOpen.trans hopen⟩

theorem KeepsWays.link (ht : t.KeepsWays t') {target : String}
    (hlink : t.shell? place = some (.link target)) : t'.shell? place = some (.link target) := by
  obtain ⟨kept, hkept, hkind⟩ := ht.kept place _ hlink
  rwa [(hkind.link target).mpr rfl] at hkept

theorem KeepsWays.other (ht : t.KeepsWays t') {node : Node} (hnode : t.shell? place = some node)
    (hnot : ∀ target, node ≠ .link target) :
    ∃ kept, t'.shell? place = some kept ∧ ∀ target, kept ≠ .link target := by
  obtain ⟨kept, hkept, hkind⟩ := ht.kept place node hnode
  exact ⟨kept, hkept, fun target hlink => hnot target ((hkind.link target).mp hlink)⟩

/-- Where there is a directory anywhere, there is one at the root. -/
theorem root_of_directory {here : Node} (h : t.shell? place = some here)
    (hdirectory : here.isDirectory = true) :
    ∃ root, t.shell? [] = some root ∧ root.isDirectory = true := by
  cases place with
  | nil => exact ⟨here, h, hdirectory⟩
  | cons name rest =>
    exact ⟨_, directory_above (List.nil_prefix) (List.cons_ne_nil name rest).symm (at?_ne_none h), rfl⟩

/-- A file that a path leads to is an entry of a directory. -/
theorem entry_of_locate_file {bytes : ByteArray} {mode : Nat} (h : t.locate p true = .ok place)
    (hfile : t.shell? place = some (.file bytes mode)) : ∃ outer name, place = outer ++ [name] := by
  rcases List.eq_nil_or_concat place with rfl | ⟨outer, name, rfl⟩
  · obtain ⟨hempty, hfollows⟩ := locate_eq_ok.mp h
    obtain ⟨here, hhere, hinside⟩ := hfollows.inside (Path.trail_ne_nil hempty)
    obtain ⟨root, hroot, hdirectory⟩ := root_of_directory hhere hinside
    cases hfile.symm.trans hroot
    cases hdirectory
  · exact ⟨outer, name, List.concat_eq_append⟩

/-- Do segments lead to a name that is free in a directory, and to what comes to stand there? -/
structure Misses (t : FileTree) (k : Nat) (place : Location) (segments : List String)
    (directory : Location) (name : String) : Prop where
  /-- The name is free. -/
  free : t.at? (directory ++ [name]) = none
  /-- What comes to stand there is led to, unless it is a link. -/
  follows : ∀ t' node, t.KeepsWays t' → t'.shell? (directory ++ [name]) = some node →
    (∀ target, node ≠ .link target) → t'.Follows k place segments (directory ++ [name])

/-! ## One segment more -/

section Step

variable {here node : Node} {segment target : String} {rest : List String}

/-- The search comes to the same end after a slash, -/
theorem Misses.slash (hhere : t.shell? place = some here) (hdirectory : here.isDirectory = true)
    (h : t.Misses k place rest directory name) : t.Misses k place ("" :: rest) directory name := by
  refine ⟨h.free, fun t' node ht hnode hnot => ?_⟩
  obtain ⟨kept, hkept, hsame⟩ := ht.isDirectory hhere hdirectory
  exact .slash hkept hsame (h.follows t' node ht hnode hnot)

/-- after a step to the current directory, -/
theorem Misses.stay (hhere : t.shell? place = some here) (hopen : here.isOpen = true)
    (h : t.Misses k place rest directory name) : t.Misses k place ("." :: rest) directory name := by
  refine ⟨h.free, fun t' node ht hnode hnot => ?_⟩
  obtain ⟨kept, hkept, hsame⟩ := ht.isOpen hhere hopen
  exact .stay hkept hsame (h.follows t' node ht hnode hnot)

/-- after a step up, -/
theorem Misses.up (hhere : t.shell? place = some here) (hopen : here.isOpen = true)
    (h : t.Misses k place.dropLast rest directory name) :
    t.Misses k place (".." :: rest) directory name := by
  refine ⟨h.free, fun t' node ht hnode hnot => ?_⟩
  obtain ⟨kept, hkept, hsame⟩ := ht.isOpen hhere hopen
  exact .up hkept hsame (h.follows t' node ht hnode hnot)

/-- after a name, -/
theorem Misses.down (hentry : IsEntry segment)
    (hnext : t.shell? (place ++ [segment]) = some node) (hnotlink : ∀ target, node ≠ .link target)
    (h : t.Misses k (place ++ [segment]) rest directory name) :
    t.Misses k place (segment :: rest) directory name := by
  refine ⟨h.free, fun t' last ht hlast hnot => ?_⟩
  obtain ⟨kept, hkept, hsame⟩ := ht.other hnext hnotlink
  exact .down hentry hkept hsame (h.follows t' last ht hlast hnot)

/-- and after a link. -/
theorem Misses.link (hentry : IsEntry segment)
    (hnext : t.shell? (place ++ [segment]) = some (.link target)) (hempty : target.isEmpty = false)
    (h : t.Misses k (startIn place ⟨target⟩) ((Path.mk target).trail ++ rest) directory name) :
    t.Misses (k + 1) place (segment :: rest) directory name :=
  ⟨h.free, fun t' last ht hlast hnot =>
    .link hentry (ht.link hnext) hempty (h.follows t' last ht hlast hnot)⟩

/-- The last name is the free one. -/
theorem misses_last (k : Nat) (hentry : IsEntry name)
    (hfree : t.at? (directory ++ [name]) = none) :
    t.Misses (k + 1) directory [name] directory name :=
  ⟨hfree, fun _ _ _ hnode hnot => .down hentry hnode hnot (.done k _)⟩

end Step

/-! ## The whole search -/

/-- Where the search ends at a free name, it misses that one, if it does so behind links. -/
theorem misses_of_followFrom {onLink : Location → List String → Except IoError Target}
    (hlink : ∀ place segments, onLink place segments = .ok (.absent directory name) →
      t.Misses k place segments directory name)
    (h : t.followFrom true onLink place segments = .ok (.absent directory name)) :
    t.Misses (k + 1) place segments directory name := by
  -- The tests come in the order of the search. With no segment left the end is a place.
  induction segments generalizing place with
  | nil =>
    rw [followFrom] at h
    cases h
  | cons segment rest ih =>
    rw [followFrom] at h
    split at h
    · cases h
    rename_i here hhere
    have hshell : t.shell? place = some here.shell := by
      rw [shell?, hhere]
      rfl
    split at h
    · cases h
    rename_i hdirectory
    rw [Bool.not_eq_true, Bool.not_eq_false', ← Node.shell_isDirectory] at hdirectory
    split at h
    · rename_i hslash
      subst hslash
      exact (ih h).slash hshell hdirectory
    rename_i hslash
    split at h
    · cases h
    rename_i hopen
    rw [Bool.not_eq_true, Bool.not_eq_false', ← Node.shell_isOpen] at hopen
    split at h
    · rename_i hdot
      subst hdot
      exact (ih h).stay hshell hopen
    rename_i hdot
    split at h
    · rename_i hdots
      subst hdots
      exact (ih h).up hshell hopen
    rename_i hdots
    have hentry : IsEntry segment := ⟨hslash, hdot, hdots⟩
    have hchild : t.at? (place ++ [segment]) = here.child? segment := by
      rw [at?_concat, hhere]
      rfl
    split at h
    · rename_i hnone
      split at h
      · rename_i hlast
        cases h
        -- This is the free name. Anywhere but at the end it is an error.
        rw [List.isEmpty_iff.mp hlast]
        exact misses_last k hentry (hchild.trans hnone)
      · cases h
    · rename_i target htarget
      rw [Bool.not_true, Bool.and_false, if_neg Bool.false_ne_true] at h
      split at h
      · cases h
      rename_i hempty
      have hnext : t.shell? (place ++ [segment]) = some (.link target) := by
        rw [shell?, hchild, htarget]
        rfl
      exact (hlink _ _ h).link hentry hnext (Bool.eq_false_iff.mpr hempty)
    · rename_i node hnotlink hnode
      have hnext : t.shell? (place ++ [segment]) = some node.shell := by
        rw [shell?, hchild, hnode]
        rfl
      -- Links were the case before.
      refine (ih h).down hentry hnext fun target htarget => ?_
      cases node with
      | link other => exact hnotlink other rfl
      | directory => cases htarget
      | file => cases htarget
      | repository => cases htarget
      | closed => cases htarget

/-- **A search that ends at a free name misses what may come to stand there.** -/
theorem misses_of_followWithin
    (h : t.followWithin true k place segments = .ok (.absent directory name)) :
    t.Misses k place segments directory name := by
  induction k generalizing place segments with
  | zero => cases h
  | succ k ih => exact misses_of_followFrom (fun _ _ hrest => ih hrest) h

end FileTree

end KeywordCensus
