import KeywordCensus.Proofs.FileTree.Shell
import KeywordCensus.Proofs.Path.Child

/-!
# Following paths, step by step

`FileTree.Follows` says where segments lead, one constructor for each kind of step, and
`followWithin_eq_present` that this is what the search finds. Read as a relation, following is easy
to reason about: it sees no more of a tree than shells, so it leads to the same place in every
tree that extends the first one (`Follows.mono`), and segments can be followed in two goes, whether
something is found (`Follows.split`) or not (`Follows.resume`). The search itself takes one step at a
time as well (`followFrom_slash` and those after it).

A path leads to a place for good (`FileTree.Leads`) if it does so even while the place is an empty
directory. What stands below the place may then change at will.
-/

namespace KeywordCensus

namespace FileTree

variable {t t' : FileTree} {k : Nat} {place found : Location} {segments : List String}
  {p : Path} {name : String}

/-- Is a segment looked up among the entries of a directory? -/
def IsEntry (segment : String) : Prop := segment ≠ "" ∧ segment ≠ "." ∧ segment ≠ ".."

theorem isEntry_of_isName (h : Path.IsName name) : IsEntry name := ⟨h.1, h.2.1, h.2.2.1⟩

/-- Where segments lead from a place, through fewer than so many links. -/
inductive Follows (t : FileTree) : Nat → Location → List String → Location → Prop
  /-- There is nothing to follow. -/
  | done (k : Nat) (place : Location) : Follows t (k + 1) place [] place
  /-- A slash at the end, which asks for a directory. -/
  | slash {k : Nat} {place found : Location} {here : Node} {rest : List String} :
      t.shell? place = some here → here.isDirectory = true → Follows t k place rest found →
      Follows t k place ("" :: rest) found
  /-- A step to the current directory. -/
  | stay {k : Nat} {place found : Location} {here : Node} {rest : List String} :
      t.shell? place = some here → here.isOpen = true → Follows t k place rest found →
      Follows t k place ("." :: rest) found
  /-- A step to the parent directory. -/
  | up {k : Nat} {place found : Location} {here : Node} {rest : List String} :
      t.shell? place = some here → here.isOpen = true →
      Follows t k place.dropLast rest found → Follows t k place (".." :: rest) found
  /-- A name of something other than a link. -/
  | down {k : Nat} {place found : Location} {segment : String} {node : Node}
      {rest : List String} :
      IsEntry segment → t.shell? (place ++ [segment]) = some node →
      (∀ target, node ≠ .link target) → Follows t k (place ++ [segment]) rest found →
      Follows t k place (segment :: rest) found
  /-- A name of a link. -/
  | link {k : Nat} {place found : Location} {segment target : String} {rest : List String} :
      IsEntry segment → t.shell? (place ++ [segment]) = some (.link target) →
      target.isEmpty = false →
      Follows t k (startIn place ⟨target⟩) ((Path.mk target).trail ++ rest) found →
      Follows t (k + 1) place (segment :: rest) found

theorem follows_of_followFrom {onLink : Location → List String → Except IoError Target}
    (hlink : ∀ place segments, onLink place segments = .ok (.present found) →
      t.Follows k place segments found)
    (h : t.followFrom true onLink place segments = .ok (.present found)) :
    t.Follows (k + 1) place segments found := by
  -- By induction on the segments, and for each of them the tests of the search, in their order.
  induction segments generalizing place with
  | nil =>
    rw [followFrom] at h
    cases h
    exact .done k _
  | cons segment rest ih =>
    rw [followFrom] at h
    split at h
    · cases h
    rename_i here hhere
    have hshell : t.shell? place = some here.shell := by
      rw [shell?, hhere]
      rfl
    split at h
    · cases h
    rename_i hdirectory
    rw [Bool.not_eq_true, Bool.not_eq_false', ← Node.shell_isDirectory] at hdirectory
    split at h
    · rename_i hslash
      subst hslash
      exact .slash hshell hdirectory (ih h)
    rename_i hslash
    split at h
    · cases h
    rename_i hopen
    rw [Bool.not_eq_true, Bool.not_eq_false', ← Node.shell_isOpen] at hopen
    split at h
    · rename_i hdot
      subst hdot
      exact .stay hshell hopen (ih h)
    rename_i hdot
    split at h
    · rename_i hdots
      subst hdots
      exact .up hshell hopen (ih h)
    rename_i hdots
    -- What is left is a name: it is free, a link, or something else that stands there.
    have hentry : IsEntry segment := ⟨hslash, hdot, hdots⟩
    have hchild : ∀ {node}, here.child? segment = some node →
        t.shell? (place ++ [segment]) = some node.shell := by
      intro node hnode
      rw [shell?, at?_concat, hhere]
      exact congrArg (Option.map Node.shell) hnode
    split at h
    · split at h <;> cases h
    · -- Every link is followed, a last one too.
      rename_i target htarget
      rw [Bool.not_true, Bool.and_false, if_neg Bool.false_ne_true] at h
      split at h
      · cases h
      · rename_i hempty
        exact .link hentry (hchild htarget) (Bool.eq_false_iff.mpr hempty) (hlink _ _ h)
    · rename_i node hnotlink hnode
      -- Links were the case before, so the shell of this entry is no link.
      refine .down hentry (hchild hnode) ?_ (ih h)
      intro target heq
      cases node with
      | link other => exact hnotlink other rfl
      | directory => cases heq
      | file => cases heq
      | repository => cases heq
      | closed => cases heq

/-- What stands at a name is an entry of the directory before it. -/
theorem child?_of_shell? {node : Node} (h : t.shell? (place ++ [name]) = some node) :
    ∃ here child, t.at? place = some here ∧ here.isOpen = true ∧
      here.child? name = some child ∧ child.shell = node := by
  obtain ⟨child, hchild, hshell⟩ := Option.map_eq_some_iff.mp h
  rw [at?_concat] at hchild
  obtain ⟨here, hhere, hentry⟩ := Option.bind_eq_some_iff.mp hchild
  refine ⟨here, child, hhere, ?_, hentry, hshell⟩
  rw [← Node.shell_isOpen, Node.shell_of_child? hentry]
  rfl

/-! ## One step of the search -/

section Step

variable {followLast : Bool} {onLink : Location → List String → Except IoError Target}
  {here : Node} {rest : List String}

/-- A slash at the end changes nothing if one is in a directory. -/
theorem followFrom_slash (hhere : t.shell? place = some here) (hdirectory : here.isDirectory = true) :
    t.followFrom followLast onLink place ("" :: rest) = t.followFrom followLast onLink place rest := by
  obtain ⟨node, hnode, rfl⟩ := Option.map_eq_some_iff.mp hhere
  rw [Node.shell_isDirectory] at hdirectory
  rw [followFrom, hnode]
  simp only [hdirectory, Bool.not_true, Bool.false_eq_true, if_false, if_true]

/-- A step to the current directory changes nothing if it may be entered. -/
theorem followFrom_stay (hhere : t.shell? place = some here) (hopen : here.isOpen = true) :
    t.followFrom followLast onLink place ("." :: rest) = t.followFrom followLast onLink place rest := by
  obtain ⟨node, hnode, rfl⟩ := Option.map_eq_some_iff.mp hhere
  rw [Node.shell_isOpen] at hopen
  have hslash : "." ≠ "" := by decide
  rw [followFrom, hnode]
  simp only [Node.isDirectory_of_isOpen hopen, hopen, hslash, Bool.not_true, Bool.false_eq_true,
    if_false, if_true]

/-- A step up leads to the parent directory. -/
theorem followFrom_up (hhere : t.shell? place = some here) (hopen : here.isOpen = true) :
    t.followFrom followLast onLink place (".." :: rest) =
      t.followFrom followLast onLink place.dropLast rest := by
  obtain ⟨node, hnode, rfl⟩ := Option.map_eq_some_iff.mp hhere
  rw [Node.shell_isOpen] at hopen
  have hslash : ".." ≠ "" := by decide
  have hdot : ".." ≠ "." := by decide
  rw [followFrom, hnode]
  simp only [Node.isDirectory_of_isOpen hopen, hopen, hslash, hdot, Bool.not_true,
    Bool.false_eq_true, if_false, if_true]

/-- A name leads to its entry, unless that is a link. -/
theorem followFrom_down {node : Node} (hentry : IsEntry name)
    (hnode : t.shell? (place ++ [name]) = some node) (hnotlink : ∀ target, node ≠ .link target) :
    t.followFrom followLast onLink place (name :: rest) =
      t.followFrom followLast onLink (place ++ [name]) rest := by
  obtain ⟨here, child, hhere, hopen, hchild, rfl⟩ := child?_of_shell? hnode
  obtain ⟨hslash, hdot, hdots⟩ := hentry
  rw [followFrom, hhere]
  simp only [Node.isDirectory_of_isOpen hopen, hopen, Bool.not_true, Bool.false_eq_true, if_false,
    hslash, hdot, hdots, hchild]
  cases child with
  | link target => exact absurd rfl (hnotlink target)
  | directory => rfl
  | file => rfl
  | repository => rfl
  | closed => rfl

/-- A link is replaced by its target, unless it is the last segment and not to be followed. -/
theorem followFrom_link {target : String} (hentry : IsEntry name)
    (hnode : t.shell? (place ++ [name]) = some (.link target)) (hempty : target.isEmpty = false) :
    t.followFrom followLast onLink place (name :: rest) =
      if rest.isEmpty && !followLast then .ok (.present (place ++ [name]))
      else onLink (startIn place ⟨target⟩) ((Path.mk target).trail ++ rest) := by
  obtain ⟨here, child, hhere, hopen, hchild, hlinked⟩ := child?_of_shell? hnode
  obtain ⟨hslash, hdot, hdots⟩ := hentry
  rw [followFrom, hhere]
  simp only [Node.isDirectory_of_isOpen hopen, hopen, Bool.not_true, Bool.false_eq_true, if_false,
    hslash, hdot, hdots, hchild]
  cases child with
  | link other =>
    cases hlinked
    simp only [hempty, Bool.false_eq_true, if_false]
  | directory => cases hlinked
  | file => cases hlinked
  | repository => cases hlinked
  | closed => cases hlinked

/-- In a directory that may not be entered nothing is looked up. -/
theorem followFrom_closed {readable : Bool} {listed : List (String × EntryKind)}
    (hclosed : t.at? place = some (.closed readable listed)) (hslash : name ≠ "") :
    t.followFrom followLast onLink place (name :: rest) = .error .permissionDenied := by
  rw [followFrom, hclosed]
  simp only [Node.isDirectory, Node.isOpen, hslash, Bool.not_true, Bool.not_false,
    Bool.false_eq_true, if_false, if_true]

end Step

/-- Is the result of a search the end of the way, or a last link that is not to be followed? -/
def Finds (t : FileTree) (followLast : Bool) (found : Location)
    (result : Except IoError Target) : Prop :=
  result = .ok (.present found) ∨
    followLast = false ∧ ∃ other target, result = .ok (.present other) ∧
      t.shell? other = some (.link target)

/-- What is followed is found by the search, if what is followed behind links is. -/
theorem followFrom_of_follows {followLast : Bool}
    (onLink : Location → List String → Except IoError Target)
    (hlink : ∀ place segments, t.Follows k place segments found →
      t.Finds followLast found (onLink place segments))
    (h : t.Follows (k + 1) place segments found) :
    t.Finds followLast found (t.followFrom followLast onLink place segments) := by
  induction segments generalizing place with
  | nil =>
    cases h
    rw [followFrom]
    exact .inl rfl
  | cons segment rest ih =>
    cases h with
    | slash hhere hdirectory hrest =>
      rw [followFrom_slash hhere hdirectory]
      exact ih hrest
    | stay hhere hopen hrest =>
      rw [followFrom_stay hhere hopen]
      exact ih hrest
    | up hhere hopen hrest =>
      rw [followFrom_up hhere hopen]
      exact ih hrest
    | down hentry hnode hnotlink hrest =>
      rw [followFrom_down hentry hnode hnotlink]
      exact ih hrest
    | link hentry hnode hempty hrest =>
      rw [followFrom_link hentry hnode hempty]
      split
      · rename_i hlast
        have hfalse : followLast = false := by
          -- Only a link at the very end may stay unfollowed.
          simpa using (Bool.and_eq_true_iff.mp hlast).2
        exact .inr ⟨hfalse, _, _, rfl, hnode⟩
      · exact hlink _ _ hrest

/-- Steps and names use up no link, so there is an end that needs one more. -/
theorem Follows.pos (h : t.Follows k place segments found) : ∃ links, k = links + 1 := by
  induction h with
  | done links _ => exact ⟨links, rfl⟩
  | slash _ _ _ ih => exact ih
  | stay _ _ _ ih => exact ih
  | up _ _ _ ih => exact ih
  | down _ _ _ _ ih => exact ih
  | @link links _ _ _ _ _ _ _ _ _ _ => exact ⟨links, rfl⟩

/-- What is followed to is found, unless a last link is on the way that is not to be followed. -/
theorem Follows.finds (h : t.Follows k place segments found) (followLast : Bool) :
    t.Finds followLast found (t.followWithin followLast k place segments) := by
  induction k generalizing place segments with
  | zero =>
    obtain ⟨links, hlinks⟩ := h.pos
    cases hlinks
  | succ k ih => exact followFrom_of_follows _ (fun _ _ hrest => ih hrest) h

/-- **The search for what is there follows the segments.** -/
theorem followWithin_eq_present :
    t.followWithin true k place segments = .ok (.present found) ↔
      t.Follows k place segments found := by
  constructor
  · intro h
    induction k generalizing place segments with
    | zero => cases h
    | succ k ih => exact follows_of_followFrom (fun _ _ hrest => ih hrest) h
  · intro h
    rcases h.finds true with hfound | ⟨hlast, -⟩
    · exact hfound
    · cases hlast

theorem locate_eq_ok : t.locate p true = .ok found ↔
    p.text ≠ "" ∧ t.Follows (linkLimit + 1) (startIn t.workDir p) p.trail found := by
  rw [← followWithin_eq_present, locate, resolve]
  by_cases hempty : p.text = ""
  · rw [if_pos (String.isEmpty_iff.mpr hempty)]
    constructor
    · intro h
      cases h
    · intro h
      exact absurd hempty h.1
  · -- An answer other than a place is an error, so only the first of the three cases is one.
    rw [if_neg fun h => hempty (String.isEmpty_iff.mp h)]
    split
    · rename_i other hother
      rw [hother]
      constructor
      · intro h
        cases h
        exact ⟨hempty, rfl⟩
      · intro h
        cases h.2
        rfl
    · rename_i directory name habsent
      rw [habsent]
      constructor
      · intro h
        cases h
      · intro h
        cases h.2
    · rename_i e herror
      rw [herror]
      constructor
      · intro h
        cases h
      · intro h
        cases h.2

/-- What a path leads to is also found where a last link is not followed, or that link is. -/
theorem locate_false (h : t.locate p true = .ok found) :
    ∃ other, t.locate p false = .ok other ∧
      (other = found ∨ ∃ target, t.shell? other = some (.link target)) := by
  obtain ⟨hempty, hfollows⟩ := locate_eq_ok.mp h
  rw [locate, resolve, if_neg fun htext => hempty (String.isEmpty_iff.mp htext)]
  rcases hfollows.finds false with hfound | ⟨-, other, target, hother, hlink⟩
  · rw [hfound]
    exact ⟨found, rfl, .inl rfl⟩
  · rw [hother]
    exact ⟨other, rfl, .inr ⟨target, hlink⟩⟩

/-! ## Following in other trees, and in two goes -/

/-- What can be followed can be followed in every tree with nodes of the same kind for nodes. -/
theorem Follows.of_kept (hkept : ∀ here node, t.shell? here = some node → ∃ kept,
      t'.shell? here = some kept ∧ node.KindOf kept)
    (h : t.Follows k place segments found) : t'.Follows k place segments found := by
  -- Every step asks for a kind of node only, and kinds are kept.
  induction h with
  | done k place => exact .done k place
  | slash hhere hdirectory _ ih =>
    obtain ⟨kept, hkept, hkind⟩ := hkept _ _ hhere
    exact .slash hkept (hkind.isDirectory.trans hdirectory) ih
  | stay hhere hopen _ ih =>
    obtain ⟨kept, hkept, hkind⟩ := hkept _ _ hhere
    exact .stay hkept (hkind.isOpen.trans hopen) ih
  | up hhere hopen _ ih =>
    obtain ⟨kept, hkept, hkind⟩ := hkept _ _ hhere
    exact .up hkept (hkind.isOpen.trans hopen) ih
  | down hentry hnode hnotlink _ ih =>
    obtain ⟨kept, hkept, hkind⟩ := hkept _ _ hnode
    exact .down hentry hkept
      (fun target hlink => hnotlink target ((hkind.link target).mp hlink)) ih
  | link hentry hnode hempty _ ih =>
    obtain ⟨kept, hkept, hkind⟩ := hkept _ _ hnode
    rw [(hkind.link _).mpr rfl] at hkept
    exact .link hentry hkept hempty ih

/-- **What a tree is enough to follow can be followed in every tree that extends it.** -/
theorem Follows.mono (ht : t.Extends t') (h : t.Follows k place segments found) :
    t'.Follows k place segments found :=
  h.of_kept fun here node hnode => ⟨node, ht.kept here node hnode, node.kindOf_refl⟩

/-- Where a path leads, it leads in every tree that extends the first one. -/
theorem locate_mono (ht : t.Extends t') (h : t.locate p true = .ok found) :
    t'.locate p true = .ok found := by
  obtain ⟨hempty, hfollows⟩ := locate_eq_ok.mp h
  refine locate_eq_ok.mpr ⟨hempty, ?_⟩
  rw [ht.workDir]
  exact hfollows.mono ht

/-- Segments can be followed in two goes. -/
theorem Follows.split {before after : List String}
    (h : t.Follows k place (before ++ after) found) :
    ∃ middle rest, t.Follows k place before middle ∧ t.Follows rest middle after found := by
  -- Wherever the first part ends, the way so far is the first of the two. The induction needs the
  -- segments as a variable.
  generalize hall : before ++ after = segments at h
  induction h generalizing before with
  | done k place =>
    obtain ⟨rfl, rfl⟩ := List.append_eq_nil_iff.mp hall
    exact ⟨place, k + 1, .done k place, .done k place⟩
  | slash hhere hdirectory hrest ih =>
    rcases List.append_eq_cons_iff.mp hall with ⟨rfl, rfl⟩ | ⟨before', rfl, hsplit⟩
    · obtain ⟨links, rfl⟩ := hrest.pos
      exact ⟨_, _, .done links _, .slash hhere hdirectory hrest⟩
    · obtain ⟨middle, rest, hbefore, hafter⟩ := ih hsplit.symm
      exact ⟨middle, rest, .slash hhere hdirectory hbefore, hafter⟩
  | stay hhere hopen hrest ih =>
    rcases List.append_eq_cons_iff.mp hall with ⟨rfl, rfl⟩ | ⟨before', rfl, hsplit⟩
    · obtain ⟨links, rfl⟩ := hrest.pos
      exact ⟨_, _, .done links _, .stay hhere hopen hrest⟩
    · obtain ⟨middle, rest, hbefore, hafter⟩ := ih hsplit.symm
      exact ⟨middle, rest, .stay hhere hopen hbefore, hafter⟩
  | up hhere hopen hrest ih =>
    rcases List.append_eq_cons_iff.mp hall with ⟨rfl, rfl⟩ | ⟨before', rfl, hsplit⟩
    · obtain ⟨links, rfl⟩ := hrest.pos
      exact ⟨_, _, .done links _, .up hhere hopen hrest⟩
    · obtain ⟨middle, rest, hbefore, hafter⟩ := ih hsplit.symm
      exact ⟨middle, rest, .up hhere hopen hbefore, hafter⟩
  | down hentry hnode hnotlink hrest ih =>
    rcases List.append_eq_cons_iff.mp hall with ⟨rfl, rfl⟩ | ⟨before', rfl, hsplit⟩
    · obtain ⟨links, rfl⟩ := hrest.pos
      exact ⟨_, _, .done links _, .down hentry hnode hnotlink hrest⟩
    · obtain ⟨middle, rest, hbefore, hafter⟩ := ih hsplit.symm
      exact ⟨middle, rest, .down hentry hnode hnotlink hbefore, hafter⟩
  | @link links place found segment target rest hentry hnode hempty hrest ih =>
    rcases List.append_eq_cons_iff.mp hall with ⟨rfl, rfl⟩ | ⟨before', rfl, hsplit⟩
    · exact ⟨_, _, .done links place, .link hentry hnode hempty hrest⟩
    · -- What the link stands for comes before what is left of the first part.
      rw [hsplit, ← List.append_assoc] at ih
      obtain ⟨middle, rest, hbefore, hafter⟩ := ih rfl
      exact ⟨middle, rest, .link hentry hnode hempty hbefore, hafter⟩

/-- What needs no link can be followed after anything. -/
theorem Follows.append {before after : List String} {middle : Location}
    (h : t.Follows k place before middle)
    (hafter : ∀ links, t.Follows (links + 1) middle after found) :
    t.Follows k place (before ++ after) found := by
  induction h with
  | done k place => exact hafter k
  | slash hhere hdirectory _ ih => exact .slash hhere hdirectory (ih hafter)
  | stay hhere hopen _ ih => exact .stay hhere hopen (ih hafter)
  | up hhere hopen _ ih => exact .up hhere hopen (ih hafter)
  | down hentry hnode hnotlink _ ih => exact .down hentry hnode hnotlink (ih hafter)
  | link hentry hnode hempty _ ih =>
    have hrest := ih hafter
    rw [List.append_assoc] at hrest
    exact .link hentry hnode hempty hrest

/-- Whatever comes of some segments after others that can be followed, it comes of them from where
the others lead. -/
theorem Follows.resume {before : List String} {middle : Location}
    (h : t.Follows k place before middle) (after : List String) :
    ∃ links, t.followWithin true k place (before ++ after) =
      t.followWithin true (links + 1) middle after := by
  -- The search repeats the way that is known, and has used up its links when the rest comes.
  induction h with
  | done links place => exact ⟨links, rfl⟩
  | slash hhere hdirectory hrest ih =>
    obtain ⟨links, rfl⟩ := hrest.pos
    rw [List.cons_append, followWithin, followFrom_slash hhere hdirectory]
    exact ih
  | stay hhere hopen hrest ih =>
    obtain ⟨links, rfl⟩ := hrest.pos
    rw [List.cons_append, followWithin, followFrom_stay hhere hopen]
    exact ih
  | up hhere hopen hrest ih =>
    obtain ⟨links, rfl⟩ := hrest.pos
    rw [List.cons_append, followWithin, followFrom_up hhere hopen]
    exact ih
  | down hentry hnode hnotlink hrest ih =>
    obtain ⟨links, rfl⟩ := hrest.pos
    rw [List.cons_append, followWithin, followFrom_down hentry hnode hnotlink]
    exact ih
  | link hentry hnode hempty hrest ih =>
    rw [List.append_assoc] at ih
    rw [List.cons_append, followWithin, followFrom_link hentry hnode hempty, Bool.not_true,
      Bool.and_false, if_neg Bool.false_ne_true]
    exact ih

/-- A slash, or a step to the current directory, leads to where one is already. -/
theorem Follows.of_stay {segment : String} (hstay : segment = "" ∨ segment = ".")
    (h : t.Follows k place [segment] found) : found = place := by
  have hnot {segment : String} (hentry : IsEntry segment) : ¬ (segment = "" ∨ segment = ".") :=
    fun hstay => hstay.elim hentry.1 hentry.2.1
  -- Only the two steps that stay fit the segment.
  cases h with
  | slash _ _ hdone =>
    cases hdone
    rfl
  | stay _ _ hdone =>
    cases hdone
    rfl
  | up =>
    have hne : ¬ (".." = "" ∨ ".." = ".") := by decide
    exact absurd hstay hne
  | down hentry => exact absurd hstay (hnot hentry)
  | link hentry => exact absurd hstay (hnot hentry)

/-- Whatever is followed is followed from a directory, -/
theorem Follows.inside (h : t.Follows k place segments found) (hne : segments ≠ []) :
    ∃ here, t.shell? place = some here ∧ here.isDirectory = true := by
  cases h with
  | done => exact absurd rfl hne
  | slash hhere hdirectory _ => exact ⟨_, hhere, hdirectory⟩
  | stay hhere hopen _ => exact ⟨_, hhere, Node.isDirectory_of_isOpen hopen⟩
  | up hhere hopen _ => exact ⟨_, hhere, Node.isDirectory_of_isOpen hopen⟩
  | down _ hnode _ _ => exact ⟨_, directory_of_entry (at?_ne_none hnode), rfl⟩
  | link _ hnode _ _ => exact ⟨_, directory_of_entry (at?_ne_none hnode), rfl⟩

/-- and from one that may be entered, if it is more than a slash. -/
theorem Follows.entered {segment : String} {rest : List String}
    (h : t.Follows k place (segment :: rest) found) (hne : segment ≠ "") :
    ∃ here, t.shell? place = some here ∧ here.isOpen = true := by
  cases h with
  | slash => exact absurd rfl hne
  | stay hhere hopen _ => exact ⟨_, hhere, hopen⟩
  | up hhere hopen _ => exact ⟨_, hhere, hopen⟩
  | down _ hnode _ _ => exact ⟨_, directory_of_entry (at?_ne_none hnode), rfl⟩
  | link _ hnode _ _ => exact ⟨_, directory_of_entry (at?_ne_none hnode), rfl⟩

/-- A slash at the end changes nothing but that it asks for a directory. -/
theorem Follows.segments_of_trail (h : t.Follows k place p.trail found) :
    t.Follows k place p.segments found := by
  rw [Path.trail] at h
  split at h
  · obtain ⟨middle, rest, hsegments, hlast⟩ := h.split
    rw [hlast.of_stay (.inl rfl)]
    exact hsegments
  · exact h

theorem Follows.trail_of_segments {here : Node} (h : t.Follows k place p.segments found)
    (hfound : t.shell? found = some here) (hdirectory : here.isDirectory = true) :
    t.Follows k place p.trail found := by
  rw [Path.trail]
  split
  · exact h.append fun links => .slash hfound hdirectory (.done links found)
  · exact h

/-! ## Entries of what a path leads to -/

theorem locate_child {node : Node} (hname : Path.IsName name) (h : t.locate p true = .ok place)
    (hnode : t.shell? (place ++ [name]) = some node) (hnotlink : ∀ target, node ≠ .link target) :
    t.locate (p.child name) true = .ok (place ++ [name]) := by
  obtain ⟨hempty, hfollows⟩ := locate_eq_ok.mp h
  refine locate_eq_ok.mpr ⟨Path.text_child_ne hempty hname.2.2.2, ?_⟩
  rw [startIn, Path.isAbsolute_child hempty hname.2.2.2, Path.trail_child hempty hname]
  exact hfollows.segments_of_trail.append fun links =>
    .down (isEntry_of_isName hname) hnode hnotlink (.done links _)

/-- What is in a directory that may not be entered is out of reach. -/
theorem locate_child_of_closed {readable : Bool} {listed : List (String × EntryKind)}
    (hname : Path.IsName name) (h : t.locate p true = .ok place)
    (hclosed : t.at? place = some (.closed readable listed)) :
    t.locate (p.child name) true = .error .permissionDenied := by
  obtain ⟨hempty, hfollows⟩ := locate_eq_ok.mp h
  have htext := Path.text_child_ne hempty hname.2.2.2
  obtain ⟨links, hresume⟩ := hfollows.segments_of_trail.resume [name]
  rw [locate, resolve, if_neg fun heq => htext (String.isEmpty_iff.mp heq), startIn,
    Path.isAbsolute_child hempty hname.2.2.2, Path.trail_child hempty hname]
  rw [startIn] at hresume
  rw [hresume, followWithin, followFrom_closed hclosed hname.1]

/-- Whatever the path of an entry leads to, it leads there from what the path itself leads to. -/
theorem locate_of_child (hempty : p.text ≠ "") (hname : Path.IsName name)
    (h : t.locate (p.child name) true = .ok found) :
    ∃ place rest, t.locate p true = .ok place ∧ t.Follows rest place [name] found ∧
      t.shell? place = some (.directory []) := by
  obtain ⟨-, hfollows⟩ := locate_eq_ok.mp h
  rw [startIn, Path.isAbsolute_child hempty hname.2.2.2, Path.trail_child hempty hname] at hfollows
  obtain ⟨place, rest, hsegments, hlast⟩ := hfollows.split
  -- Something is found at the name, so what comes before it is a directory.
  have hentry : t.at? (place ++ [name]) ≠ none := by
    cases hlast with
    | slash => exact absurd rfl hname.1
    | stay => exact absurd rfl hname.2.1
    | up => exact absurd rfl hname.2.2.1
    | down _ hnode => exact at?_ne_none hnode
    | link _ hnode => exact at?_ne_none hnode
  have hplace := directory_of_entry hentry
  exact ⟨place, rest, locate_eq_ok.mpr ⟨hempty, hsegments.trail_of_segments hplace rfl⟩, hlast, hplace⟩

/-- A path that asks for a directory leads to what the path of the directory leads to. -/
theorem locate_of_child_stay (hempty : p.text ≠ "") (hname : name = "" ∨ name = ".")
    (h : t.locate (p.child name) true = .ok found) : t.locate p true = .ok found := by
  have hslash : '/' ∉ name.toList := by rcases hname with rfl | rfl <;> decide
  obtain ⟨-, hfollows⟩ := locate_eq_ok.mp h
  rw [startIn, Path.isAbsolute_child hempty hslash, Path.trail_child_of_stay hempty hname] at hfollows
  obtain ⟨place, rest, hsegments, hlast⟩ := hfollows.split
  obtain ⟨here, hhere, hdirectory⟩ := hlast.inside (List.cons_ne_nil _ _)
  rw [hlast.of_stay hname]
  exact locate_eq_ok.mpr ⟨hempty, hsegments.trail_of_segments hhere hdirectory⟩

/-- A name leads to an entry, unless that is a link. -/
theorem Follows.entry (hname : Path.IsName name) (h : t.Follows k place [name] found) :
    found = place ++ [name] ∨ ∃ target, t.shell? (place ++ [name]) = some (.link target) := by
  cases h with
  | slash => exact absurd rfl hname.1
  | stay => exact absurd rfl hname.2.1
  | up => exact absurd rfl hname.2.2.1
  | down _ _ _ hdone =>
    cases hdone
    exact .inl rfl
  | link _ hlink => exact .inr ⟨_, hlink⟩

/-! ## Leading somewhere for good -/

/-- Does a path lead to a place even while that place is an empty directory? -/
def Leads (t : FileTree) (p : Path) (place : Location) : Prop :=
  (t.put place (.directory [])).locate p true = .ok place

/-- An entry does not lead to its own directory. -/
theorem not_below_parent {directory : Location} : ¬ directory ++ [name] <+: directory := by
  intro hbelow
  have hlength := hbelow.length_le
  rw [List.length_append, List.length_singleton] at hlength
  omega

/-- Nothing stands below an empty directory. -/
theorem at?_empty (rest : Location) :
    Node.at? rest (.directory []) = none ∨ rest = [] := by
  cases rest with
  | nil => exact .inr rfl
  | cons => exact .inl rfl

/-- A tree has everything that is left of it when a directory is emptied. -/
theorem extends_of_emptied (hplace : t.shell? place = some (.directory [])) :
    (t.put place (.directory [])).Extends t := by
  have hhas : t.HasPlace place := hasPlace_of_at? (at?_ne_none hplace)
  refine ⟨rfl, fun other node hnode => ?_⟩
  by_cases hbelow : place <+: other
  · -- Of what stood at the place and below, only the directory itself is left.
    obtain ⟨rest, rfl⟩ := hbelow
    rw [shell?, at?_put_append hhas] at hnode
    rcases at?_empty rest with hnone | rfl
    · rw [hnone] at hnode
      cases hnode
    · cases hnode
      rw [List.append_nil]
      exact hplace
  · rw [shell?_put hbelow] at hnode
    exact hnode

/-- What leads to a place for good leads there now. -/
theorem locate_of_leads (h : t.Leads p place) (hplace : t.shell? place = some (.directory [])) :
    t.locate p true = .ok place :=
  locate_mono (extends_of_emptied hplace) h

theorem leads_of_locate (h : t.locate p true = .ok place)
    (hempty : t.at? place = some (.directory [])) : t.Leads p place := by
  have hhas : t.HasPlace place := hasPlace_of_at? fun hnone => by
    rw [hnone] at hempty
    cases hempty
  have hextends : t.Extends (t.put place (.directory [])) := by
    -- Nothing stood below, so emptying the place takes nothing away.
    refine ⟨rfl, fun other node hnode => ?_⟩
    by_cases hbelow : place <+: other
    · obtain ⟨rest, rfl⟩ := hbelow
      rw [shell?, at?_append, hempty] at hnode
      rw [shell?, at?_put_append hhas]
      exact hnode
    · rw [shell?_put hbelow]
      exact hnode
  exact locate_mono hextends h

theorem hasPlace_of_agree (hplace : t.HasPlace place)
    (hagree : ∀ other, ¬ place <+: other → t'.shell? other = t.shell? other) :
    t'.HasPlace place := by
  rcases hplace with rfl | ⟨directory, name, rfl, hdirectory⟩
  · exact .inl rfl
  · refine hasPlace_concat ?_ name
    rw [hagree directory not_below_parent]
    exact hdirectory

/-- Trees that agree outside a place are alike once that place is emptied. -/
theorem extends_of_agree (hworkDir : t'.workDir = t.workDir) (hplace : t.HasPlace place)
    (hagree : ∀ other, ¬ place <+: other → t'.shell? other = t.shell? other) :
    (t.put place (.directory [])).Extends (t'.put place (.directory [])) := by
  refine ⟨hworkDir, fun other node hnode => ?_⟩
  by_cases hbelow : place <+: other
  · obtain ⟨rest, rfl⟩ := hbelow
    rw [shell?, at?_put_append hplace] at hnode
    rw [shell?, at?_put_append (hasPlace_of_agree hplace hagree)]
    exact hnode
  · rw [shell?_put hbelow] at hnode
    rw [shell?_put hbelow, hagree other hbelow]
    exact hnode

/-- **Where a path leads for good does not depend on what stands there.** -/
theorem leads_of_agree (hworkDir : t'.workDir = t.workDir) (hplace : t.HasPlace place)
    (hagree : ∀ other, ¬ place <+: other → t'.shell? other = t.shell? other)
    (h : t.Leads p place) : t'.Leads p place :=
  locate_mono (extends_of_agree hworkDir hplace hagree) h

end FileTree

end KeywordCensus
