import Mathlib.Data.List.Induction
import KeywordCensus.FileTree.Walk
import KeywordCensus.Proofs.FileTree.Following
import KeywordCensus.Proofs.Map.Lookup

/-!
# What a walk finds

A walk finds what is listed at or below a node (`Node.Lists`), under the path of the root with the
names that lead there (`Node.mem_walk`). What is listed stands at the place with these names, unless its
directory may be read but not entered (`Node.lists_iff`).

So the files that are found below a directory are those that names lead to from there
(`FileTree.Below`), and those that are out of reach (`FileTree.OutOfReach`), provided that directories
list names in order (`Node.Ordered`). That holds for a directory that is given through links as well
(`FileTree.mem_filesBelow_iff`). In a tidy tree, in which all directories may be entered, none are out
of reach (`FileTree.mem_filesBelow`). Whether a tree is in order or tidy can be decided
(`Node.arranged`).
-/

namespace KeywordCensus

namespace Path

variable {p : Path} {names : List String}

/-- The path of what stands in a directory, in an entry of an entry and so on, by the names. -/
def descend (p : Path) (names : List String) : Path := names.foldl child p

theorem descend_cons (p : Path) (name : String) (names : List String) :
    p.descend (name :: names) = (p.child name).descend names := rfl

theorem descend_concat (p : Path) (names : List String) (name : String) :
    p.descend (names ++ [name]) = (p.descend names).child name := List.foldl_append

/-- Every name on the way down is one component more. -/
theorem components_descend (p : Path) (h : ∀ name ∈ names, IsName name) :
    (p.descend names).components = p.components ++ names.map .name := by
  induction names generalizing p with
  | nil => exact (List.append_nil _).symm
  | cons name rest ih =>
    obtain ⟨hname, hrest⟩ := List.forall_mem_cons.mp h
    rw [descend_cons, ih _ hrest, components_child_of_isName p hname, List.append_assoc]
    rfl

theorem text_descend_ne (hp : p.text ≠ "") (h : ∀ name ∈ names, IsName name) :
    (p.descend names).text ≠ "" := by
  induction names generalizing p with
  | nil => exact hp
  | cons name rest ih =>
    obtain ⟨hname, hrest⟩ := List.forall_mem_cons.mp h
    exact ih (text_child_ne hp hname.2.2.2) hrest

end Path

namespace Node

/-- The kind of entry that a node is listed as. -/
def kind : Node → EntryKind
  | .file .. => .file
  | .link _ => .link
  | .repository _ => .directory
  | .closed .. => .directory
  | .directory _ => .directory

variable {node child found : Node} {names before : Location} {name : String} {kind : EntryKind}
  {entries : List (String × Node)}

/-! ## What a walk finds -/

/-- What is found by a walk of a node that has a given path: what can be read of what it meets. -/
def walk (path : Path) (node : Node) : List WalkEntry := (node.visit path).filterMap WalkStep.entry?

@[inherit_doc walk]
def walkEntries (path : Path) (entries : List (String × Node)) : List WalkEntry :=
  (visitEntries path entries).filterMap WalkStep.entry?

@[simp] theorem walk_file (path : Path) (bytes : ByteArray) (mode : Nat) :
    (file bytes mode).walk path = [⟨path, .file⟩] := by
  rw [walk, visit]
  rfl

@[simp] theorem walk_link (path : Path) (target : String) :
    (link target).walk path = [⟨path, .link⟩] := by
  rw [walk, visit]
  rfl

@[simp] theorem walk_repository (path : Path) (data : Repository) :
    (repository data).walk path = [⟨path, .directory⟩] := by
  rw [walk, visit]
  rfl

@[simp] theorem walk_unreadable (path : Path) (listed : List (String × EntryKind)) :
    (closed false listed).walk path = [⟨path, .directory⟩] := by
  rw [walk, visit]
  rfl

/-- What is met at an entry out of reach can be read as far as it is listed. -/
theorem entries_visitListed (path : Path) (e : String × EntryKind) :
    (visitListed path e).filterMap WalkStep.entry? = [⟨path.child e.1, e.2⟩] := by
  obtain ⟨name, kind⟩ := e
  cases kind <;> rfl

@[simp] theorem walk_readable (path : Path) (listed : List (String × EntryKind)) :
    (closed true listed).walk path =
      ⟨path, .directory⟩ :: listed.map fun e => ⟨path.child e.1, e.2⟩ := by
  rw [walk, visit, List.filterMap_cons, List.filterMap_flatMap]
  simp only [entries_visitListed]
  exact congrArg (_ :: ·) List.map_eq_flatMap.symm

@[simp] theorem walk_directory (path : Path) (entries : List (String × Node)) :
    (directory entries).walk path = ⟨path, .directory⟩ :: walkEntries path entries := by
  rw [walk, visit, List.filterMap_cons]
  rfl

@[simp] theorem walkEntries_nil (path : Path) : walkEntries path [] = [] := by
  rw [walkEntries, visitEntries]
  rfl

@[simp] theorem walkEntries_cons (path : Path) (name : String) (node : Node)
    (rest : List (String × Node)) : walkEntries path ((name, node) :: rest) =
      node.walk (path.child name) ++ walkEntries path rest := by
  rw [walkEntries, visitEntries, List.filterMap_append]
  rfl

/-- A directory is met first. -/
theorem visit_of_isDirectory (path : Path) (h : node.isDirectory = true) :
    ∃ rest, node.visit path = .ok ⟨path, .directory⟩ :: rest := by
  cases node with
  | file => cases h
  | link => cases h
  | repository => exact ⟨_, visit.eq_3 ..⟩
  | closed readable listed => cases readable <;> exact ⟨_, by rw [visit]⟩
  | directory => exact ⟨_, by rw [visit]⟩

/-- Is something of this kind listed at or below a node, under these names? -/
inductive Lists : Node → Location → EntryKind → Prop
  /-- The node itself. -/
  | here (node : Node) : Lists node [] node.kind
  /-- What an entry of a directory lists. -/
  | entry {entries : List (String × Node)} {name : String} {child : Node} {names : Location}
      {kind : EntryKind} :
      (name, child) ∈ entries → Lists child names kind →
      Lists (.directory entries) (name :: names) kind
  /-- An entry of a directory that may be read but not entered. -/
  | listed {listed : List (String × EntryKind)} {name : String} {kind : EntryKind} :
      (name, kind) ∈ listed → Lists (.closed true listed) [name] kind

/-- What has no entries that can be read lists nothing but itself. -/
theorem mem_walk_leaf (node : Node) (path : Path) (e : WalkEntry)
    (hnone : ∀ names kind, node.Lists names kind → names = [] ∧ kind = node.kind) :
    e ∈ [WalkEntry.mk path node.kind] ↔
      ∃ names kind, node.Lists names kind ∧ e = ⟨path.descend names, kind⟩ := by
  rw [List.mem_singleton]
  constructor
  · intro he
    exact ⟨[], _, .here node, he⟩
  · rintro ⟨names, kind, hlists, rfl⟩
    obtain ⟨rfl, rfl⟩ := hnone names kind hlists
    rfl

mutual

/-- **A walk finds what is listed.** -/
theorem mem_walk (path : Path) (e : WalkEntry) : ∀ node : Node, e ∈ node.walk path ↔
    ∃ names kind, node.Lists names kind ∧ e = ⟨path.descend names, kind⟩
  | .file bytes mode => by
    rw [walk_file]
    exact mem_walk_leaf (.file bytes mode) path e fun _ _ h => by cases h; exact ⟨rfl, rfl⟩
  | .link target => by
    rw [walk_link]
    exact mem_walk_leaf (.link target) path e fun _ _ h => by cases h; exact ⟨rfl, rfl⟩
  | .repository data => by
    rw [walk_repository]
    exact mem_walk_leaf (.repository data) path e fun _ _ h => by cases h; exact ⟨rfl, rfl⟩
  | .closed false listed => by
    rw [walk_unreadable]
    exact mem_walk_leaf (.closed false listed) path e
      fun _ _ h => by cases h; exact ⟨rfl, rfl⟩
  | .closed true listed => by
    rw [walk_readable, List.mem_cons, List.mem_map]
    constructor
    · -- A readable directory that cannot be entered is listed, but nothing below its entries is.
      rintro (rfl | ⟨⟨name, kind⟩, hmem, rfl⟩)
      · exact ⟨[], _, .here _, rfl⟩
      · exact ⟨[name], kind, .listed hmem, rfl⟩
    · rintro ⟨names, kind, hlists, rfl⟩
      cases hlists with
      | here => exact .inl rfl
      | listed hmem => exact .inr ⟨_, hmem, rfl⟩
  | .directory entries => by
    rw [walk_directory, List.mem_cons, mem_walkEntries path e entries]
    constructor
    · rintro (rfl | ⟨name, child, names, kind, hmem, hlists, rfl⟩)
      · exact ⟨[], _, .here _, rfl⟩
      · exact ⟨name :: names, kind, .entry hmem hlists, rfl⟩
    · rintro ⟨names, kind, hlists, rfl⟩
      cases hlists with
      | here => exact .inl rfl
      | entry hmem hrest => exact .inr ⟨_, _, _, _, hmem, hrest, rfl⟩

theorem mem_walkEntries (path : Path) (e : WalkEntry) : ∀ entries : List (String × Node),
    e ∈ walkEntries path entries ↔ ∃ name child names kind, (name, child) ∈ entries ∧
      child.Lists names kind ∧ e = ⟨(path.child name).descend names, kind⟩
  | [] => by
    rw [walkEntries_nil]
    constructor
    · intro he
      cases he
    · rintro ⟨_, _, _, _, hmem, -⟩
      cases hmem
  | (name, child) :: rest => by
    rw [walkEntries_cons, List.mem_append, mem_walk (path.child name) e child,
      mem_walkEntries path e rest]
    constructor
    · -- What is listed comes from the first entry or from one of the rest.
      rintro (⟨names, kind, hlists, rfl⟩ | ⟨other, inner, names, kind, hmem, hlists, rfl⟩)
      · exact ⟨name, child, names, kind, List.mem_cons_self, hlists, rfl⟩
      · exact ⟨other, inner, names, kind, List.mem_cons_of_mem _ hmem, hlists, rfl⟩
    · rintro ⟨other, inner, names, kind, hmem, hlists, rfl⟩
      rcases List.mem_cons.mp hmem with heq | hmem
      · cases heq
        exact .inl ⟨names, kind, hlists, rfl⟩
      · exact .inr ⟨other, inner, names, kind, hmem, hlists, rfl⟩

end

/-! ## Nodes in order -/

/-- Do all directories at and below a node list names of entries, in order? -/
inductive Ordered : Node → Prop
  /-- Files have no entries. -/
  | file (bytes : ByteArray) (mode : Nat) : Ordered (.file bytes mode)
  /-- Links have no entries. -/
  | link (target : String) : Ordered (.link target)
  /-- Control directories show none. -/
  | repository (data : Repository) : Ordered (.repository data)
  /-- A directory that may not be entered lists names in order. -/
  | closed {readable : Bool} {listed : List (String × EntryKind)} :
      KeysIncrease listed → (∀ e ∈ listed, Path.IsName e.1) → Ordered (.closed readable listed)
  /-- A directory lists names in order, and what they stand for is in order. -/
  | directory {entries : List (String × Node)} :
      KeysIncrease entries → (∀ e ∈ entries, Path.IsName e.1) → (∀ e ∈ entries, Ordered e.2) →
      Ordered (.directory entries)

/-- Do all directories at and below a node list names of entries, in order, and may they all be
entered? -/
inductive Tidy : Node → Prop
  /-- Files have no entries. -/
  | file (bytes : ByteArray) (mode : Nat) : Tidy (.file bytes mode)
  /-- Links have no entries. -/
  | link (target : String) : Tidy (.link target)
  /-- Control directories show none. -/
  | repository (data : Repository) : Tidy (.repository data)
  /-- A directory lists names in order, and what they stand for is tidy. -/
  | directory {entries : List (String × Node)} :
      KeysIncrease entries → (∀ e ∈ entries, Path.IsName e.1) → (∀ e ∈ entries, Tidy e.2) →
      Tidy (.directory entries)

/-- What is tidy is in order. -/
theorem Tidy.ordered (h : node.Tidy) : node.Ordered := by
  induction h with
  | file bytes mode => exact .file bytes mode
  | link target => exact .link target
  | repository data => exact .repository data
  | directory hincrease hnamed _ ih => exact .directory hincrease hnamed ih

mutual

/-- Do all directories at and below a node list names of entries, in order? Directories that may not be
entered pass if they are allowed. -/
def arranged (closedToo : Bool) : Node → Bool
  | .closed _ listed =>
    closedToo && (decide (KeysIncrease listed) && listed.all fun e => Path.IsName e.1)
  | .directory entries => decide (KeysIncrease entries) && arrangedEntries closedToo entries
  | _ => true

/-- Do all entries have names, and what they stand for directories in order? -/
def arrangedEntries (closedToo : Bool) : List (String × Node) → Bool
  | [] => true
  | (name, node) :: rest =>
    decide (Path.IsName name) && (arranged closedToo node && arrangedEntries closedToo rest)

end

theorem arrangedEntries_iff {closedToo : Bool} : arrangedEntries closedToo entries = true ↔
    (∀ e ∈ entries, Path.IsName e.1) ∧ ∀ e ∈ entries, arranged closedToo e.2 = true := by
  induction entries with
  | nil => exact iff_of_true rfl ⟨List.forall_mem_nil _, List.forall_mem_nil _⟩
  | cons e rest ih =>
    rw [arrangedEntries, Bool.and_eq_true, Bool.and_eq_true, decide_eq_true_iff, ih,
      List.forall_mem_cons, List.forall_mem_cons]
    exact ⟨fun ⟨hname, hnode, hnames, hnodes⟩ => ⟨⟨hname, hnames⟩, hnode, hnodes⟩,
      fun ⟨⟨hname, hnames⟩, hnode, hnodes⟩ => ⟨hname, hnode, hnames, hnodes⟩⟩

/-- What holds of a node if it holds of what the node lists holds of all nodes that pass. -/
theorem of_arranged {P : Node → Prop} {closedToo : Bool}
    (hfile : ∀ bytes mode, P (.file bytes mode)) (hlink : ∀ target, P (.link target))
    (hrepository : ∀ data, P (.repository data))
    (hclosed : closedToo = true → ∀ readable listed, KeysIncrease listed →
      (∀ e ∈ listed, Path.IsName e.1) → P (.closed readable listed))
    (hdirectory : ∀ entries, KeysIncrease entries → (∀ e ∈ entries, Path.IsName e.1) →
      (∀ e ∈ entries, P e.2) → P (.directory entries)) :
    ∀ node : Node, arranged closedToo node = true → P node
  | .file bytes mode, _ => hfile bytes mode
  | .link target, _ => hlink target
  | .repository data, _ => hrepository data
  | .closed readable listed, h => by
    rw [arranged, Bool.and_eq_true, Bool.and_eq_true, decide_eq_true_iff, List.all_eq_true] at h
    obtain ⟨hallowed, hincrease, hnamed⟩ := h
    exact hclosed hallowed readable listed hincrease fun e he => of_decide_eq_true (hnamed e he)
  | .directory entries, h => by
    rw [arranged, Bool.and_eq_true, decide_eq_true_iff, arrangedEntries_iff] at h
    obtain ⟨hincrease, hnamed, hentries⟩ := h
    exact hdirectory entries hincrease hnamed fun e he =>
      of_arranged hfile hlink hrepository hclosed hdirectory e.2 (hentries e he)
  termination_by node => sizeOf node
  decreasing_by
    have hsmaller := List.sizeOf_lt_of_mem he
    obtain ⟨name, node⟩ := e
    simp only [Prod.mk.sizeOf_spec, directory.sizeOf_spec] at hsmaller ⊢
    omega

theorem ordered_iff_arranged : node.Ordered ↔ node.arranged true = true := by
  constructor
  · intro h
    induction h with
    | file => rfl
    | link => rfl
    | repository => rfl
    | closed hincrease hnamed =>
      rw [arranged, Bool.true_and, Bool.and_eq_true, decide_eq_true_iff, List.all_eq_true]
      exact ⟨hincrease, fun e he => decide_eq_true (hnamed e he)⟩
    | directory hincrease hnamed _ ih =>
      rw [arranged, Bool.and_eq_true, decide_eq_true_iff]
      exact ⟨hincrease, arrangedEntries_iff.mpr ⟨hnamed, ih⟩⟩
  · exact of_arranged (P := Ordered) .file .link .repository (fun _ _ _ => .closed)
      (fun _ => .directory) node

theorem tidy_iff_arranged : node.Tidy ↔ node.arranged false = true := by
  constructor
  · intro h
    induction h with
    | file => rfl
    | link => rfl
    | repository => rfl
    | directory hincrease hnamed _ ih =>
      rw [arranged, Bool.and_eq_true, decide_eq_true_iff]
      exact ⟨hincrease, arrangedEntries_iff.mpr ⟨hnamed, ih⟩⟩
  · exact of_arranged (P := Tidy) .file .link .repository (fun hallowed => Bool.noConfusion hallowed)
      (fun _ => .directory) node

instance : DecidablePred Ordered := fun _ => decidable_of_iff _ ordered_iff_arranged.symm

instance : DecidablePred Tidy := fun _ => decidable_of_iff _ tidy_iff_arranged.symm

/-- What directories hand on to their entries, nodes hand on to all that stands in them. -/
theorem of_at? {P : Node → Prop} (hdown : ∀ entries, P (.directory entries) → ∀ e ∈ entries, P e.2)
    (h : P node) (hfound : node.at? names = some found) : P found := by
  induction names generalizing node with
  | nil =>
    cases hfound
    exact h
  | cons name rest ih =>
    obtain ⟨child, hchild, hrest⟩ := Option.bind_eq_some_iff.mp hfound
    cases node with
    | file => cases hchild
    | link => cases hchild
    | repository => cases hchild
    | closed => cases hchild
    | directory entries => exact ih (hdown entries h _ (Entries.mem_of_get? hchild)) hrest

/-- What stands in a node in order is in order. -/
theorem Ordered.at? (h : node.Ordered) (hfound : node.at? names = some found) : found.Ordered := by
  refine of_at? (fun entries hordered => ?_) h hfound
  cases hordered with
  | directory _ _ hinner => exact hinner

/-- What stands in a tidy node is tidy. -/
theorem Tidy.at? (h : node.Tidy) (hfound : node.at? names = some found) : found.Tidy := by
  refine of_at? (fun entries htidy => ?_) h hfound
  cases htidy with
  | directory _ _ hinner => exact hinner

/-- What a node in order lists is listed under names of entries, -/
theorem Lists.named (h : node.Lists names kind) (hordered : node.Ordered) :
    ∀ name ∈ names, Path.IsName name := by
  induction h with
  | here node => exact List.forall_mem_nil _
  | entry hmem _ ih =>
    cases hordered with
    | directory _ hnamed hinner =>
      exact List.forall_mem_cons.mpr ⟨hnamed _ hmem, ih (hinner _ hmem)⟩
  | listed hmem =>
    cases hordered with
    | closed _ hnamed => exact List.forall_mem_singleton.mpr (hnamed _ hmem)

/-- What is listed out of reach: an entry of a directory that may be read but not entered. -/
def ListsOutOfReach (node : Node) (names : Location) (kind : EntryKind) : Prop :=
  ∃ before name listed, names = before ++ [name] ∧ node.at? before = some (.closed true listed) ∧
    (name, kind) ∈ listed

/-- Of the entries of a directory in order, none hides another one. -/
theorem child?_of_mem (h : (directory entries).Ordered) (hmem : (name, child) ∈ entries) :
    (directory entries).child? name = some child := by
  cases h with
  | directory hincrease => exact Entries.get?_of_mem (Entries.nodup_keys hincrease) hmem

/-- **and it stands at the place with these names, or is out of reach.** -/
theorem lists_iff (hordered : node.Ordered) : node.Lists names kind ↔
    (∃ found, node.at? names = some found ∧ found.kind = kind) ∨
      node.ListsOutOfReach names kind := by
  constructor
  · intro h
    induction h with
    | here node => exact .inl ⟨node, rfl, rfl⟩
    | @entry entries name child names kind hmem _ ih =>
      have hchild := child?_of_mem hordered hmem
      cases hordered with
      | directory _ _ hinner =>
        rcases ih (hinner _ hmem) with ⟨found, hfound, hkind⟩ |
          ⟨before, last, listed, rfl, hclosed, hlast⟩
        · refine .inl ⟨found, ?_, hkind⟩
          rw [Node.at?, hchild]
          exact hfound
        · refine .inr ⟨name :: before, last, listed, rfl, ?_, hlast⟩
          rw [Node.at?, hchild]
          exact hclosed
    | listed hmem => exact .inr ⟨[], _, _, rfl, rfl, hmem⟩
  · intro h
    induction names generalizing node with
    | nil =>
      rcases h with ⟨found, hfound, rfl⟩ | ⟨before, name, listed, hnames, -⟩
      · cases hfound
        exact .here _
      · exact absurd hnames.symm (List.append_ne_nil_of_right_ne_nil _ (List.cons_ne_nil _ _))
    | cons first rest ih =>
      -- Either way the first name is that of an entry, unless nothing is left after it.
      have hinside : ∀ child, node.child? first = some child →
          child.Lists rest kind → node.Lists (first :: rest) kind := by
        intro child hchild hlists
        cases node with
        | file => cases hchild
        | link => cases hchild
        | repository => cases hchild
        | closed => cases hchild
        | directory entries => exact .entry (Entries.mem_of_get? hchild) hlists
      have hchildren : ∀ child, node.child? first = some child → child.Ordered :=
        fun child hchild => Ordered.at? hordered
          (by rw [Node.at?, hchild]; rfl : node.at? [first] = some child)
      rcases h with ⟨found, hfound, hkind⟩ | ⟨before, name, listed, hnames, hclosed, hmem⟩
      · obtain ⟨child, hchild, hrest⟩ := Option.bind_eq_some_iff.mp hfound
        exact hinside child hchild (ih (hchildren child hchild) (.inl ⟨found, hrest, hkind⟩))
      · cases before with
        | nil =>
          cases hnames
          cases hclosed
          exact .listed hmem
        | cons second before =>
          cases hnames
          obtain ⟨child, hchild, hrest⟩ := Option.bind_eq_some_iff.mp hclosed
          exact hinside child hchild
            (ih (hchildren child hchild) (.inr ⟨before, name, listed, rfl, hrest, hmem⟩))

end Node

namespace FileTree

variable {t : FileTree} {root p : Path} {top names : Location} {node : Node}

/-- Names lead from a directory down to what is no link. -/
theorem locate_descend (hnames : ∀ name ∈ names, Path.IsName name)
    (h : t.locate root true = .ok top) (hnode : t.shell? (top ++ names) = some node)
    (hnotlink : ∀ target, node ≠ .link target) :
    t.locate (root.descend names) true = .ok (top ++ names) := by
  -- From the end, since the last name is the one that is looked up last.
  induction names using List.reverseRecOn generalizing node with
  | nil =>
    rw [List.append_nil]
    exact h
  | append_singleton names name ih =>
    obtain ⟨hbefore, hname⟩ := List.forall_mem_append.mp hnames
    rw [← List.append_assoc] at hnode ⊢
    have hdirectory := directory_of_entry (at?_ne_none hnode)
    rw [Path.descend_concat]
    exact locate_child (List.forall_mem_singleton.mp hname)
      (ih hbefore hdirectory fun _ => Node.directory_ne_link) hnode hnotlink

/-- Do names lead from one path to another one, and down from a place to a file? -/
structure Below (t : FileTree) (root p : Path) (names : Location) : Prop where
  /-- The path is not that of the root. -/
  inner : names ≠ []
  /-- The names are those of entries. -/
  named : ∀ name ∈ names, Path.IsName name
  /-- The path is that of the root with the names. -/
  spelled : p = root.descend names
  /-- The path leads to a regular file, by the names below what the root leads to. -/
  found : ∃ top bytes mode, t.locate root true = .ok top ∧ t.locate p true = .ok (top ++ names) ∧
    t.at? (top ++ names) = some (.file bytes mode)

theorem lookup_eq_ok {followLast : Bool} : t.lookup p followLast = .ok node ↔
    ∃ place, t.locate p followLast = .ok place ∧ t.at? place = some node := by
  constructor
  · intro h
    rw [lookup] at h
    split at h
    · rename_i place hplace
      split at h
      · rename_i found hfound
        cases h
        exact ⟨place, hplace, hfound⟩
      · cases h
    · cases h
  · rintro ⟨place, hplace, hnode⟩
    rw [lookup, hplace]
    simp only [hnode]

theorem isDirectory_eq_true : t.isDirectory p = true ↔
    ∃ place node, t.locate p true = .ok place ∧ t.at? place = some node ∧
      node.isDirectory = true := by
  constructor
  · intro h
    rw [isDirectory] at h
    split at h
    · rename_i node hnode
      obtain ⟨place, hplace, hat⟩ := lookup_eq_ok.mp hnode
      exact ⟨place, node, hplace, hat, h⟩
    · cases h
  · rintro ⟨place, node, hplace, hat, hdirectory⟩
    rw [isDirectory, lookup_eq_ok.mpr ⟨place, hplace, hat⟩]
    exact hdirectory

/-- Where something stands below what a path leads to, the path is that of a directory. -/
theorem isDirectory_above (htop : t.locate root true = .ok top) (hinner : names ≠ [])
    (hthere : t.at? (top ++ names) ≠ none) : t.isDirectory root = true := by
  have hdirectory := directory_above (List.prefix_append top names)
    (fun heq => hinner (List.append_right_eq_self.mp heq.symm)) hthere
  obtain ⟨node, hnode, hshell⟩ := Option.map_eq_some_iff.mp hdirectory
  refine isDirectory_eq_true.mpr ⟨top, node, htop, hnode, ?_⟩
  rw [← Node.shell_isDirectory, hshell]
  rfl

theorem Below.isDirectory (h : t.Below root p names) : t.isDirectory root = true := by
  obtain ⟨top, bytes, mode, htop, -, hfile⟩ := h.found
  refine isDirectory_above htop h.inner ?_
  rw [hfile]
  exact Option.some_ne_none _

/-- A file that is listed below a directory, but out of reach: its own directory may be read but not
entered. -/
structure OutOfReach (t : FileTree) (root p : Path) (names : Location) : Prop where
  /-- The names are those of entries. -/
  named : ∀ name ∈ names, Path.IsName name
  /-- The path is that of the root with the names. -/
  spelled : p = root.descend names
  /-- A directory lists the file by the last name. -/
  listed : ∃ top before name entries, t.locate root true = .ok top ∧ names = before ++ [name] ∧
    t.at? (top ++ before) = some (.closed true entries) ∧ (name, EntryKind.file) ∈ entries

/-- What is out of reach is listed by a directory. -/
theorem OutOfReach.isDirectory (h : t.OutOfReach root p names) : t.isDirectory root = true := by
  obtain ⟨top, before, name, entries, htop, -, hclosed, -⟩ := h.listed
  by_cases hinner : before = []
  · rw [hinner, List.append_nil] at hclosed
    exact isDirectory_eq_true.mpr ⟨top, _, htop, hclosed, rfl⟩
  · refine isDirectory_above htop hinner ?_
    rw [hclosed]
    exact Option.some_ne_none _

/-- Do names lead from one path to another one, as that of a file below or out of reach? -/
def Listed (t : FileTree) (root p : Path) (names : Location) : Prop :=
  t.Below root p names ∨ t.OutOfReach root p names

namespace Listed

theorem inner (h : t.Listed root p names) : names ≠ [] := by
  rcases h with hbelow | hhidden
  · exact hbelow.inner
  · obtain ⟨-, before, name, -, -, rfl, -⟩ := hhidden.listed
    exact List.append_ne_nil_of_right_ne_nil _ (List.cons_ne_nil _ _)

theorem named (h : t.Listed root p names) : ∀ name ∈ names, Path.IsName name :=
  h.elim Below.named OutOfReach.named

theorem spelled (h : t.Listed root p names) : p = root.descend names :=
  h.elim Below.spelled OutOfReach.spelled

theorem isDirectory (h : t.Listed root p names) : t.isDirectory root = true :=
  h.elim Below.isDirectory OutOfReach.isDirectory

/-- The path goes on from the root with the names. -/
theorem components (h : t.Listed root p names) :
    p.components = root.components ++ names.map .name := by
  rw [h.spelled, Path.components_descend root h.named]

/-- The last name on the way is that of the file. -/
theorem fileName? (h : t.Listed root p names) : p.fileName? = names.getLast? := by
  have hlast := List.getLast?_eq_some_getLast h.inner
  rw [Path.fileName?, h.components, List.getLast?_append, List.getLast?_map, hlast]
  rfl

end Listed

theorem Below.components (h : t.Below root p names) :
    p.components = root.components ++ names.map .name := Listed.components (.inl h)

theorem Below.fileName? (h : t.Below root p names) : p.fileName? = names.getLast? :=
  Listed.fileName? (.inl h)

/-- The files of a walk are those of a walk of what the root leads to. -/
theorem mem_walk_root (htop : t.locate root true = .ok top) (hnode : t.at? top = some node)
    (hdirectory : node.isDirectory = true) :
    WalkEntry.mk p .file ∈ t.walk root ↔ WalkEntry.mk p .file ∈ node.walk root := by
  have hfollowed := lookup_eq_ok.mpr ⟨top, htop, hnode⟩
  -- Without following a last link the root is what it leads to, or a link to that.
  obtain ⟨other, hother, rfl | ⟨target, hlink⟩⟩ := locate_false htop
  · rw [walk, visit, lookup_eq_ok.mpr ⟨other, hother, hnode⟩]
    cases node with
    | link => cases hdirectory
    | _ => rfl
  · -- A root that is a link is listed as one, and then what is in the directory.
    obtain ⟨rest, hrest⟩ := Node.visit_of_isDirectory root hdirectory
    rw [walk, visit, lookup_eq_ok.mpr ⟨other, hother, at?_of_shell? hlink Node.link_ne_directory⟩]
    simp only [hfollowed, hdirectory, if_true]
    rw [Node.walk, hrest]
    simp [WalkStep.entry?]

/-- The files below a directory are those of the walk that are wanted. -/
theorem mem_filesBelow_iff_walk {wanted : Path → Bool} : p ∈ t.filesBelow root wanted ↔
    WalkEntry.mk p .file ∈ t.walk root ∧ wanted p = true := by
  rw [filesBelow, List.mem_map]
  constructor
  · rintro ⟨⟨path, kind⟩, he, rfl⟩
    obtain ⟨hwalk, htest⟩ := List.mem_filter.mp he
    obtain ⟨hkind, hwanted⟩ := Bool.and_eq_true_iff.mp htest
    cases of_decide_eq_true hkind
    exact ⟨hwalk, hwanted⟩
  · rintro ⟨hwalk, hwanted⟩
    refine ⟨⟨p, .file⟩, List.mem_filter.mpr ⟨hwalk, ?_⟩, rfl⟩
    rw [hwanted]
    rfl

/-- Names lead down to a file that stands at them. -/
theorem below_of_at? {bytes : ByteArray} {mode : Nat} (htop : t.locate root true = .ok top)
    (hnames : ∀ name ∈ names, Path.IsName name) (hne : names ≠ [])
    (hfile : t.at? (top ++ names) = some (.file bytes mode)) :
    t.Below root (root.descend names) names := by
  have hshell : t.shell? (top ++ names) = some (.file bytes mode) := by
    rw [shell?, hfile]
    rfl
  have hlocate := locate_descend hnames htop hshell fun _ hlink => by cases hlink
  exact ⟨hne, hnames, rfl, top, bytes, mode, htop, hlocate, hfile⟩

/-- **A walk of a directory finds the files below it and those that are out of reach**, the directory
being given by any path. -/
theorem mem_filesBelow_iff {wanted : Path → Bool} (hordered : t.root.Ordered)
    (hroot : t.isDirectory root = true) : p ∈ t.filesBelow root wanted ↔
      wanted p = true ∧ ∃ names, t.Listed root p names := by
  obtain ⟨top, node, htop, hnode, hdirectory⟩ := isDirectory_eq_true.mp hroot
  have hnodes := hordered.at? hnode
  rw [mem_filesBelow_iff_walk, mem_walk_root htop hnode hdirectory, Node.mem_walk, and_comm]
  refine and_congr_right fun _ => ?_
  constructor
  · rintro ⟨names, kind, hlists, heq⟩
    cases heq
    have hnamed := hlists.named hnodes
    -- What is listed stands there, or it is in a directory that cannot be entered.
    rcases (Node.lists_iff hnodes).mp hlists with ⟨found, hfound, hkind⟩ |
      ⟨before, name, entries, rfl, hclosed, hmem⟩
    · cases found with
      | link => cases hkind
      | directory => cases hkind
      | repository => cases hkind
      | closed => cases hkind
      | file bytes mode =>
        have hfile : t.at? (top ++ names) = some (.file bytes mode) := by
          rw [at?_append, hnode]
          exact hfound
        refine ⟨names, .inl (below_of_at? htop hnamed ?_ hfile)⟩
        -- The root itself is a directory, and no file.
        rintro rfl
        cases hfound
        cases hdirectory
    · refine ⟨_, .inr ⟨hnamed, rfl, top, before, name, entries, htop, rfl, ?_, hmem⟩⟩
      rw [at?_append, hnode]
      exact hclosed
  · rintro ⟨names, hbelow | hhidden⟩
    · obtain ⟨place, bytes, mode, hplace, -, hfile⟩ := hbelow.found
      cases htop.symm.trans hplace
      rw [at?_append, hnode] at hfile
      exact ⟨names, .file, (Node.lists_iff hnodes).mpr (.inl ⟨_, hfile, rfl⟩),
        by rw [hbelow.spelled]⟩
    · obtain ⟨place, before, name, entries, hplace, rfl, hclosed, hmem⟩ := hhidden.listed
      cases htop.symm.trans hplace
      rw [at?_append, hnode] at hclosed
      exact ⟨_, .file, (Node.lists_iff hnodes).mpr (.inr ⟨before, name, entries, rfl, hclosed, hmem⟩),
        by rw [hhidden.spelled]⟩

/-- The path of what is out of reach leads nowhere. -/
theorem OutOfReach.locate_eq (h : t.OutOfReach root p names) :
    t.locate p true = .error .permissionDenied := by
  obtain ⟨top, before, name, entries, htop, rfl, hclosed, -⟩ := h.listed
  obtain ⟨hbefore, hname⟩ := List.forall_mem_append.mp h.named
  have hshell : t.shell? (top ++ before) = some (.closed true entries) := by
    rw [shell?, hclosed]
    rfl
  have hdirectory := locate_descend hbefore htop hshell fun _ hlink => by cases hlink
  rw [h.spelled, Path.descend_concat]
  exact locate_child_of_closed (List.forall_mem_singleton.mp hname) hdirectory hclosed

/-- In a tidy tree nothing is out of reach. -/
theorem OutOfReach.not_tidy (h : t.OutOfReach root p names) : ¬ t.root.Tidy := by
  intro htidy
  obtain ⟨top, before, name, entries, -, -, hclosed, -⟩ := h.listed
  cases htidy.at? hclosed

/-- In a tidy tree what is listed is below. -/
theorem Listed.below (h : t.Listed root p names) (htidy : t.root.Tidy) : t.Below root p names :=
  Or.resolve_right h fun hhidden => hhidden.not_tidy htidy

/-- **A walk of a directory in a tidy tree finds the files below it**, the directory being given by any
path. -/
theorem mem_filesBelow {wanted : Path → Bool} (htidy : t.root.Tidy)
    (hroot : t.isDirectory root = true) :
    p ∈ t.filesBelow root wanted ↔ wanted p = true ∧ ∃ names, t.Below root p names := by
  rw [mem_filesBelow_iff htidy.ordered hroot]
  refine and_congr_right fun _ => exists_congr fun names => ?_
  exact ⟨fun hlisted => hlisted.below htidy, .inl⟩

end FileTree

end KeywordCensus
