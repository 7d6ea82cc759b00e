import KeywordCensus.FileTree.Basic
import KeywordCensus.Proofs.Map.Lookup

/-!
# What a change leaves as it was

Changing what stands at a place also changes the directories that lead to it, if only by the entry
that they list. The shell of a node leaves the entries of a directory out, and a change keeps the
shell of everything that does not lie at the place or below (`FileTree.shell?_alter`).

Two relations compare trees by their shells. A tree is extended by one that has everything it has
(`FileTree.Extends`), and cleared to one that has nothing new but directories
(`FileTree.ClearsTo`).
-/

namespace KeywordCensus

namespace Node

/-- A node without the entries that it lists. -/
def shell : Node → Node
  | .directory _ => .directory []
  | node => node

/-- What stands at a place below something that may be absent. -/
def below? (place : Location) (node? : Option Node) : Option Node := node?.bind (at? place)

variable {change : Option Node → Option Node} {name : String} {place rest : Location}
  {node? : Option Node} {entries : List (String × Node)}

@[simp] theorem below?_nil : below? [] node? = node? := by
  cases node? <;> rfl

@[simp] theorem below?_none : below? place none = none := rfl

theorem below?_cons : below? (name :: rest) node? = below? rest (node?.bind (child? name)) := by
  cases node? <;> rfl

theorem below?_append (place rest : Location) (node? : Option Node) :
    below? (place ++ rest) node? = below? rest (below? place node?) := by
  induction place generalizing node? with
  | nil => rw [List.nil_append, below?_nil]
  | cons name place ih => rw [List.cons_append, below?_cons, below?_cons, ih]

/-- Only directories have an empty directory as their shell. -/
theorem shell_eq_directory {node : Node} (h : node.shell = .directory []) :
    ∃ entries, node = .directory entries := by
  cases node with
  | directory entries => exact ⟨entries, rfl⟩
  | file => cases h
  | link => cases h
  | repository => cases h
  | closed => cases h

/-- Nothing but a directory has entries. -/
theorem shell_of_child? {node child : Node} (h : node.child? name = some child) :
    node.shell = .directory [] := by
  cases node with
  | directory => rfl
  | file => cases h
  | link => cases h
  | repository => cases h
  | closed => cases h

theorem shell_isDirectory (node : Node) : node.shell.isDirectory = node.isDirectory := by
  cases node <;> rfl

theorem shell_isOpen (node : Node) : node.shell.isOpen = node.isOpen := by
  cases node <;> rfl

/-- What may be entered is a directory. -/
theorem isDirectory_of_isOpen {node : Node} (h : node.isOpen = true) : node.isDirectory = true := by
  cases node with
  | directory => rfl
  | repository => rfl
  | closed => cases h
  | file => cases h
  | link => cases h

/-- Is a node like another one in all that matters to those who follow a path: is it a directory, may
it be entered, and which link is it, if any? -/
structure KindOf (node kept : Node) : Prop where
  isDirectory : kept.isDirectory = node.isDirectory
  isOpen : kept.isOpen = node.isOpen
  link : ∀ target, kept = .link target ↔ node = .link target

theorem kindOf_refl (node : Node) : node.KindOf node := ⟨rfl, rfl, fun _ => Iff.rfl⟩

theorem file_ne_directory {bytes : ByteArray} {mode : Nat} :
    Node.file bytes mode ≠ .directory entries := by
  intro h
  cases h

theorem link_ne_directory {target : String} : Node.link target ≠ .directory entries := by
  intro h
  cases h

theorem repository_ne_directory {data : Repository} :
    Node.repository data ≠ .directory entries := by
  intro h
  cases h

theorem directory_ne_link {target : String} : Node.directory entries ≠ .link target := by
  intro h
  cases h

theorem repository_ne_link {data : Repository} {target : String} :
    Node.repository data ≠ .link target := by
  intro h
  cases h

theorem get?_removeEntry (name other : String) (entries : List (String × Node)) :
    Entries.get? other (removeEntry name entries) =
      if name = other then none else Entries.get? other entries := by
  induction entries with
  | nil => cases Decidable.em (name = other) with
    | inl h => exact (if_pos h).symm
    | inr h => exact (if_neg h).symm
  | cons e rest ih =>
    obtain ⟨k, v⟩ := e
    rw [removeEntry, List.filter_cons]
    by_cases hk : k = name
    · subst hk
      rw [if_neg (by simp)]
      show Entries.get? other (removeEntry k rest) = _
      rw [ih, Entries.get?]
      by_cases hother : k = other
      · rw [if_pos hother, if_pos hother]
      · rw [if_neg hother, if_neg hother, if_neg hother]
    · rw [if_pos (by simpa using hk), Entries.get?]
      show (if k = other then some v else Entries.get? other (removeEntry name rest)) = _
      rw [ih, Entries.get?]
      by_cases hother : k = other
      · rw [if_pos hother, if_pos hother, if_neg fun hname => hk (hother.trans hname.symm)]
      · rw [if_neg hother, if_neg hother]

/-- Changing something below a directory leaves a directory. -/
theorem alter_cons (change : Option Node → Option Node) (name : String) (rest : Location)
    (entries : List (String × Node)) :
    ∃ kept, alter change (name :: rest) (some (.directory entries)) = some (.directory kept) ∧
      ∀ other, Entries.get? other kept = if name = other then
        alter change rest (Entries.get? name entries) else Entries.get? other entries := by
  rw [alter]
  cases alter change rest (Entries.get? name entries) with
  | none => exact ⟨_, rfl, fun other => get?_removeEntry name other entries⟩
  | some node => exact ⟨_, rfl, fun other => Entries.get?_insert name other node entries⟩

/-- Nothing is changed below what is no directory. -/
theorem alter_of_not_directory (h : ∀ entries, node? ≠ some (.directory entries)) :
    alter change (name :: rest) node? = node? := by
  cases node? with
  | none => rfl
  | some node =>
    cases node with
    | directory entries => exact absurd rfl (h entries)
    | file => rfl
    | link => rfl
    | repository => rfl
    | closed => rfl

/-- What stands where a change may be made: a directory or nothing that it could go through. -/
theorem directory_or_not (node? : Option Node) :
    (∃ entries, node? = some (.directory entries)) ∨
      ∀ entries, node? ≠ some (.directory entries) := by
  by_cases h : ∃ entries, node? = some (.directory entries)
  · exact .inl h
  · exact .inr fun entries heq => h ⟨entries, heq⟩

/-- **A change keeps the shell of whatever does not lie below its place.** -/
theorem shell_below?_alter (change : Option Node → Option Node) {place other : Location}
    (h : ¬ place <+: other) (node? : Option Node) :
    (below? other (alter change place node?)).map shell = (below? other node?).map shell := by
  induction place generalizing other node? with
  | nil => exact absurd List.nil_prefix h
  | cons name rest ih =>
    rcases directory_or_not node? with ⟨entries, rfl⟩ | hnot
    · obtain ⟨kept, halter, hkept⟩ := alter_cons change name rest entries
      rw [halter]
      cases other with
      | nil =>
        -- The directory itself has other entries now, but the same shell.
        rfl
      | cons other more =>
        rw [below?_cons, below?_cons]
        show (below? more (Entries.get? other kept)).map shell =
          (below? more (Entries.get? other entries)).map shell
        rw [hkept]
        split
        · rename_i heq
          subst heq
          exact ih (fun hbelow => h (List.prefix_cons_inj name |>.mpr hbelow)) _
        · rfl
    · rw [alter_of_not_directory hnot]

/-- A change keeps whatever stands neither below its place nor on the way to it. -/
theorem below?_alter_apart (change : Option Node → Option Node) {place other : Location}
    (h : ¬ place <+: other) (h' : ¬ other <+: place) (node? : Option Node) :
    below? other (alter change place node?) = below? other node? := by
  -- Along both places at once: they part at some name, and up to there the change goes the same
  -- way.
  induction place generalizing other node? with
  | nil => exact absurd List.nil_prefix h
  | cons name rest ih =>
    cases other with
    | nil => exact absurd List.nil_prefix h'
    | cons other more =>
      rcases directory_or_not node? with ⟨entries, rfl⟩ | hnot
      · obtain ⟨kept, halter, hkept⟩ := alter_cons change name rest entries
        rw [halter, below?_cons, below?_cons]
        show below? more (Entries.get? other kept) = below? more (Entries.get? other entries)
        rw [hkept]
        split
        · rename_i heq
          subst heq
          exact ih (fun hbelow => h ((List.prefix_cons_inj name).mpr hbelow))
            (fun hbelow => h' ((List.prefix_cons_inj name).mpr hbelow)) _
        · rfl
      · rw [alter_of_not_directory hnot]

/-- A change in a directory takes place. -/
theorem below?_alter_self {directory : Location}
    (h : below? directory node? = some (.directory entries)) :
    below? (directory ++ [name]) (alter change (directory ++ [name]) node?) =
      change (below? (directory ++ [name]) node?) := by
  induction directory generalizing node? with
  | nil =>
    rw [below?_nil] at h
    subst h
    obtain ⟨kept, halter, hkept⟩ := alter_cons change name [] entries
    rw [List.nil_append, halter, below?_cons, below?_cons, below?_nil, below?_nil]
    exact (hkept name).trans (if_pos rfl)
  | cons first directory ih =>
    rw [below?_cons] at h
    rcases directory_or_not node? with ⟨entries', rfl⟩ | hnot
    · obtain ⟨kept, halter, hkept⟩ := alter_cons change first (directory ++ [name]) entries'
      rw [List.cons_append, halter, below?_cons, below?_cons]
      show below? (directory ++ [name]) (Entries.get? first kept) = _
      rw [hkept, if_pos rfl]
      exact ih h
    · -- Nothing but a directory leads any further.
      have hnone : node?.bind (child? first) = none := by
        cases node? with
        | none => rfl
        | some node =>
          cases node with
          | directory entries' => exact absurd rfl (hnot entries')
          | file => rfl
          | link => rfl
          | repository => rfl
          | closed => rfl
      rw [hnone] at h
      cases h

/-- A change that only removes or empties brings nothing new but directories. -/
theorem shell_of_below?_alter {other : Location} {node : Node}
    (hchange : ∀ old, change old = none ∨ change old = some (.directory []))
    (h : below? other (alter change place node?) = some node)
    (hne : node.shell ≠ .directory []) :
    (below? other node?).map shell = some node.shell := by
  -- Down the place of the change. Where the other place leaves it, nothing has changed.
  induction place generalizing other node? with
  | nil =>
    rcases hchange node? with hnone | hempty
    · rw [alter, hnone] at h
      cases h
    · rw [alter, hempty] at h
      cases other with
      | nil =>
        cases h
        exact absurd rfl hne
      | cons => cases h
  | cons name rest ih =>
    rcases directory_or_not node? with ⟨entries, rfl⟩ | hnot
    · obtain ⟨kept, halter, hkept⟩ := alter_cons change name rest entries
      rw [halter] at h
      cases other with
      | nil =>
        cases h
        exact absurd rfl hne
      | cons other more =>
        rw [below?_cons] at h ⊢
        have hmore : below? more (Entries.get? other kept) = some node := h
        show (below? more (Entries.get? other entries)).map shell = _
        rw [hkept] at hmore
        split at hmore
        · rename_i heq
          subst heq
          exact ih hmore
        · rw [hmore]
          rfl
    · rw [alter_of_not_directory hnot] at h
      rw [h]
      rfl

end Node

namespace FileTree

variable {t t' t'' : FileTree} {place directory rest : Location} {name : String}
  {node : Node} {entries : List (String × Node)} {change : Option Node → Option Node}

/-- What stands at a place, its entries left out. -/
def shell? (t : FileTree) (place : Location) : Option Node := (t.at? place).map Node.shell

theorem at?_append (t : FileTree) (place rest : Location) :
    t.at? (place ++ rest) = (t.at? place).bind (Node.at? rest) :=
  Node.below?_append place rest (some t.root)

theorem at?_concat (t : FileTree) (place : Location) (name : String) :
    t.at? (place ++ [name]) = (t.at? place).bind (Node.child? name) := by
  rw [at?_append]
  cases t.at? place with
  | none => rfl
  | some node =>
    show (node.child? name).bind (Node.at? []) = node.child? name
    cases node.child? name <;> rfl

/-- Of all that stands somewhere, only directories are more than their shells. -/
theorem at?_of_shell? {place : Location} (h : t.shell? place = some node)
    (hne : node ≠ .directory []) : t.at? place = some node := by
  obtain ⟨found, hfound, hshell⟩ := Option.map_eq_some_iff.mp h
  subst hshell
  cases found with
  | directory => exact absurd rfl hne
  | file => exact hfound
  | link => exact hfound
  | repository => exact hfound
  | closed => exact hfound

/-- What is no directory is known from its shell. -/
theorem shell?_eq_some (hne : node.shell ≠ .directory []) :
    t.shell? place = some node ↔ t.at? place = some node := by
  constructor
  · intro h
    refine at?_of_shell? h fun heq => hne ?_
    rw [heq]
    rfl
  · intro h
    rw [shell?, h]
    cases node with
    | directory => exact absurd rfl hne
    | file => rfl
    | link => rfl
    | repository => rfl
    | closed => rfl

/-- Where the shells agree, what is no directory stands in both trees. -/
theorem at?_of_shell?_eq {place : Location} (h : t'.shell? place = t.shell? place)
    (hnode : t.at? place = some node) (hne : node.shell ≠ .directory []) :
    t'.at? place = some node := by
  rw [← shell?_eq_some hne] at hnode ⊢
  exact h.trans hnode

/-- The shell of a place is an empty directory if a directory stands there. -/
theorem shell?_eq_directory :
    t.shell? place = some (.directory []) ↔ ∃ entries, t.at? place = some (.directory entries) := by
  constructor
  · intro h
    obtain ⟨found, hfound, hshell⟩ := Option.map_eq_some_iff.mp h
    obtain ⟨entries, rfl⟩ := Node.shell_eq_directory hshell
    exact ⟨entries, hfound⟩
  · rintro ⟨entries, h⟩
    rw [shell?, h]
    rfl

theorem shell?_eq_none : t.shell? place = none ↔ t.at? place = none := Option.map_eq_none_iff

theorem at?_ne_none (h : t.shell? place = some node) : t.at? place ≠ none := by
  intro hnone
  rw [shell?_eq_none.mpr hnone] at h
  cases h

/-- Where the shells agree, nothing stands in one tree if nothing stands in the other. -/
theorem at?_eq_none_iff (h : t'.shell? place = t.shell? place) :
    t'.at? place = none ↔ t.at? place = none := by
  rw [← shell?_eq_none, h, shell?_eq_none]

/-- What has something below it is a directory. -/
theorem directory_of_at? (h : t.at? (place ++ name :: rest) ≠ none) :
    t.shell? place = some (.directory []) := by
  rw [at?_append] at h
  cases hplace : t.at? place with
  | none => exact absurd (by rw [hplace]; rfl) h
  | some node =>
    rw [hplace] at h
    cases hchild : node.child? name with
    | none =>
      refine absurd ?_ h
      show (node.child? name).bind (Node.at? rest) = none
      rw [hchild]
      rfl
    | some child => rw [shell?, hplace, Option.map_some, Node.shell_of_child? hchild]

theorem directory_of_entry (h : t.at? (place ++ [name]) ≠ none) :
    t.shell? place = some (.directory []) := directory_of_at? h

/-- What leads to something that is there is a directory. -/
theorem directory_above {other : Location} (hbelow : place <+: other) (hne : place ≠ other)
    (h : t.at? other ≠ none) : t.shell? place = some (.directory []) := by
  obtain ⟨rest, rfl⟩ := hbelow
  cases rest with
  | nil => exact absurd (List.append_nil place).symm hne
  | cons name rest => exact directory_of_at? h

/-- What leads to a directory is a directory. -/
theorem directory_of_directory {other : Location} (hbelow : place <+: other)
    (h : t.shell? other = some (.directory [])) : t.shell? place = some (.directory []) := by
  by_cases hsame : place = other
  · rw [hsame]
    exact h
  · exact directory_above hbelow hsame (at?_ne_none h)

/-- Where nothing stands, nothing stands below. -/
theorem at?_eq_none_below {other : Location} (h : t.at? place = none)
    (hbelow : place <+: other) : t.at? other = none := by
  obtain ⟨rest, rfl⟩ := hbelow
  rw [at?_append, h]
  rfl

/-- What lies below something other than a directory is absent. -/
theorem at?_eq_none_of_shell? (h : t.shell? place ≠ some (.directory [])) :
    t.at? (place ++ name :: rest) = none := by
  refine Classical.byContradiction fun hne => h (directory_of_at? hne)

/-! ## Changing a tree -/

@[simp] theorem alter_workDir : (t.alter place change).workDir = t.workDir := rfl

@[simp] theorem put_workDir : (t.put place node).workDir = t.workDir := rfl

@[simp] theorem removeAt_workDir : (t.removeAt place).workDir = t.workDir := rfl

theorem root_alter (t : FileTree) (change : Option Node → Option Node) (name : String)
    (rest : Location) : some (t.alter (name :: rest) change).root =
      Node.alter change (name :: rest) (some t.root) := by
  rw [alter]
  rcases Node.directory_or_not (some t.root) with ⟨entries, hroot⟩ | hnot
  · obtain ⟨kept, halter, -⟩ := Node.alter_cons change name rest entries
    rw [hroot, halter]
    rfl
  · rw [Node.alter_of_not_directory hnot]
    rfl

/-- **A change keeps the shell of whatever does not lie below its place.** -/
theorem shell?_alter {other : Location} (h : ¬ place <+: other) :
    (t.alter place change).shell? other = t.shell? other := by
  cases place with
  | nil => exact absurd List.nil_prefix h
  | cons name rest =>
    show (Node.below? other (some (t.alter (name :: rest) change).root)).map Node.shell = _
    rw [root_alter]
    exact Node.shell_below?_alter change h (some t.root)

/-- A change keeps whatever stands neither below its place nor on the way to it. -/
theorem at?_alter_apart {other : Location} (h : ¬ place <+: other) (h' : ¬ other <+: place) :
    (t.alter place change).at? other = t.at? other := by
  cases place with
  | nil => exact absurd List.nil_prefix h
  | cons name rest =>
    show Node.below? other (some (t.alter (name :: rest) change).root) = t.at? other
    rw [root_alter]
    exact Node.below?_alter_apart change h h' (some t.root)

/-- At its own place a change has the effect that it is meant to have. -/
theorem at?_alter_self (h : t.shell? directory = some (.directory [])) :
    (t.alter (directory ++ [name]) change).at? (directory ++ [name]) =
      change (t.at? (directory ++ [name])) := by
  obtain ⟨entries, hentries⟩ := shell?_eq_directory.mp h
  obtain ⟨first, rest, hplace⟩ : ∃ first rest, directory ++ [name] = first :: rest := by
    cases directory with
    | nil => exact ⟨name, [], rfl⟩
    | cons first rest => exact ⟨first, rest ++ [name], rfl⟩
  show Node.below? (directory ++ [name]) (some (t.alter (directory ++ [name]) change).root) = _
  rw [hplace, root_alter, ← hplace]
  exact Node.below?_alter_self hentries

/-- What may stand at a place: it is the root, or a directory leads to it. -/
def HasPlace (t : FileTree) (place : Location) : Prop :=
  place = [] ∨ ∃ directory name, place = directory ++ [name] ∧
    t.shell? directory = some (.directory [])

theorem hasPlace_concat (h : t.shell? directory = some (.directory [])) (name : String) :
    t.HasPlace (directory ++ [name]) := .inr ⟨directory, name, rfl, h⟩

theorem hasPlace_of_at? (h : t.at? place ≠ none) : t.HasPlace place := by
  rcases List.eq_nil_or_concat place with hnil | ⟨directory, name, hplace⟩
  · exact .inl hnil
  · rw [List.concat_eq_append] at hplace
    rw [hplace] at h
    exact .inr ⟨directory, name, hplace, directory_of_entry h⟩

/-- What has been put at a place stands there. -/
theorem at?_put_self (h : t.HasPlace place) : (t.put place node).at? place = some node := by
  rcases h with rfl | ⟨directory, name, rfl, h⟩
  · rfl
  · exact at?_alter_self h

/-- Below the place that is filled stands what the new node has there, -/
theorem at?_put_append (h : t.HasPlace place) (rest : Location) :
    (t.put place node).at? (place ++ rest) = node.at? rest := by
  rw [at?_append, at?_put_self h]
  rfl

/-- and nothing else changes. -/
theorem shell?_put {other : Location} (h : ¬ place <+: other) :
    (t.put place node).shell? other = t.shell? other :=
  shell?_alter h

theorem at?_removeAt_self (h : place ≠ []) : (t.removeAt place).at? place = none := by
  obtain ⟨directory, name, rfl⟩ : ∃ directory name, place = directory ++ [name] := by
    rcases List.eq_nil_or_concat place with hnil | ⟨directory, name, hplace⟩
    · exact absurd hnil h
    · exact ⟨directory, name, hplace.trans (List.concat_eq_append ..)⟩
  by_cases hdirectory : t.shell? directory = some (.directory [])
  · exact at?_alter_self hdirectory
  · -- Without a directory to hold it, nothing stood there before.
    refine at?_eq_none_of_shell? ?_
    have hnot : ¬ directory ++ [name] <+: directory := by
      intro hbelow
      have hlength := hbelow.length_le
      rw [List.length_append, List.length_singleton] at hlength
      omega
    rw [removeAt, shell?_alter hnot]
    exact hdirectory

theorem shell?_removeAt {other : Location} (h : ¬ place <+: other) :
    (t.removeAt place).shell? other = t.shell? other :=
  shell?_alter h

/-- What a removal leaves was there before, and does not lie below the place. -/
theorem left_of_removeAt {other : Location} (hne : place ≠ [])
    (h : (t.removeAt place).at? other ≠ none) : ¬ place <+: other ∧ t.at? other ≠ none := by
  have hnot : ¬ place <+: other :=
    fun hbelow => h (at?_eq_none_below (at?_removeAt_self hne) hbelow)
  refine ⟨hnot, fun hnone => h ?_⟩
  exact (at?_eq_none_iff (shell?_removeAt hnot)).mpr hnone

/-! ## More and less -/

/-- Has a tree everything that another one has? -/
structure Extends (t t' : FileTree) : Prop where
  workDir : t'.workDir = t.workDir
  kept : ∀ place node, t.shell? place = some node → t'.shell? place = some node

theorem extends_refl (t : FileTree) : t.Extends t := ⟨rfl, fun _ _ h => h⟩

theorem Extends.trans (h : t.Extends t') (h' : t'.Extends t'') : t.Extends t'' :=
  ⟨h'.workDir.trans h.workDir, fun place node hnode =>
    h'.kept place node (h.kept place node hnode)⟩

/-- An extension keeps what is no directory as it is. -/
theorem Extends.at? (h : t.Extends t') (hplace : t.at? place = some node)
    (hne : node.shell ≠ .directory []) : t'.at? place = some node :=
  (shell?_eq_some hne).mp (h.kept place node ((shell?_eq_some hne).mpr hplace))

/-- Putting something at a free place keeps everything. -/
theorem extends_put (h : t.at? place = none) (node : Node) : t.Extends (t.put place node) := by
  refine ⟨rfl, fun other found hfound => ?_⟩
  rw [shell?_put]
  · exact hfound
  · intro hbelow
    rw [shell?_eq_none.mpr (at?_eq_none_below h hbelow)] at hfound
    cases hfound

/-- Has a tree nothing that another one has not, except directories? -/
structure ClearsTo (t t' : FileTree) : Prop where
  workDir : t'.workDir = t.workDir
  known : ∀ place node, t'.shell? place = some node → node ≠ .directory [] →
    t.shell? place = some node

theorem clearsTo_refl (t : FileTree) : t.ClearsTo t := ⟨rfl, fun _ _ h _ => h⟩

theorem ClearsTo.trans (h : t.ClearsTo t') (h' : t'.ClearsTo t'') : t.ClearsTo t'' :=
  ⟨h'.workDir.trans h.workDir, fun place node hnode hne =>
    h.known place node (h'.known place node hnode hne) hne⟩

/-- What is left after clearing, other than directories, was there before. -/
theorem ClearsTo.at? (h : t.ClearsTo t') (hplace : t'.at? place = some node)
    (hne : node.shell ≠ .directory []) : t.at? place = some node := by
  have hdirectory : node ≠ .directory [] := fun heq => hne (by rw [heq]; rfl)
  exact (shell?_eq_some hne).mp (h.known place node ((shell?_eq_some hne).mpr hplace) hdirectory)

/-- Removing and emptying brings nothing new but directories. -/
theorem clearsTo_alter (hchange : ∀ old, change old = none ∨ change old = some (.directory [])) :
    t.ClearsTo (t.alter place change) := by
  refine ⟨rfl, fun other found hfound hne => ?_⟩
  obtain ⟨node, hnode, rfl⟩ := Option.map_eq_some_iff.mp hfound
  cases halter : Node.alter change place (some t.root) with
  | none =>
    -- The root itself is removed, and an empty directory takes its place.
    have hroot : (t.alter place change).root = .directory [] := by
      rw [alter, halter]
      rfl
    rw [at?, hroot] at hnode
    cases other with
    | nil =>
      cases hnode
      exact absurd rfl hne
    | cons => cases hnode
  | some root =>
    have hroot : (t.alter place change).root = root := by
      rw [alter, halter]
      rfl
    rw [at?, hroot] at hnode
    have hbelow : Node.below? other (Node.alter change place (some t.root)) = some node := by
      rw [halter]
      exact hnode
    exact Node.shell_of_below?_alter hchange hbelow hne

theorem clearsTo_removeAt (t : FileTree) (place : Location) : t.ClearsTo (t.removeAt place) :=
  clearsTo_alter fun _ => .inl rfl

theorem clearsTo_put_directory (t : FileTree) (place : Location) :
    t.ClearsTo (t.put place (.directory [])) :=
  clearsTo_alter fun _ => .inr rfl

end FileTree

end KeywordCensus
