import KeywordCensus.FileTree.Resolve

/-!
# Walking a directory

A walk lists everything below a directory, depth first and in name order, each entry before what it
contains. Links are listed but not entered, except that the root of the walk may be a link to a
directory. The path of an entry is the path of the root as it was given, joined with the names that
lead to the entry. Where a directory cannot be read the walk meets an error, which is dropped, and
goes on.
-/

namespace KeywordCensus

/-- An entry of a walk. -/
structure WalkEntry where
  /-- The path of the root, joined with the names that lead here. -/
  path : Path
  /-- What it is. -/
  kind : EntryKind
  deriving DecidableEq, Repr

/-- What a walk meets: an entry, or an error in place of some. -/
abbrev WalkStep := Except IoError WalkEntry

/-- Keep an entry that can be read. -/
def WalkStep.entry? : WalkStep → Option WalkEntry
  | .ok e => some e
  | .error _ => none

/-- What is met at an entry that cannot be reached, as its directory may not be entered. -/
def visitListed (path : Path) (listed : String × EntryKind) : List WalkStep :=
  let found := .ok ⟨path.child listed.1, listed.2⟩
  match listed.2 with
  | .directory => [found, .error .permissionDenied]
  | _ => [found]

mutual

/-- What is met at and below a node that has a given path. -/
def Node.visit (path : Path) : Node → List WalkStep
  | .file .. => [.ok ⟨path, .file⟩]
  | .link _ => [.ok ⟨path, .link⟩]
  | .repository _ => [.ok ⟨path, .directory⟩]
  | .closed true entries => .ok ⟨path, .directory⟩ :: entries.flatMap (visitListed path)
  | .closed false _ => [.ok ⟨path, .directory⟩, .error .permissionDenied]
  | .directory entries => .ok ⟨path, .directory⟩ :: visitEntries path entries

/-- What is met at and below the entries of a directory that has a given path. -/
def visitEntries (path : Path) : List (String × Node) → List WalkStep
  | [] => []
  | (name, node) :: rest => node.visit (path.child name) ++ visitEntries path rest

end

namespace FileTree

/-- What is met at and below the root of a walk. -/
def visit (t : FileTree) (root : Path) : List WalkStep :=
  match t.lookup root false with
  | .error e => [.error e]
  | .ok (.link _) =>
    match t.lookup root true with
    | .error e => [.error e]
    | .ok node =>
      .ok ⟨root, .link⟩ :: if node.isDirectory then (node.visit root).tail else []
  | .ok node => node.visit root

/-- Everything at and below the root of a walk that can be read; a root that is not there has
nothing. -/
def walk (t : FileTree) (root : Path) : List WalkEntry := (t.visit root).filterMap WalkStep.entry?

/-- The regular files of a walk that pass a test on their path. -/
def filesBelow (t : FileTree) (root : Path) (wanted : Path → Bool) : List Path :=
  ((t.walk root).filter fun e => e.kind = .file && wanted e.path).map (·.path)

/-- The Essence specifications below a directory, in walking order; nothing if it is no
directory. -/
def essenceFiles? (t : FileTree) (root : Path) : Option (List Path) :=
  if t.isDirectory root then some (t.filesBelow root Path.isEssence) else none

end FileTree

end KeywordCensus
