import KeywordCensus.FileTree.Resolve

/-!
# Changing a file tree

The operations that create, write and remove. Each is an action on the tree that either succeeds or
fails with an error; what an action has changed before it fails stays changed.
-/

namespace KeywordCensus

/-- An action on a file tree that may fail. The tree it leaves is known in both cases. -/
abbrev FileAction (ε : Type) : Type → Type := ExceptT ε (StateM FileTree)

namespace FileTree

/-- The permission bits of a new file. -/
def newFileMode : Nat := 0o644

/-- The last segment of a path that is met in a directory, and the place of the directory that leads
to it. -/
def parentPlaceIn (t : FileTree) (directory : Location) (p : Path) :
    Except IoError (Location × Option String) :=
  if p.text.isEmpty then .error .notFound
  else match p.segments.reverse with
    | [] => .ok ([], none)
    | last :: before =>
      match followWithin t true (linkLimit + 1) (startIn directory p) (before.reverse ++ ["."]) with
      | .ok (.present place) => .ok (place, some last)
      | .ok (.absent _ _) => .error .notFound
      | .error e => .error e

/-- The last segment of a path and the place of the directory that leads to it. -/
def parentPlace (t : FileTree) (p : Path) : Except IoError (Location × Option String) :=
  t.parentPlaceIn t.workDir p

/-- Is this segment a step rather than a name? -/
def isStep (segment : String) : Bool := segment = "." || segment = ".."

/-- Create one directory. -/
def makeDirectory (t : FileTree) (p : Path) : Except IoError FileTree :=
  match t.parentPlace p with
  | .error e => .error e
  | .ok (_, none) => .error .alreadyExists
  | .ok (place, some name) =>
    if isStep name then .error .alreadyExists
    else match t.at? place with
      | some (.directory entries) =>
        match Entries.get? name entries with
        | some _ => .error .alreadyExists
        | none => .ok (t.put (place ++ [name]) (.directory []))
      -- Only git makes entries in a control directory.
      | _ => .error .permissionDenied

/-- Create a directory and those that lead to it, given how one directory is created, for a path
with fewer than so many components. A directory that is there already is no failure. -/
def makeDirectoriesWith (make : FileTree → Path → Except IoError FileTree) :
    Nat → Path → FileAction IoError Unit
  | 0, _ => throw .notFound
  | steps + 1, p => do
    if p.text.isEmpty then return
    match make (← get) p with
    | .ok t => set t
    | .error .notFound =>
      match p.parent? with
      | none => throw .notFound
      | some parent =>
        -- What leads to the directory comes first; then the directory is tried once more.
        makeDirectoriesWith make steps parent
        match make (← get) p with
        | .ok t => set t
        | .error e => unless (← get).isDirectory p do throw e
    | .error e => unless (← get).isDirectory p do throw e

/-- Create a directory and those that lead to it. -/
def makeDirectories (p : Path) : FileAction IoError Unit :=
  makeDirectoriesWith makeDirectory (p.components.length + 1) p

/-- Does a path, or a link at its end, ask for a directory behind a name whose directory is there? -/
def asksForDirectory (t : FileTree) : Nat → Location → Path → Bool
  | 0, _, _ => false
  | links + 1, directory, p =>
    match t.parentPlaceIn directory p with
    | .ok (place, some name) =>
      p.endsWithSlash ||
        match (t.at? place).bind (Node.child? name) with
        | some (.link target) => asksForDirectory t links place ⟨target⟩
        | _ => false
    | _ => false

/-- The place that is written when a file at a path is created or overwritten. A link is written
through. -/
def placeToWrite (t : FileTree) (p : Path) : Except IoError Location :=
  match t.resolve p true with
  | .ok (.present place) =>
    match t.at? place with
    | some (.file ..) => .ok place
    | _ => .error .isADirectory
  | .ok (.absent directory name) =>
    match t.at? directory with
    | some (.directory _) => .ok (directory ++ [name])
    | _ => .error .permissionDenied
  -- A slash at the end is noticed before what stands at the name.
  | .error e =>
    .error (if t.asksForDirectory (linkLimit + 1) t.workDir p then .isADirectory else e)

/-- What stands where bytes have been written: a file that was there keeps its permissions. -/
def overwrite (bytes : ByteArray) : Option Node → Option Node
  | some (.file _ mode) => some (.file bytes mode)
  | _ => some (.file bytes newFileMode)

/-- Create a file with given bytes, or overwrite one and keep its permissions. -/
def writeBytes (p : Path) (bytes : ByteArray) : FileAction IoError Unit := do
  match (← get).placeToWrite p with
  | .error e => throw e
  | .ok place => modify fun t => t.alter place (overwrite bytes)

/-- Remove a directory without entries. A link is none. -/
def removeEmptyDirectory (p : Path) : FileAction IoError Unit := do
  let t ← get
  match t.parentPlace p with
  | .error e => throw e
  | .ok (_, none) => throw .invalidArgument
  | .ok (place, some name) =>
    if name = "." then throw .invalidArgument
    else if name = ".." then throw .notEmpty
    else match (t.at? place).bind (Node.child? name) with
      | none => throw .notFound
      | some (.directory []) => set (t.removeAt (place ++ [name]))
      | some (.directory _) => throw .notEmpty
      | some (.repository _) => throw .notEmpty
      | some (.closed _ []) => set (t.removeAt (place ++ [name]))
      | some (.closed ..) => throw .notEmpty
      | some _ => throw .notADirectory

/-- Remove a file or a link. -/
def removeFile (p : Path) : FileAction IoError Unit := do
  let t ← get
  match t.parentPlace p with
  | .error e => throw e
  | .ok (_, none) => throw .isADirectory
  | .ok (place, some name) =>
    if isStep name then throw .isADirectory
    else match (t.at? place).bind (Node.child? name) with
      | none => throw .notFound
      | some (.directory _) => throw .isADirectory
      | some (.repository _) => throw .isADirectory
      | some (.closed ..) => throw .isADirectory
      | some _ => set (t.removeAt (place ++ [name]))

/-- Can this be removed once what is below it is gone? A directory that may not be entered can if it
may be read and turns out to have no entries. -/
def isRemovable : Node → Bool
  | .closed readable entries => readable && entries.isEmpty
  | _ => true

/-- Remove a directory with everything in it, or a link. The entries go first, so that they are lost
even where the directory itself cannot be removed under the given path. In what order they go is up to
the system; one that cannot be removed is taken to come first. -/
def removeTree (p : Path) : FileAction IoError Unit := do
  let t ← get
  match t.locate p false with
  | .error e => throw e
  | .ok place =>
    match t.at? place with
    | none => throw .notFound
    | some (.file ..) => throw .notADirectory
    | some (.link _) => set (t.removeAt place)
    | some node =>
      if node.all isRemovable then
        set (t.put place (.directory []))
        -- The path is followed anew: it may have led through what is gone now.
        removeEmptyDirectory p
      else throw .permissionDenied

/-- Make every directory that leads to a place, replacing what stands in the way. -/
def clearWay (t : FileTree) : Location → Location → FileTree
  | _, [] => t
  | done, name :: rest =>
    let here := done ++ [name]
    let t := match t.at? here with
      | some (.directory _) => t
      | _ => t.put here (.directory [])
    clearWay t here rest

/-- Put a node at a place, making the directories that lead to it and replacing what stands in the
way. -/
def plant (t : FileTree) (place : Location) (node : Node) : FileTree :=
  (t.clearWay [] place.dropLast).put place node

/-- Remove the directories on the way from a base to a place, its names given in reverse, innermost
first, as long as they have no entries. -/
def pruneEmpty (t : FileTree) (base : Location) : List String → FileTree
  | [] => t
  | name :: outer =>
    let place := base ++ (name :: outer).reverse
    match t.at? place with
    | some (.directory []) => pruneEmpty (t.removeAt place) base outer
    | _ => t

end FileTree

end KeywordCensus
