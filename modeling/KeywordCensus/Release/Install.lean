import KeywordCensus.FileTree.Edit
import KeywordCensus.Release.Cache

/-!
# Installing an archive

An archive is extracted entry by entry into a directory, which is made first. The names of entries
are resolved, and one that leads out of the directory ends the extraction, as does an entry that
cannot be written. When all entries are there, each file gets the permissions of its entry, and then
every file below the directory becomes executable.

Entries are files and directories. Left out are links in an archive, the permissions of its directories,
and entries that turn out to be corrupt half-way: an archive can be read or not (`Archive`).
-/

namespace KeywordCensus

/-- An entry of an archive. -/
structure ArchiveEntry where
  /-- Its name, as the path that is spelled so, in bytes. -/
  name : String
  /-- Its content. -/
  content : ByteArray
  /-- Its permission bits. -/
  mode : Nat
  /-- Is it marked as a directory? -/
  isDirectory : Bool

/-- What is offered as an archive. -/
inductive Archive where
  /-- Nothing: there is no such file. -/
  | missing
  /-- A file that is no archive, or a damaged one. -/
  | broken
  /-- The entries of an archive. -/
  | entries (list : List ArchiveEntry)

namespace ArchiveEntry

/-- Is the entry a directory, by its mark or by its name? -/
def makesDirectory (e : ArchiveEntry) : Bool :=
  e.isDirectory || e.name.toList.getLast? = some '/' || e.name.toList.getLast? = some '\\'

/-- Resolve one component of a name: a step up must have something to leave. -/
def resolveStep (done : List String) : Component → Option (List String)
  | .root => none
  | .current => some done
  | .parent => match done with
    | [] => none
    | _ :: before => some before
  | .name s => some (s :: done)

/-- The names that lead to an entry from the directory of the archive, if it lies inside. -/
def names? (e : ArchiveEntry) : Option (List String) :=
  ((Path.mk e.name).components.foldlM resolveStep []).map List.reverse

end ArchiveEntry

namespace Release

open FileTree

/-- Fail with the error for a file operation during extraction. -/
def extracting {α : Type} (action : FileAction IoError α) : FileAction ReleaseError α :=
  ExceptT.adapt (fun _ => ReleaseError.zip) action

/-- Extract one entry. Gives the path and the permissions of a file that was written. -/
def extractEntry (directory : Path) (e : ArchiveEntry) :
    FileAction ReleaseError (Option (Path × Nat)) := do
  match e.names? with
  | none => throw .zip
  | some names =>
    let path := names.foldl Path.child directory
    if e.makesDirectory then
      extracting (makeDirectories path)
      return none
    else
      extracting (makeDirectories (names.dropLast.foldl Path.child directory))
      extracting (writeBytes path e.content)
      return some (path, e.mode)

/-- Give a file its permissions. -/
def setMode (t : FileTree) (path : Path) (mode : Nat) : FileTree :=
  match t.locate path true with
  | .ok place => t.alter place fun
    | some (.file bytes _) => some (.file bytes mode)
    | node? => node?
  | .error _ => t

/-- Extract the entries in order, then set the permissions of the files. -/
def extract (directory : Path) (entries : List ArchiveEntry) : FileAction ReleaseError Unit := do
  let written ← entries.mapM (extractEntry directory)
  modify fun t => (written.filterMap id).foldl (fun t w => setMode t w.1 w.2) t

mutual

/-- A node with every file in it executable; links are left alone. -/
def executableNode : Node → Node
  | .file bytes mode => .file bytes (mode ||| 0o111)
  | .directory entries => .directory (executableEntries entries)
  | node => node

/-- Entries with every file in them executable. -/
def executableEntries : List (String × Node) → List (String × Node)
  | [] => []
  | (name, node) :: rest => (name, executableNode node) :: executableEntries rest

end

/-- Make every file below a directory executable. -/
def makeExecutable (directory : Path) (t : FileTree) : FileTree :=
  match t.locate directory true with
  | .ok place => t.alter place fun node? => node?.map executableNode
  | .error _ => t

/-- Is a file listed below a directory that cannot be reached? -/
def listsOutOfReach (t : FileTree) (directory : Path) : Bool :=
  t.isDirectory directory && (t.filesBelow directory fun _ => true).any fun p => !t.isFile p

/-- Make every file below a directory executable. That fails at a file that cannot be reached. In what
order the files come is up to the system; such a file is taken to come last. -/
def markExecutable (directory : Path) : FileAction ReleaseError Unit := do
  modify (makeExecutable directory)
  if listsOutOfReach (← get) directory then throw (.io .permissionDenied)

/-- Install an archive in a directory. -/
def install (archive : Archive) (directory : Path) : FileAction ReleaseError Unit := do
  ExceptT.adapt ReleaseError.io (makeDirectories directory)
  match archive with
  | .missing => throw (.io .notFound)
  | .broken => throw .zip
  | .entries list =>
    extract directory list
    markExecutable directory

end Release

end KeywordCensus
