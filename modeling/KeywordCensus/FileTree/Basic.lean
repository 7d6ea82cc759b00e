import KeywordCensus.Path.Basic
import KeywordCensus.SortedMap

/-!
# File trees

A file tree is a value: regular files with their bytes and permissions, symbolic links, directories
with their entries in name order, and the control directories of git repositories, which are opaque
to everything but git. Names and the targets of links are bytes, written as texts with one character
for each (`Text.toBytes`), so that their order is that of the bytes. A place in a tree is given by
the names that lead to it from the root.

Of the permissions of a directory it matters whether it may be entered. In a directory that may not
be entered nothing can be reached, looked at or changed, but if it may be read, the names and kinds
of its entries are known.

Other permissions are left out: a directory that may be entered may be read and changed as well, and
every regular file may be read (what cannot be written is up to the disk, `Disk`). So are limits on the
lengths of names and paths, files that are neither regular nor links nor directories, and changes by
others while the program runs.
-/

namespace KeywordCensus

/-- The name of the control directory of a clone. -/
def controlDirectory : String := ".git"

/-- The names that lead from the top directory of a repository to one of its files. -/
def fileNames (file : String) : List String := (Path.mk file).segments

/-- Can the files of a record all stand in one work tree? Each one has names that lead to it, none
of them that of the control directory, and none stands where another needs a directory. -/
def FitsWorkTree (files : SortedMap String) : Prop :=
  (∀ file ∈ files.keys, fileNames file ≠ [] ∧
    ∀ name ∈ fileNames file, Path.IsName name ∧ name ≠ controlDirectory) ∧
  ∀ file ∈ files.keys, ∀ other ∈ files.keys, fileNames file <+: fileNames other → file = other

instance : DecidablePred FitsWorkTree := fun files =>
  inferInstanceAs (Decidable ((∀ file ∈ files.keys, fileNames file ≠ [] ∧
    ∀ name ∈ fileNames file, Path.IsName name ∧ name ≠ controlDirectory) ∧
    ∀ file ∈ files.keys, ∀ other ∈ files.keys, fileNames file <+: fileNames other → file = other))

/-- One recorded state of a repository. Two records are the same commit if they agree in all that
they hold. -/
structure Commit where
  /-- What tells the commit from others with the same files. -/
  label : Nat
  /-- The content of each file, by its path below the top directory. -/
  files : SortedMap String
  /-- The files can stand in one work tree. -/
  fits : FitsWorkTree files
  deriving DecidableEq

/-- What other machines show: the commit at a branch of the repository at a url, if it answers and
has the branch. -/
abbrev Hosts := String → String → Option Commit

/-- No other machine answers. -/
def Hosts.silent : Hosts := fun _ _ => none

/-- What the control directory of a repository records. -/
inductive Repository where
  /-- A repository without a work tree: the commit at each branch. -/
  | bare (branches : SortedMap Commit)
  /-- A clone: the url it was made from, the branch that is checked out, the commit at each local
  branch, and the files that the last check-out wrote. -/
  | clone (origin head : String) (branches : SortedMap Commit) (tracked : List String)

/-- What kind of thing an entry of a directory is listed as, a link being a kind of its own. -/
inductive EntryKind where
  /-- A regular file. -/
  | file
  /-- A directory. -/
  | directory
  /-- A symbolic link. -/
  | link
  deriving DecidableEq, Repr

/-- What stands at a place of a file tree. -/
inductive Node where
  /-- A regular file with its permission bits. -/
  | file (bytes : ByteArray) (mode : Nat)
  /-- A symbolic link with its target as it is spelled. -/
  | link (target : String)
  /-- The control directory of a repository. -/
  | repository (data : Repository)
  /-- A directory that may not be entered, with what is listed in it, in name order. It may be
  readable or not. -/
  | closed (readable : Bool) (entries : List (String × EntryKind))
  /-- A directory, its entries in name order. -/
  | directory (entries : List (String × Node))

instance : Inhabited Node := ⟨.directory []⟩

/-- A place in a file tree: the names that lead to it from the root. -/
abbrev Location : Type := List String

/-- Why an operation on files fails. -/
inductive IoError where
  /-- Nothing stands at the path. -/
  | notFound
  /-- The permissions forbid it. -/
  | permissionDenied
  /-- Something stands at the path already. -/
  | alreadyExists
  /-- What should be a directory is none. -/
  | notADirectory
  /-- What should not be a directory is one. -/
  | isADirectory
  /-- The path makes no sense for the operation. -/
  | invalidArgument
  /-- The directory has entries. -/
  | notEmpty
  /-- Links lead to links without end. -/
  | tooManyLinks
  /-- The bytes are no text. -/
  | invalidText
  /-- The disk is full. -/
  | noSpace
  /-- The disk takes no writing. -/
  | readOnly
  deriving DecidableEq, Repr

/-- The text of an error. -/
def IoError.message : IoError → String
  | .notFound => "No such file or directory (os error 2)"
  | .permissionDenied => "Permission denied (os error 13)"
  | .alreadyExists => "File exists (os error 17)"
  | .notADirectory => "Not a directory (os error 20)"
  | .isADirectory => "Is a directory (os error 21)"
  | .invalidArgument => "Invalid argument (os error 22)"
  | .notEmpty => "Directory not empty (os error 39)"
  | .tooManyLinks => "Too many levels of symbolic links (os error 40)"
  | .invalidText => "stream did not contain valid UTF-8"
  | .noSpace => "No space left on device (os error 28)"
  | .readOnly => "Read-only file system (os error 30)"

namespace Node

/-- Is this a directory, control directories and those that may not be entered included? -/
def isDirectory : Node → Bool
  | .directory _ => true
  | .repository _ => true
  | .closed .. => true
  | _ => false

/-- Is this a directory that may be entered? -/
def isOpen : Node → Bool
  | .directory _ => true
  | .repository _ => true
  | _ => false

/-- Is this a regular file? -/
def isFile : Node → Bool
  | .file .. => true
  | _ => false

/-- The entry of a directory with a given name. -/
def child? (name : String) : Node → Option Node
  | .directory entries => Entries.get? name entries
  | _ => none

/-- What stands at a place below a node. -/
def at? : Location → Node → Option Node
  | [], node => some node
  | name :: rest, node => (node.child? name).bind (at? rest)

mutual

/-- Do a node and everything below it pass a test? -/
def all (test : Node → Bool) : Node → Bool
  | .directory entries => test (.directory entries) && allEntries test entries
  | node => test node

/-- Does everything at and below some entries pass a test? -/
def allEntries (test : Node → Bool) : List (String × Node) → Bool
  | [] => true
  | (_, node) :: rest => node.all test && allEntries test rest

end

/-- The entries without the one of a given name. -/
def removeEntry (name : String) (entries : List (String × Node)) : List (String × Node) :=
  entries.filter fun e => e.1 != name

/-- Change what stands at a place, given as present or absent; the directories that lead to it must
be there, or nothing changes. -/
def alter (change : Option Node → Option Node) : Location → Option Node → Option Node
  | [], node? => change node?
  | name :: rest, some (.directory entries) =>
    match alter change rest (Entries.get? name entries) with
    | none => some (.directory (removeEntry name entries))
    | some node => some (.directory (Entries.insert name node entries))
  | _ :: _, node? => node?

end Node

/-- A file tree together with the directory in which relative paths begin. -/
structure FileTree where
  /-- What stands at the root. -/
  root : Node
  /-- The working directory. -/
  workDir : Location
  /-- The working directory is given by names. -/
  workDir_named : ∀ name ∈ workDir, Path.IsName name

namespace FileTree

/-- What stands at a place. -/
def at? (t : FileTree) (place : Location) : Option Node := t.root.at? place

/-- Change what stands at a place, given as present or absent. The root itself cannot be removed. -/
def alter (t : FileTree) (place : Location) (change : Option Node → Option Node) : FileTree :=
  { t with root := (Node.alter change place (some t.root)).getD (.directory []) }

/-- Put a node at a place whose directory is there. -/
def put (t : FileTree) (place : Location) (node : Node) : FileTree :=
  t.alter place fun _ => some node

/-- Remove what stands at a place. -/
def removeAt (t : FileTree) (place : Location) : FileTree := t.alter place fun _ => none

/-- The path of a place, from the root. -/
def pathOf (place : Location) : Path :=
  ⟨String.ofList (Path.render (.root :: place.map Component.name))⟩

end FileTree

end KeywordCensus
