import KeywordCensus.FileTree.Edit

/-!
# Writing to a disk

What a file tree allows may still fail: the user has no permission, the disk is full or takes no
writing. A disk is given by these failures. It can refuse to make a directory, and it can refuse to
open a file, and neither changes anything. But a file that has been opened is empty already, or has
just come to be, and if the writing breaks off then, it keeps what has been written so far.

Only reports are written to a disk that can fail. Clones and archives are written as if the disk took
everything.
-/

namespace KeywordCensus

/-- What fails on a disk, in a given state of its files. -/
structure Disk where
  /-- Why no directory is made at a path where one could be. -/
  directoryFault : FileTree → Path → Option IoError
  /-- Why a file at a path is not opened for writing. -/
  openingFault : FileTree → Path → Option IoError
  /-- After how many bytes the writing to a file that has been opened breaks off, and why. -/
  writingFault : FileTree → Path → ByteArray → Option (Nat × IoError)

namespace Disk

/-- A disk on which nothing fails. -/
def reliable : Disk := ⟨fun _ _ => none, fun _ _ => none, fun _ _ _ => none⟩

instance : Inhabited Disk := ⟨reliable⟩

variable (d : Disk)

/-- Create one directory. -/
def makeDirectory (t : FileTree) (p : Path) : Except IoError FileTree :=
  match t.makeDirectory p with
  | .error e => .error e
  | .ok made =>
    match d.directoryFault t p with
    | some e => .error e
    | none => .ok made

/-- Create a directory and those that lead to it. -/
def makeDirectories (p : Path) : FileAction IoError Unit :=
  FileTree.makeDirectoriesWith d.makeDirectory (p.components.length + 1) p

/-- Create the directories that lead to a path. -/
def makeWay (p : Path) : FileAction IoError Unit :=
  match p.parent? with
  | some parent => unless parent.text.isEmpty do d.makeDirectories parent
  | none => pure ()

/-- Create a file with given bytes, or overwrite one and keep its permissions. -/
def writeBytes (p : Path) (bytes : ByteArray) : FileAction IoError Unit := do
  let t ← get
  match t.placeToWrite p with
  | .error e => throw e
  | .ok place =>
    match d.openingFault t p with
    | some e => throw e
    | none =>
      match d.writingFault t p bytes with
      | none => set (t.alter place (FileTree.overwrite bytes))
      | some (count, e) =>
        set (t.alter place (FileTree.overwrite (bytes.extract 0 count)))
        throw e

/-- Create a file with a given text, or overwrite one. -/
def writeText (p : Path) (text : String) : FileAction IoError Unit := d.writeBytes p text.toUTF8

end Disk

end KeywordCensus
