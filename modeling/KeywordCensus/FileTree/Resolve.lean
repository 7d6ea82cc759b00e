import KeywordCensus.FileTree.Basic

/-!
# Following paths

Where a path leads in a file tree: names descend, `..` goes to the parent directory, symbolic links
are replaced by their targets, and every component but the last must be a directory that may be
entered. At most `linkLimit` links are followed, so the search always ends.
-/

namespace KeywordCensus

/-- Where a path leads. -/
inductive Target where
  /-- To something that is there. -/
  | present (place : Location)
  /-- To a name that is free in a directory. -/
  | absent (directory : Location) (name : String)
  deriving DecidableEq, Repr

namespace Path

/-- The segments to follow. A slash at the end, which leaves an empty segment, asks for a directory;
unlike a final `.` it does not ask to enter it. -/
def trail (p : Path) : List String :=
  if p.endsWithSlash then p.segments ++ [""] else p.segments

end Path

namespace FileTree

/-- How many symbolic links one path may lead through. -/
def linkLimit : Nat := 40

/-- Where the following of a path that is met in a directory begins. -/
def startIn (directory : Location) (p : Path) : Location := if p.isAbsolute then [] else directory

/-- Follow segments from a place. `onLink` says where the segments after a link lead. -/
def followFrom (t : FileTree) (followLast : Bool)
    (onLink : Location → List String → Except IoError Target) :
    Location → List String → Except IoError Target
  | place, [] => .ok (.present place)
  | place, segment :: rest =>
    match t.at? place with
    | none => .error .notFound
    | some here =>
      if !here.isDirectory then .error .notADirectory
      else if segment = "" then followFrom t followLast onLink place rest
      else if !here.isOpen then .error .permissionDenied
      else if segment = "." then followFrom t followLast onLink place rest
      else if segment = ".." then followFrom t followLast onLink place.dropLast rest
      else match here.child? segment with
        | none => if rest.isEmpty then .ok (.absent place segment) else .error .notFound
        | some (.link target) =>
          if rest.isEmpty && !followLast then .ok (.present (place ++ [segment]))
          else if target.isEmpty then .error .notFound
          else
            let path : Path := ⟨target⟩
            onLink (startIn place path) (path.trail ++ rest)
        | some _ => followFrom t followLast onLink (place ++ [segment]) rest

/-- Follow segments from a place through at most so many links. -/
def followWithin (t : FileTree) (followLast : Bool) :
    Nat → Location → List String → Except IoError Target
  | 0 => fun _ _ => .error .tooManyLinks
  | links + 1 => followFrom t followLast (followWithin t followLast links)

/-- Where a path leads. A link at its end is followed if `followLast` says so. -/
def resolve (t : FileTree) (p : Path) (followLast : Bool) : Except IoError Target :=
  if p.text.isEmpty then .error .notFound
  else followWithin t followLast (linkLimit + 1) (startIn t.workDir p) p.trail

/-- The place of what stands at a path. -/
def locate (t : FileTree) (p : Path) (followLast : Bool) : Except IoError Location :=
  match t.resolve p followLast with
  | .ok (.present place) => .ok place
  | .ok (.absent _ _) => .error .notFound
  | .error e => .error e

/-- What stands at a path. -/
def lookup (t : FileTree) (p : Path) (followLast : Bool) : Except IoError Node :=
  match t.locate p followLast with
  | .ok place => match t.at? place with
    | some node => .ok node
    | none => .error .notFound
  | .error e => .error e

/-- Is there something at the path, links followed? -/
def pathExists (t : FileTree) (p : Path) : Bool :=
  match t.lookup p true with
  | .ok _ => true
  | .error _ => false

/-- Is there a directory at the path, links followed? -/
def isDirectory (t : FileTree) (p : Path) : Bool :=
  match t.lookup p true with
  | .ok node => node.isDirectory
  | .error _ => false

/-- Is there a regular file at the path, links followed? -/
def isFile (t : FileTree) (p : Path) : Bool :=
  match t.lookup p true with
  | .ok node => node.isFile
  | .error _ => false

/-- The path of the place a path leads to: from the root, without links and steps. -/
def canonicalize (t : FileTree) (p : Path) : Except IoError Path :=
  (t.locate p true).map pathOf

/-- The bytes of a regular file. -/
def readBytes (t : FileTree) (p : Path) : Except IoError ByteArray :=
  match t.lookup p true with
  | .ok (.file bytes _) => .ok bytes
  | .ok _ => .error .isADirectory
  | .error e => .error e

/-- The text of a regular file. -/
def readText (t : FileTree) (p : Path) : Except IoError String :=
  match t.readBytes p with
  | .ok bytes => match String.fromUTF8? bytes with
    | some text => .ok text
    | none => .error .invalidText
  | .error e => .error e

/-- How many lines a text file has. -/
def countLines (t : FileTree) (p : Path) : Except IoError Nat :=
  (t.readText p).map fun text => Text.countLines text.toList

end FileTree

end KeywordCensus
