import KeywordCensus.Corpus.KeyCount
import KeywordCensus.FileTree.Resolve
import KeywordCensus.Oracle.Basic
import KeywordCensus.Path.Normal

/-!
# Specifications

A specification is an Essence file that has been parsed: its canonical path, its syntax tree, how
often each key occurs in the tree, its number of lines, and the repository it belongs to, if any.
Two specifications are the same file if their paths are equal.
-/

namespace KeywordCensus

/-- A parsed Essence file. -/
structure Specification where
  /-- The canonical path. -/
  path : Path
  /-- The syntax tree. -/
  tree : Json
  /-- How often each key occurs in the tree, blocked keys left out. -/
  counts : Tally
  /-- The number of lines. -/
  lines : Nat
  /-- The repository it belongs to. -/
  repository : Option String

/-- Why the content of a file cannot be used. -/
inductive ParseFailure where
  /-- The parser gives no tree. -/
  | oracle (cause : OracleError)
  /-- The file cannot be read. -/
  | unreadable (cause : IoError)
  deriving DecidableEq, Repr

/-- The text of a failure. -/
def ParseFailure.message : ParseFailure → String
  | .oracle cause => cause.message
  | .unreadable cause => cause.message

/-- Why a path gives no specification. -/
inductive SpecificationError where
  /-- The path does not lead to an Essence file. -/
  | invalidPath (path : Path)
  /-- The file at a canonical path cannot be used. -/
  | notParsable (path : Path) (cause : ParseFailure)
  deriving DecidableEq, Repr

/-- The text of an error. -/
def SpecificationError.message : SpecificationError → String
  | .invalidPath path => s!"Not a valid Essence file: {path.shown}"
  | .notParsable path cause =>
    s!"Essence file could not be parsed: {path.shown}, reason: {cause.message}"

namespace Specification

/-- The canonical path of an Essence file, if that is what a path leads to. -/
def canonicalPath? (t : FileTree) (path : Path) : Option Path :=
  match t.canonicalize path with
  | .ok canonical =>
    if t.isFile canonical && canonical.isEssence then some canonical else none
  | .error _ => none

/-- Read the specification at a path. -/
def load (t : FileTree) (oracle : Oracle) (blocked : TextSet) (path : Path) :
    Except SpecificationError Specification :=
  match canonicalPath? t path with
  | none => .error (.invalidPath path)
  | some canonical =>
    match oracle.parse canonical with
    | .error e => .error (.notParsable canonical (.oracle e))
    | .ok tree =>
      match t.countLines canonical with
      | .error e => .error (.notParsable canonical (.unreadable e))
      | .ok lines => .ok ⟨canonical, tree, countKeys blocked tree, lines, none⟩

/-- The specification as part of a repository. -/
def inRepository (s : Specification) (name : String) : Specification :=
  { s with repository := some name }

/-- What is shown of the path, trimmed to its last names. -/
def pathText (s : Specification) (depth : Nat) : String := (s.path.trim depth).shown

/-- How often the specification uses a keyword. -/
def uses (s : Specification) (keyword : String) : Nat := s.counts.count keyword

/-- The keywords it uses, in order. -/
def keywords (s : Specification) : List String := s.counts.keys

/-- One line that describes the specification. -/
def summary (s : Specification) : String := s!"EssenceFile({s.path.shown}): {s.lines} lines"

/-- The specification as a record of a report. -/
def toJson (s : Specification) (depth : Nat) : Json :=
  .object [("path", .text (s.pathText depth)), ("repo", Json.ofText? s.repository), ("ast", s.tree),
    ("keyword_counts", Json.ofMap Json.ofNat s.counts), ("n_lines", Json.ofNat s.lines)]

end Specification

end KeywordCensus
