import KeywordCensus.Census.Discovery
import KeywordCensus.Corpus.Index

/-!
# Scanning candidates

A scan takes one candidate after the other: a file that can be parsed is indexed, and one that
cannot is put down as skipped. Scans of neighbouring parts of a list of candidates are merged into
the scan of both.
-/

namespace KeywordCensus

/-- A candidate that could not be counted. -/
structure SkippedFile where
  /-- What is shown of the path at which it was found. -/
  path : String
  /-- Why it was skipped. -/
  reason : String
  deriving DecidableEq, Repr

/-- The skipped file as a record of a report. -/
def SkippedFile.toJson (s : SkippedFile) : Json :=
  .object [("path", .text s.path), ("reason", .text s.reason)]

/-- What is known after some candidates. -/
structure Scan where
  /-- The files that could be parsed, and their keywords. -/
  index : Index
  /-- The others, in the order in which they came. -/
  skipped : List SkippedFile

namespace Scan

/-- Nothing is scanned. -/
def empty : Scan := ⟨Index.empty, []⟩

instance : Inhabited Scan := ⟨empty⟩

/-- Take a candidate into account that has been read or refused. -/
def addResult (s : Scan) (c : Candidate) : Except SpecificationError Specification → Scan
  | .ok file => { s with index := s.index.add (file.inRepository c.repository) }
  | .error e => { s with skipped := s.skipped ++ [⟨c.path.shown, e.message⟩] }

/-- Read a candidate and take it into account. -/
def add (t : FileTree) (oracle : Oracle) (blocked : TextSet) (s : Scan) (c : Candidate) : Scan :=
  s.addResult c (Specification.load t oracle blocked c.path)

/-- The scan of a list of candidates. -/
def ofCandidates (t : FileTree) (oracle : Oracle) (blocked : TextSet) (cs : List Candidate) :
    Scan :=
  cs.foldl (add t oracle blocked) empty

/-- The scan of two neighbouring parts. -/
def merge (s next : Scan) : Scan := ⟨s.index.merge next.index, s.skipped ++ next.skipped⟩

end Scan

end KeywordCensus
