import KeywordCensus.Census.Scan
import KeywordCensus.Oracle.Process
import KeywordCensus.Remote.Sync

/-!
# The census

A census holds the index of a corpus, the files that were skipped, and the version of the parser, if
the parser told it. `Census.ofOracle` scans the directories as they are; `Census.conduct` first
brings the clones up to date and finds the parser.
-/

namespace KeywordCensus

/-- The result of counting a corpus. -/
structure Census where
  /-- The files and the keywords. -/
  index : Index
  /-- The files that could not be counted. -/
  skipped : List SkippedFile
  /-- The version of the parser. -/
  version : Option VersionInfo

/-- The program that an oracle source stands for. -/
def OracleSource.program (t : FileTree) : OracleSource → Except CensusError Path
  | .binary path => if t.isFile path then .ok path else .error (.oracleUnavailable path)
  | .release cache source =>
    match Release.obtain? t cache source with
    | some path => .ok path
    | none => .error (.oracleUnavailable cache)

/-- The version as a record of a report. -/
def VersionInfo.toJson (info : VersionInfo) : Json :=
  .object [("release", Json.ofText? info.release), ("commit", Json.ofText? info.commit)]

namespace Census

/-- Count the directories as they are, asking a given oracle for the syntax trees. -/
def ofOracle (settings : CensusSettings) (t : FileTree) (oracle : Oracle) :
    Except CensusError Census := do
  let scan := Scan.ofCandidates t oracle settings.blocked (← settings.candidates t)
  return ⟨scan.index, scan.skipped, none⟩

/-- What the oracle says about its version, a failure being no answer unless it breaks off the
run. -/
def versionOf (oracle : Oracle) : Except CensusError (Option VersionInfo) :=
  match oracle.version with
  | .ok info => .ok (some info)
  | .error .clockOverflow => .error (.oracle .clockOverflow)
  | .error _ => .ok none

/-- Bring the clones up to date, find the parser, and count. -/
def conduct (m : Machine) (settings : CensusSettings) : FileAction CensusError Census := do
  if settings.online then
    ExceptT.adapt CensusError.invalidRemote
      (Remote.syncAll m.hosts settings.directory settings.remotes)
  let t ← get
  let program ← settings.oracle.program t
  let oracle := (ProcessOracle.mk program settings.timeout).toOracle m t
  -- The version is asked for before the scan, but a census without it is still a census.
  let version ← versionOf oracle
  let census ← ofOracle settings t oracle
  return { census with version := version }

/-- An ordering, or its opposite. -/
def directed (descending : Bool) (o : Ordering) : Ordering := if descending then o.swap else o

/-- Sort a list by a key, ascending or descending; neighbours with equal keys stay as they are. -/
def sortBy {α β : Type} (compare : β → β → Ordering) (key : α → β) (descending : Bool)
    (xs : List α) : List α :=
  xs.mergeSort fun a b => (directed descending (compare (key a) (key b))).isLE

/-- The files, by path. -/
def files (c : Census) : List Specification := c.index.files.values

/-- The files by number of lines, those with equally many by path. -/
def filesByLines (c : Census) (descending : Bool) : List Specification :=
  sortBy compare Specification.lines descending c.files

/-- The keywords, by name. -/
def keywords (c : Census) : List Usage := c.index.keywords.values

/-- The keywords in one of the orders, equal ones by name. -/
def keywordsBy (c : Census) (order : KeywordOrder) (descending : Bool) : List Usage :=
  match order with
  | .mostUsed => sortBy compare Usage.total descending c.keywords
  | .averageUses => sortBy Floating.order Usage.averageOrZero descending c.keywords

/-- The file whose canonical path is shown as a text. -/
def file? (c : Census) (path : String) : Option Specification := c.index.files.get? path

/-- The usage of a keyword. -/
def keyword? (c : Census) (name : String) : Option Usage := c.index.keywords.get? name

/-- The census as a report, with a given number of names of each path. -/
def toJson (c : Census) (depth : Nat) : Json :=
  .object [("oracle_version", match c.version with
      | some info => info.toJson
      | none => .null),
    ("essence_files", .array (c.files.map fun f => f.toJson depth)),
    ("essence_keywords", .array (c.keywords.map fun k => k.toJson depth)),
    ("skipped_files", .array (c.skipped.map SkippedFile.toJson))]

end Census

end KeywordCensus
