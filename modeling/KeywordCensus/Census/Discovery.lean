import KeywordCensus.FileTree.Walk
import KeywordCensus.Path.Normal
import KeywordCensus.Settings.Validated

/-!
# Discovery

The candidates of a census: the specifications below its roots, in walking order and root by root,
without the paths that are left out. When as many are found as the census may have, the next one
ends the discovery; roots after that are not looked at.
-/

namespace KeywordCensus

/-- A file that may be counted. -/
structure Candidate where
  /-- The path at which it was found. -/
  path : Path
  /-- The name of the repository, told by the root below which it was found. -/
  repository : String
  deriving DecidableEq, Repr

/-- Why there is no census. -/
inductive CensusError where
  /-- A root is no directory. -/
  | invalidDirectory (path : Path)
  /-- A clone cannot be brought up to date. -/
  | invalidRemote (cause : RemoteError)
  /-- The parser is not there. -/
  | oracleUnavailable (path : Path)
  /-- The parser breaks off the whole run. -/
  | oracle (cause : OracleError)
  deriving DecidableEq, Repr

/-- The text of an error. -/
def CensusError.message : CensusError → String
  | .invalidDirectory path => s!"The provided path '{path.shown}' is not a valid directory"
  | .invalidRemote cause => cause.message
  | .oracleUnavailable path => s!"no conjure binary available in {path.shown}"
  | .oracle cause => s!"failed to query conjure version: {cause.message}"

/-- What a census accepts. -/
structure Admission where
  /-- The greatest number of candidates. -/
  limit : Option Nat
  /-- Is a path left out? -/
  excluded : Path → Bool

namespace Admission

/-- Are so many candidates as many as there may be? -/
def isReached (a : Admission) (count : Nat) : Bool :=
  match a.limit with
  | none => false
  | some limit => limit ≤ count

end Admission

/-- The state of a discovery. -/
structure Discovery where
  /-- The candidates so far. -/
  found : List Candidate
  /-- Has a file come after as many candidates as there may be? -/
  full : Bool

namespace Discovery

/-- Nothing is found. -/
def start : Discovery := ⟨[], false⟩

/-- Take a file below a root into account. -/
def offer (a : Admission) (repository : String) (d : Discovery) (path : Path) : Discovery :=
  if d.full then d
  else if a.isReached d.found.length then { d with full := true }
  else if a.excluded path then d
  else { d with found := d.found ++ [⟨path, repository⟩] }

/-- The name of the repository whose root a directory is: its last two names. -/
def repositoryName (root : Path) : String := (root.trim 2).shown

/-- Take the files below the roots into account, root by root. -/
def visit (t : FileTree) (a : Admission) : List Path → Discovery → Except CensusError Discovery
  | [], d => .ok d
  | root :: rest, d =>
    if d.full then .ok d
    else match t.essenceFiles? root with
      | none => .error (.invalidDirectory root)
      | some files => visit t a rest (files.foldl (offer a (repositoryName root)) d)

end Discovery

namespace CensusSettings

/-- What the census accepts. -/
def admission (settings : CensusSettings) : Admission :=
  ⟨settings.maxFiles, fun p => settings.exclusion.any fun rule => rule.excludes p⟩

/-- The candidates of a census. -/
def candidates (settings : CensusSettings) (t : FileTree) :
    Except CensusError (List Candidate) :=
  (Discovery.visit t settings.admission (settings.roots.map (·.1)) Discovery.start).map (·.found)

end CensusSettings

end KeywordCensus
