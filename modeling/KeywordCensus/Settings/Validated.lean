import KeywordCensus.Oracle.Basic
import KeywordCensus.Pattern.Parser
import KeywordCensus.Release.Cache
import KeywordCensus.Remote.Basic
import KeywordCensus.Settings.Arguments

/-!
# Validated settings

What a census and its report need to know, checked for sense. The checks have an order, and the
first one that fails is reported: the two directories that are always needed, the remotes, the
parser, the numbers that must not be zero, and the pattern.
-/

namespace KeywordCensus

/-- Where the parser comes from. -/
inductive OracleSource where
  /-- A given program. -/
  | binary (path : Path)
  /-- A release from a cache directory. -/
  | release (cache : Path) (source : ReleaseSource)
  deriving DecidableEq, Repr

/-- A rule that leaves out paths. -/
structure Exclusion where
  /-- The text of the pattern. -/
  text : String
  /-- What it matches. -/
  pattern : Pattern

namespace Exclusion

/-- Read the rule from a setting; a blank one excludes nothing. -/
def ofSetting (value : Option String) : Except SettingError (Option Exclusion) :=
  match (value.map Text.trim).filter fun s => !s.isEmpty with
  | none => .ok none
  | some text =>
    match Pattern.ofText? text with
    | some pattern => .ok (some ⟨text, pattern⟩)
    | none => .error (.invalid .excludePattern Pattern.refusal)

/-- Does the rule leave out a path? -/
def excludes (rule : Exclusion) (p : Path) : Bool := rule.pattern.isIn p.shown

end Exclusion

/-- The keys of a blocklist: its entries without the blanks around them, empty ones left out. -/
def blocklist (entries : List String) : TextSet :=
  SortedMap.setOf ((entries.map Text.trim).filter fun s => !s.isEmpty)

/-- What a census needs to know. -/
structure CensusSettings where
  /-- The directory of the clones, or of the specifications if there is no remote. -/
  directory : Path
  /-- The remotes. -/
  remotes : List Remote
  /-- Where the parser comes from. -/
  oracle : OracleSource
  /-- How long the parser may take for one file. -/
  timeout : Span
  /-- The keys that are not counted. -/
  blocked : TextSet
  /-- The paths to leave out. -/
  exclusion : Option Exclusion
  /-- The greatest number of files. -/
  maxFiles : Option Nat
  /-- Are the clones brought up to date first? -/
  online : Bool

/-- What a report needs to know. -/
structure ReportSettings where
  /-- The file of the report. -/
  output : Path
  /-- Its format. -/
  format : ReportFormat
  /-- The greatest number of keywords. -/
  maxKeywords : Nat
  /-- The greatest number of files that a heat map shows. -/
  maxFiles : Option Nat
  /-- The number of names that are shown of a path, all of them for zero. -/
  pathDepth : Nat
  /-- The order of the keywords of a heat map. -/
  keywordOrder : KeywordOrder

namespace CensusSettings

/-- The directories whose specifications are counted: the clone of each remote, or the directory
itself if there is none. -/
def roots (settings : CensusSettings) : List (Path × Option Remote) :=
  match settings.remotes with
  | [] => [(settings.directory, none)]
  | remotes => remotes.map fun r => (r.cloneDirectory settings.directory, some r)

end CensusSettings

namespace Arguments

/-- The branch of a remote, unless something else is given. -/
def defaultBranch : String := "master"

/-- The repository of the parser, unless another one is given. -/
def defaultConjureRepository : String := "https://github.com/conjure-cp/conjure"

/-- The platform of the parser, unless another one is given. -/
def defaultPlatform : String := "linux"

/-- The seconds that the parser may take, unless another number is given. -/
def defaultTimeout : Nat := 60

/-- The number of keywords of a report, unless another one is given. -/
def defaultMaxKeywords : Nat := 200

/-- The number of names of a path, unless another one is given. -/
def defaultPathDepth : Nat := 4

/-- The value of a setting that must be given. -/
def require {α : Type} (setting : Setting) : Option α → Except SettingError α
  | some value => .ok value
  | .none => .error (.missing setting)

/-- Why a number must not be zero. -/
def zeroReason : String := "must be at least 1"

/-- Where the parser comes from: a program that is given wins over a cache of releases. -/
def oracleSource (a : Arguments) : Except SettingError OracleSource :=
  match a.conjureBinary, a.conjureDirectory with
  | some binary, _ => .ok (.binary binary)
  | .none, some cache =>
    .ok (.release cache
      ⟨a.conjureRepository.getD defaultConjureRepository, a.conjureVersion.getD Release.latest,
        a.conjurePlatform.getD defaultPlatform, ReleaseSource.defaultApiBase⟩)
  | .none, .none => .error (.missing .conjureDirectory)

/-- The remotes, blank ones left out. -/
def remotes (a : Arguments) : Except SettingError (List Remote) :=
  ((a.essenceRepositories.getD []).filter fun value => !Text.isBlankText value).mapM fun value =>
    Remote.ofSetting value (a.essenceBranch.getD defaultBranch)

/-- The settings of the census and of its report. -/
def validate (a : Arguments) : Except SettingError (CensusSettings × ReportSettings) := do
  let directory ← require .essenceDirectory a.essenceDirectory
  let output ← require .output a.output
  let remotes ← a.remotes
  let oracle ← a.oracleSource
  let seconds := a.oracleTimeout.getD defaultTimeout
  if seconds = 0 then throw (.invalid .oracleTimeout zeroReason)
  if a.maxFiles = some 0 then throw (.invalid .maxFiles zeroReason)
  let exclusion ← Exclusion.ofSetting a.excludePattern
  return (⟨directory, remotes, oracle, Span.ofSeconds seconds,
      blocklist (a.keywordBlocklist.getD []), exclusion, a.maxFiles, !a.offline⟩,
    ⟨output, a.format.getD .html, a.maxKeywords.getD defaultMaxKeywords, a.maxDisplayFiles,
      a.pathDepth.getD defaultPathDepth, a.keywordOrder.getD .mostUsed⟩)

end Arguments

end KeywordCensus
