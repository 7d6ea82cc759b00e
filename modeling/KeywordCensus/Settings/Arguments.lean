import KeywordCensus.Path.Basic
import KeywordCensus.Power
import KeywordCensus.Settings.Basic
import KeywordCensus.Settings.Choice

/-!
# Arguments

The values that the settings are given, each read from its text: paths are not empty, numbers have
64 bits, choices are words, and the texts of lists are cut at commas.
-/

namespace KeywordCensus

/-- Why the reading of the arguments ends early. -/
inductive ArgumentStop where
  /-- An argument is neither an option nor the value of one. -/
  | unknownArgument
  /-- An option has no value, or one that it does not know. -/
  | invalidValue
  /-- The value of an option is no number. -/
  | malformedNumber
  /-- An option that takes one value is given twice. -/
  | repeated
  /-- An option that takes no value is given one. -/
  | unexpectedValue
  /-- Help is asked for. -/
  | help
  /-- The version is asked for. -/
  | version
  deriving DecidableEq, Repr

/-- What the settings are given. -/
structure Arguments where
  /-- The remotes. -/
  essenceRepositories : Option (List String)
  /-- The branch of a remote that names none. -/
  essenceBranch : Option String
  /-- The directory of the clones or specifications. -/
  essenceDirectory : Option Path
  /-- The directory of the parser's releases. -/
  conjureDirectory : Option Path
  /-- The program that parses. -/
  conjureBinary : Option Path
  /-- The repository that publishes the parser's releases. -/
  conjureRepository : Option String
  /-- The release of the parser. -/
  conjureVersion : Option String
  /-- The platform of the release. -/
  conjurePlatform : Option String
  /-- The seconds that the parser may take for one file. -/
  oracleTimeout : Option Nat
  /-- The keys that are not counted. -/
  keywordBlocklist : Option (List String)
  /-- The pattern of paths to leave out. -/
  excludePattern : Option String
  /-- The greatest number of files. -/
  maxFiles : Option Nat
  /-- The greatest number of files that a heat map shows. -/
  maxDisplayFiles : Option Nat
  /-- The greatest number of keywords that a report shows. -/
  maxKeywords : Option Nat
  /-- The file of the report. -/
  output : Option Path
  /-- The format of the report. -/
  format : Option ReportFormat
  /-- The number of names that a report shows of a path. -/
  pathDepth : Option Nat
  /-- The order of the keywords of a heat map. -/
  keywordOrder : Option KeywordOrder
  /-- Are the clones to be taken as they are? -/
  offline : Bool
  deriving DecidableEq, Repr

namespace Arguments

/-- Nothing is given. -/
def none : Arguments :=
  ⟨.none, .none, .none, .none, .none, .none, .none, .none, .none, .none, .none, .none, .none, .none,
    .none, .none, .none, .none, false⟩

/-- Read a path. -/
def readPath (value : String) : Except ArgumentStop Path :=
  if value.isEmpty then .error .invalidValue else .ok (Path.ofText value)

/-- Read a number of 64 bits: digits, perhaps after a plus sign. -/
def readNumber (value : String) : Except ArgumentStop Nat :=
  let digits := (Text.afterStart? ['+'] value.toList).getD value.toList
  if digits.isEmpty || !digits.all Char.isDigit then .error .malformedNumber
  else
    let n := digits.foldl (fun n c => n * 10 + (c.toNat - '0'.toNat)) 0
    if n < twoPow 64 then .ok n else .error .malformedNumber

/-- Read one of a few words. -/
def readWord {α : Type} (ofWord? : String → Option α) (value : String) : Except ArgumentStop α :=
  match ofWord? value with
  | some choice => .ok choice
  | .none => .error .invalidValue

/-- Cut the text of a list. -/
def readList (value : String) : List String :=
  (Text.splitOn ',' value.toList).map String.ofList

/-- Is a setting given? -/
def has (a : Arguments) : Setting → Bool
  | .essenceRepositories => a.essenceRepositories.isSome
  | .essenceBranch => a.essenceBranch.isSome
  | .essenceDirectory => a.essenceDirectory.isSome
  | .conjureDirectory => a.conjureDirectory.isSome
  | .conjureBinary => a.conjureBinary.isSome
  | .conjureRepository => a.conjureRepository.isSome
  | .conjureVersion => a.conjureVersion.isSome
  | .conjurePlatform => a.conjurePlatform.isSome
  | .oracleTimeout => a.oracleTimeout.isSome
  | .keywordBlocklist => a.keywordBlocklist.isSome
  | .excludePattern => a.excludePattern.isSome
  | .maxFiles => a.maxFiles.isSome
  | .maxDisplayFiles => a.maxDisplayFiles.isSome
  | .maxKeywords => a.maxKeywords.isSome
  | .output => a.output.isSome
  | .format => a.format.isSome
  | .pathDepth => a.pathDepth.isSome
  | .keywordOrder => a.keywordOrder.isSome

/-- Give a setting a value; the values of a list come after those that it has. -/
def set (a : Arguments) (setting : Setting) (value : String) : Except ArgumentStop Arguments :=
  match setting with
  | .essenceRepositories =>
    .ok { a with essenceRepositories := some (a.essenceRepositories.getD [] ++ readList value) }
  | .essenceBranch => .ok { a with essenceBranch := some value }
  | .essenceDirectory => (readPath value).map fun p => { a with essenceDirectory := some p }
  | .conjureDirectory => (readPath value).map fun p => { a with conjureDirectory := some p }
  | .conjureBinary => (readPath value).map fun p => { a with conjureBinary := some p }
  | .conjureRepository => .ok { a with conjureRepository := some value }
  | .conjureVersion => .ok { a with conjureVersion := some value }
  | .conjurePlatform => .ok { a with conjurePlatform := some value }
  | .oracleTimeout => (readNumber value).map fun n => { a with oracleTimeout := some n }
  | .keywordBlocklist =>
    .ok { a with keywordBlocklist := some (a.keywordBlocklist.getD [] ++ readList value) }
  | .excludePattern => .ok { a with excludePattern := some value }
  | .maxFiles => (readNumber value).map fun n => { a with maxFiles := some n }
  | .maxDisplayFiles => (readNumber value).map fun n => { a with maxDisplayFiles := some n }
  | .maxKeywords => (readNumber value).map fun n => { a with maxKeywords := some n }
  | .output => (readPath value).map fun p => { a with output := some p }
  | .format => (readWord ReportFormat.ofWord? value).map fun f => { a with format := some f }
  | .pathDepth => (readNumber value).map fun n => { a with pathDepth := some n }
  | .keywordOrder =>
    (readWord KeywordOrder.ofWord? value).map fun o => { a with keywordOrder := some o }

/-- Give a setting a value on the command line, where only lists may be given twice. -/
def give (a : Arguments) (setting : Setting) (value : String) : Except ArgumentStop Arguments :=
  if a.has setting && !setting.isList then .error .repeated else a.set setting value

end Arguments

end KeywordCensus
