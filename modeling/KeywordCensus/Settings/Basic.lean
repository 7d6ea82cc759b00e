/-!
# Settings

Every setting has a long option on the command line, and nearly every one a name in the environment;
messages call it by the name in the environment. The order of `Setting.all` is the order in which
the environment is looked at.
-/

namespace KeywordCensus

/-- A setting that has a value. -/
inductive Setting where
  /-- The remotes whose specifications are counted. -/
  | essenceRepositories
  /-- The branch of a remote that names none. -/
  | essenceBranch
  /-- The directory of the clones, or of the specifications if there is no remote. -/
  | essenceDirectory
  /-- The directory of the parser's releases. -/
  | conjureDirectory
  /-- The program that parses. -/
  | conjureBinary
  /-- The repository that publishes the parser's releases. -/
  | conjureRepository
  /-- The release of the parser. -/
  | conjureVersion
  /-- The platform of the release. -/
  | conjurePlatform
  /-- The seconds that the parser may take for one file. -/
  | oracleTimeout
  /-- The keys that are not counted. -/
  | keywordBlocklist
  /-- The pattern of paths to leave out. -/
  | excludePattern
  /-- The greatest number of files. -/
  | maxFiles
  /-- The greatest number of files that a heat map shows. -/
  | maxDisplayFiles
  /-- The greatest number of keywords that a report shows. -/
  | maxKeywords
  /-- The file of the report. -/
  | output
  /-- The format of the report. -/
  | format
  /-- The number of names that a report shows of a path. -/
  | pathDepth
  /-- The order of the keywords of a heat map. -/
  | keywordOrder
  deriving DecidableEq, Repr

namespace Setting

/-- All settings. -/
def all : List Setting :=
  [essenceRepositories, essenceBranch, essenceDirectory, conjureDirectory, conjureBinary,
    conjureRepository, conjureVersion, conjurePlatform, oracleTimeout, keywordBlocklist,
    excludePattern, maxFiles, maxDisplayFiles, maxKeywords, output, format, pathDepth, keywordOrder]

/-- The option on the command line, without its dashes. -/
def optionName : Setting → String
  | essenceRepositories => "essence-repo"
  | essenceBranch => "essence-branch"
  | essenceDirectory => "essence-dir"
  | conjureDirectory => "conjure-dir"
  | conjureBinary => "conjure-bin"
  | conjureRepository => "conjure-repo"
  | conjureVersion => "conjure-version"
  | conjurePlatform => "conjure-platform"
  | oracleTimeout => "oracle-timeout-secs"
  | keywordBlocklist => "keyword-blocklist"
  | excludePattern => "exclude-paths-regex"
  | maxFiles => "max-n-files"
  | maxDisplayFiles => "max-n-display-files"
  | maxKeywords => "max-n-keywords"
  | output => "output"
  | format => "format"
  | pathDepth => "path-depth"
  | keywordOrder => "keyword-sort"

/-- The name in the environment. -/
def environmentName? : Setting → Option String
  | essenceRepositories => some "ESSENCE_EXAMPLES_REPO"
  | essenceBranch => some "ESSENCE_BRANCH"
  | essenceDirectory => some "ESSENCE_DIR"
  | conjureDirectory => some "CONJURE_DIR"
  | conjureBinary => some "CONJURE_BIN"
  | conjureRepository => some "CONJURE_REPO"
  | conjureVersion => some "CONJURE_VERSION"
  | conjurePlatform => some "CONJURE_PLATFORM"
  | oracleTimeout => some "ORACLE_TIMEOUT_SECS"
  | keywordBlocklist => some "KEYWORD_BLOCKLIST"
  | excludePattern => some "EXCLUDE_PATHS_REGEX"
  | maxFiles => some "MAX_N_FILES"
  | maxDisplayFiles => some "MAX_N_DISPLAY_FILES"
  | maxKeywords => some "MAX_N_KEYWORDS"
  | output => some "OUTPUT_PATH"
  | format => some "OUTPUT_FORMAT"
  | pathDepth => some "PATH_DEPTH"
  | keywordOrder => none

/-- What messages call the setting. -/
def name (s : Setting) : String := s.environmentName?.getD s.optionName

/-- May the option be repeated, each value adding to the ones before? -/
def isList : Setting → Bool
  | essenceRepositories => true
  | keywordBlocklist => true
  | _ => false

/-- The setting with a given option. -/
def ofOptionName? (option : String) : Option Setting := all.find? fun s => s.optionName == option

@[simp] theorem ofOptionName?_optionName (s : Setting) : ofOptionName? s.optionName = some s := by
  cases s <;> decide +kernel

end Setting

/-- What is wrong with the settings. -/
inductive SettingError where
  /-- A setting that is needed is not given. -/
  | missing (setting : Setting)
  /-- A setting has a value that makes no sense. -/
  | invalid (setting : Setting) (reason : String)
  deriving DecidableEq, Repr

/-- The text of an error. -/
def SettingError.message : SettingError → String
  | .missing setting => s!"missing required setting {setting.name}"
  | .invalid setting reason => s!"invalid value for {setting.name}: {reason}"

end KeywordCensus
