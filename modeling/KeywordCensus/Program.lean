import KeywordCensus.Report.Basic
import KeywordCensus.Settings.CommandLine

/-!
# The program

A run of the program on a machine: it reads its settings, conducts a census and writes the report.
How it ends is told by its exit status and by what it prints.
-/

namespace KeywordCensus

/-- Why a run has no report. -/
inductive RunError where
  /-- The settings make no sense. -/
  | settings (cause : SettingError)
  /-- There is no census. -/
  | census (cause : CensusError)
  /-- The report cannot be written. -/
  | report (cause : ReportError)
  deriving DecidableEq, Repr

/-- The text of an error. -/
def RunError.message : RunError → String
  | .settings cause => cause.message
  | .census cause => cause.message
  | .report cause => cause.message

/-- How a run ends. -/
structure Outcome where
  /-- The exit status. -/
  status : Nat
  /-- What is printed. -/
  stdout : String
  /-- What is printed about a failure. -/
  stderr : String
  deriving DecidableEq, Repr

namespace Program

/-- The name of the program. -/
def name : String := "essence-stats"

/-- The version of the program. -/
def version : String := "0.1.0"

/-- The line that tells the version. -/
def versionLine : String := s!"{name} {version}\n"

/-- How a setting is given. -/
def settingUsage (s : Setting) : String :=
  match s.environmentName? with
  | some name => s!"  --{s.optionName} <value>  or {name} in the environment\n"
  | none => s!"  --{s.optionName} <value>\n"

/-- How the program is used. -/
def usage : String :=
  s!"Usage: {name} [options]\n\n" ++ String.join (Setting.all.map settingUsage) ++
    String.join (Flag.all.map fun f => s!"  --{f.optionName}\n")

/-- Conduct a census with validated settings and write its report. -/
def perform (m : Machine) (moment : String) (census : CensusSettings) (report : ReportSettings) :
    FileAction RunError Unit := do
  let c ← ExceptT.adapt RunError.census (Census.conduct m census)
  ExceptT.adapt RunError.report (c.writeReport m.disk report moment)

/-- Validate the settings, conduct the census and write the report. -/
def conduct (m : Machine) (moment : String) (arguments : Arguments) : FileAction RunError Unit := do
  let (census, report) ← ExceptT.adapt RunError.settings (liftM arguments.validate)
  perform m moment census report

/-- The exit status after a failure: the run ends by itself, or it breaks off. -/
def failureStatus : RunError → Nat
  | .census (.oracle .clockOverflow) => 101
  | _ => 1

/-- How a run ends whose arguments make no sense or ask for something else. -/
def stopOutcome : ArgumentStop → Outcome
  | .help => ⟨0, usage, ""⟩
  | .version => ⟨0, versionLine, ""⟩
  | .unknownArgument => ⟨2, "", "error: unexpected argument\n"⟩
  | .invalidValue => ⟨2, "", "error: invalid value for an option\n"⟩
  | .malformedNumber => ⟨2, "", "error: the value of an option is no number\n"⟩
  | .repeated => ⟨2, "", "error: an option is given more than once\n"⟩
  | .unexpectedValue => ⟨2, "", "error: an option takes no value\n"⟩

/-- Run the program. -/
def run (m : Machine) (moment : String) (line : List String) (environment : SortedMap String) :
    StateM FileTree Outcome := do
  match Arguments.read line environment with
  | .error stop => return stopOutcome stop
  | .ok arguments =>
    match ← (conduct m moment arguments).run with
    | .ok () => return ⟨0, "", ""⟩
    | .error e => return ⟨failureStatus e, "", s!"error: {e.message}\n"⟩

end Program

end KeywordCensus
