import KeywordCensus.Settings.Arguments
import KeywordCensus.SortedMap

/-!
# The command line

Arguments are read from left to right, and the first one that makes no sense ends the reading. The
value of an option is attached to it or is the next argument, which then must not look like an
option. An attached value is checked at once; a separate one is pending and is checked when the next
known option is reached, or at the end. A setting that the command line does not give is taken from
the environment.

Arguments and settings are texts: bytes that are no text, which are refused for most options and kept
for paths, are left out.
-/

namespace KeywordCensus

/-- An option without a value. -/
inductive Flag where
  /-- Take the clones as they are. -/
  | offline
  /-- Show how the program is used. -/
  | help
  /-- Show the version of the program. -/
  | version
  deriving DecidableEq, Repr

namespace Flag

/-- All flags. -/
def all : List Flag := [offline, help, version]

/-- The long option of a flag, without its dashes. -/
def optionName : Flag → String
  | offline => "offline"
  | help => "help"
  | version => "version"

/-- The flag with a given long option. -/
def ofOptionName? (option : String) : Option Flag := all.find? fun f => f.optionName == option

end Flag

/-- What an argument looks like. -/
inductive ArgumentShape where
  /-- The two dashes after which no option follows. -/
  | endOfOptions
  /-- An option that takes a value, perhaps with one attached. -/
  | option (setting : Setting) (attached : Option String)
  /-- A flag. -/
  | flag (f : Flag)
  /-- A flag with a value attached. -/
  | flagWithValue (f : Flag)
  /-- A dashed word that is no option. -/
  | unknown
  /-- Anything else. -/
  | plain (value : String)
  deriving DecidableEq, Repr

namespace ArgumentShape

/-- The shape of a long option, given without its dashes. -/
def ofLong (name : String) (attached : Option String) : ArgumentShape :=
  match Setting.ofOptionName? name, Flag.ofOptionName? name with
  | some setting, _ => .option setting attached
  | none, some f => if attached.isSome then .flagWithValue f else .flag f
  | none, none => .unknown

/-- The value attached to a short option: an equals sign before it is no part of it. -/
def attachedToShort : List Char → Option String
  | [] => none
  | '=' :: rest => some (String.ofList rest)
  | rest => some (String.ofList rest)

/-- The shape of a short option: its letter and what follows it. -/
def ofShort (letter : Char) (rest : List Char) : ArgumentShape :=
  if letter = 'o' then .option .output (attachedToShort rest)
  else if letter = 'h' then .flag .help
  else if letter = 'V' then .flag .version
  else .unknown

/-- The shape of an argument. -/
def ofText (argument : String) : ArgumentShape :=
  match argument.toList with
  | ['-', '-'] => .endOfOptions
  | '-' :: '-' :: long =>
    match Text.cutOnce '=' long with
    | some (name, value) => ofLong (String.ofList name) (some (String.ofList value))
    | none => ofLong (String.ofList long) none
  | '-' :: letter :: rest => ofShort letter rest
  | _ => .plain argument

end ArgumentShape

/-- An option that is not checked yet. -/
structure PendingOption where
  /-- What it sets. -/
  setting : Setting
  /-- Its value, if that has been reached. -/
  value : Option String

/-- The state of reading a command line. -/
structure CommandLine where
  /-- What has been checked. -/
  arguments : Arguments
  /-- The last option, unless it has been checked. -/
  pending : Option PendingOption
  /-- Is the end of the options reached? -/
  optionsEnded : Bool

namespace CommandLine

/-- Nothing is read. -/
def start : CommandLine := ⟨Arguments.none, none, false⟩

/-- Check the pending option. -/
def settle (s : CommandLine) : Except ArgumentStop Arguments :=
  match s.pending with
  | none => .ok s.arguments
  | some ⟨_, none⟩ => .error .invalidValue
  | some ⟨setting, some value⟩ => s.arguments.give setting value

/-- Take a flag into account. -/
def raise (a : Arguments) : Flag → Except ArgumentStop Arguments
  | .offline => if a.offline then .error .repeated else .ok { a with offline := true }
  | .help => .error .help
  | .version => .error .version

/-- Take an argument before the end of the options into account. -/
def readShape (s : CommandLine) : ArgumentShape → Except ArgumentStop CommandLine
  | .endOfOptions => .ok { s with optionsEnded := true }
  | .option setting none => do
    return ⟨← s.settle, some ⟨setting, none⟩, false⟩
  | .option setting (some value) => do
    return ⟨← (← s.settle).give setting value, none, false⟩
  | .flag f => do return ⟨← raise (← s.settle) f, none, false⟩
  | .flagWithValue _ => .error .unexpectedValue
  | .unknown => .error .unknownArgument
  | .plain value =>
    -- Only an option that waits for its value makes sense of a word without dashes.
    match s.pending with
    | some ⟨setting, none⟩ => .ok { s with pending := some ⟨setting, some value⟩ }
    | _ => .error .unknownArgument

/-- Take an argument into account. -/
def readArgument (s : CommandLine) (argument : String) : Except ArgumentStop CommandLine :=
  if s.optionsEnded then .error .unknownArgument else s.readShape (ArgumentShape.ofText argument)

/-- Read a command line. -/
def read (line : List String) : Except ArgumentStop Arguments := do
  (← line.foldlM readArgument start).settle

/-- Take a setting from the environment unless it is given. -/
def readEnvironment (environment : SortedMap String) (a : Arguments) (setting : Setting) :
    Except ArgumentStop Arguments :=
  if a.has setting then .ok a
  else match setting.environmentName?.bind environment.get? with
    | some value => a.set setting value
    | none => .ok a

end CommandLine

/-- What the settings are given by a command line and, where it is silent, by the environment. -/
def Arguments.read (line : List String) (environment : SortedMap String) :
    Except ArgumentStop Arguments := do
  Setting.all.foldlM (CommandLine.readEnvironment environment) (← CommandLine.read line)

end KeywordCensus
