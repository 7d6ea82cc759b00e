import KeywordCensus.FileTree.Disk
import KeywordCensus.Json.Reader
import KeywordCensus.Oracle.Basic
import KeywordCensus.Power

/-!
# A parser run as a process

The oracle that runs a program for every question: it looks the program up, waits for it at most a
given time, and classifies how it ended. What a program prints and how it ends, as far as waiting for
it shows that, is given by the machine it runs on.

The directories for programs, in which a name without a slash is looked for, hold none of ours: such
a name is never found.
-/

namespace KeywordCensus

/-- How a process ends. -/
inductive Ending where
  /-- It exits with a status. -/
  | exits (status : Nat)
  /-- A signal ends it. -/
  | killed (signal : Nat)
  /-- It does not end by itself, or not in time. -/
  | hangs
  /-- It cannot be found out, for a reason. -/
  | lost (reason : String)
  deriving DecidableEq, Repr

/-- What a process does. -/
structure Behaviour where
  /-- What it writes to standard output. -/
  stdout : ByteArray
  /-- What it writes to standard error. -/
  stderr : ByteArray
  /-- How it ends. -/
  ending : Ending

/-- A machine on which programs run: what each one does with its arguments, its clock, its disk, and
what it sees of other machines. -/
structure Machine where
  /-- What the program at a place of a file tree does with given arguments, which are bytes. -/
  run : FileTree → Location → List String → Behaviour
  /-- Seconds on the clock when a program is started. -/
  clock : Nat
  /-- The disk to which reports are written. -/
  disk : Disk
  /-- What the repositories of other machines show. -/
  hosts : Hosts

namespace Ending

/-- The names of the signals from one on. -/
def signalNames : List String :=
  ["SIGHUP", "SIGINT", "SIGQUIT", "SIGILL", "SIGTRAP", "SIGABRT", "SIGBUS", "SIGFPE", "SIGKILL",
    "SIGUSR1", "SIGSEGV", "SIGUSR2", "SIGPIPE", "SIGALRM", "SIGTERM", "SIGSTKFLT", "SIGCHLD",
    "SIGCONT", "SIGSTOP", "SIGTSTP", "SIGTTIN", "SIGTTOU", "SIGURG", "SIGXCPU", "SIGXFSZ",
    "SIGVTALRM", "SIGPROF", "SIGWINCH", "SIGIO", "SIGPWR", "SIGSYS"]

/-- The name of a signal. -/
def signalName? : Nat → Option String
  | 0 => none
  | n + 1 => signalNames[n]?

/-- The text of the status of a process that has ended. -/
def text : Ending → String
  | .exits status => s!"exit status: {status % 256}"
  | .killed signal =>
    match signalName? signal with
    | some name => s!"signal: {signal} ({name})"
    | none => s!"signal: {signal}"
  | .hangs => ""
  | .lost _ => ""

/-- Why the end of a process cannot be found out. -/
def loss? : Ending → Option String
  | .lost reason => some reason
  | _ => none

/-- Did the process end well? -/
def isSuccess : Ending → Bool
  | .exits status => status % 256 = 0
  | _ => false

end Ending

/-- A program that is run to parse specifications, and how long it may take. -/
structure ProcessOracle where
  /-- The program. -/
  binary : Path
  /-- How long one run may take. -/
  timeout : Span

namespace ProcessOracle

/-- The place of a program that can be started. A name without a slash is looked for in the
directories for programs, which hold none of ours. -/
def startable (t : FileTree) (binary : Path) : Except IoError Location :=
  if !binary.text.toList.contains '/' then .error .notFound
  else match t.locate binary true with
    | .error e => .error e
    | .ok place =>
      match t.at? place with
      | some (.file _ mode) =>
        if mode &&& 0o111 = 0 then .error .permissionDenied else .ok place
      | some _ => .error .permissionDenied
      | none => .error .notFound

/-- The last second that the clock can show. -/
def lastSecond : Nat := twoPow 63 - 1

/-- Run the program with arguments and give what it wrote to standard output. -/
def run (o : ProcessOracle) (m : Machine) (t : FileTree) (arguments : List String) :
    Except OracleError String :=
  match startable t o.binary with
  | .error e => .error (.notRun o.binary e.message)
  | .ok place =>
    if lastSecond < m.clock + o.timeout.seconds then .error .clockOverflow
    else
      let done := m.run t place arguments
      if done.ending = .hangs ∨ o.timeout.milliseconds = 0 then .error (.timeout o.timeout)
      else match done.ending.loss? with
        | some reason => .error (.notRun o.binary reason)
        | none =>
          match String.fromUTF8? done.stdout with
          | none => .error (.notRun o.binary IoError.invalidText.message)
          | some stdout =>
            match String.fromUTF8? done.stderr with
            | none => .error (.notRun o.binary IoError.invalidText.message)
            | some stderr =>
              if done.ending.isSuccess then .ok stdout
              else .error (.rejected done.ending.text (Text.trim stderr))

/-- The arguments that ask for the syntax tree of a file. -/
def parseArguments (file : Path) : List String := ["pretty", "--output-format=astjson", file.text]

/-- The arguments that ask for the version. -/
def versionArguments : List String := ["--version"]

/-- Ask for the syntax tree of a file. -/
def parse (o : ProcessOracle) (m : Machine) (t : FileTree) (file : Path) :
    Except OracleError Json :=
  match o.run m t (parseArguments file) with
  | .error e => .error e
  | .ok stdout =>
    match Json.read stdout with
    | some tree => .ok tree
    | none => .error (.malformed Json.refusal)

/-- Ask for the version. -/
def version (o : ProcessOracle) (m : Machine) (t : FileTree) : Except OracleError VersionInfo :=
  (o.run m t versionArguments).map VersionInfo.ofOutput

/-- The oracle that runs the program in a file tree. -/
def toOracle (o : ProcessOracle) (m : Machine) (t : FileTree) : Oracle :=
  ⟨o.parse m t, o.version m t⟩

end ProcessOracle

end KeywordCensus
