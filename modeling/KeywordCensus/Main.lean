import KeywordCensus.Program
import KeywordCensus.Report.Moment
import Std.Time.DateTime.Timestamp

/-!
# The executable

The outer layer of the program: it reads the command line, the environment, the clock and the files
below the working directory, runs the program on them, and writes the report. It starts no process:
a specification holds its syntax tree already, and every program is taken to print the file that it
is given.
-/

namespace KeywordCensus.Executable

/-- A machine on which every program prints the file that it is given. -/
def printingMachine (seconds : Nat) : Machine where
  run t _ arguments :=
    let printed := match t.readBytes ⟨arguments.getLastD ""⟩ with
      | .ok bytes => bytes
      | .error _ => ByteArray.empty
    ⟨printed, ByteArray.empty, .exits 0⟩
  clock := seconds
  disk := Disk.reliable
  hosts := Hosts.silent

/-- A tree that holds nothing but the directory at a path from the root, in which relative paths
begin. -/
def emptyAt (directory : String) : FileTree :=
  let place := (Path.ofText directory).segments.filter fun name => Path.IsName name
  let bare : FileTree :=
    ⟨.directory [], place, fun _ h => of_decide_eq_true (List.mem_filter.mp h).2⟩
  bare.plant place (.directory [])

/-- The permission bits of every file, which cannot be read. -/
def assumedMode : Nat := 0o755

/-- Add the entries of the directory at a place to a file tree, links left out. -/
partial def addEntries (t : FileTree) (place : Location) (entries : Array IO.FS.DirEntry) :
    IO FileTree :=
  entries.foldlM (fun t entry => do
    let here := place ++ [Text.toBytes entry.fileName]
    match (← entry.path.symlinkMetadata).type with
    | .dir =>
      match ← some <$> entry.path.readDir <|> pure none with
      | some inner => addEntries (t.plant here (.directory [])) here inner
      | none => return t.plant here (.closed false [])
    | .file =>
      let bytes ← IO.FS.readBinFile entry.path <|> pure ByteArray.empty
      return t.plant here (.file bytes assumedMode)
    | _ => return t) t

/-- The settings of the environment. -/
def readSettings : IO (SortedMap String) :=
  (Setting.all.filterMap Setting.environmentName?).foldlM (fun m name => do
    match ← IO.getEnv name with
    | some value => return m.insert name value
    | none => return m) SortedMap.empty

/-- Write the report from a file tree to the disk. -/
def writeOutput (t : FileTree) (output : Path) : IO Unit :=
  match t.readText output with
  | .ok report => do
    match output.parent? with
    | some parent => unless parent.text.isEmpty do IO.FS.createDirAll ⟨parent.shown⟩
    | none => pure ()
    IO.FS.writeFile ⟨output.shown⟩ report
  | .error _ => pure ()

end KeywordCensus.Executable

open KeywordCensus Executable

/-- Run the program. -/
def main (line : List String) : IO UInt32 := do
  let environment ← readSettings
  let seconds := (← Std.Time.Timestamp.now).toSecondsSinceUnixEpoch.val.toNat
  let directory ← IO.currentDir
  let start := emptyAt directory.toString
  let t ← addEntries start start.workDir (← directory.readDir)
  let (outcome, t) :=
    (Program.run (printingMachine seconds) (Moment.ofSeconds seconds).text line environment).run t
  IO.print outcome.stdout
  IO.eprint outcome.stderr
  if outcome.status = 0 then
    match Arguments.read line environment with
    | .ok arguments => if let some output := arguments.output then writeOutput t output
    | .error _ => pure ()
  return outcome.status.toUInt32
