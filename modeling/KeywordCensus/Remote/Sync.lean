import KeywordCensus.FileTree.Edit
import KeywordCensus.Remote.Basic

/-!
# Bringing clones up to date

`sync` makes a directory a clone of a repository with a given branch checked out. Where there is no
repository yet, what stands in the way is removed and a clone is made; where there is one, the
branch is fetched from the url that the clone was made from, and checked out by force unless it is
already checked out at that commit. A failed clone leaves nothing, and a failed fetch changes
nothing.

A url may stand for a directory of this machine, and then the repository is looked up in the file
tree. What the repositories of other machines show (`Hosts`) is given, once for each call: they
change as they like between calls. Nothing is said of the transports, of credentials, or of the
history behind a commit.
-/

namespace KeywordCensus

/-- The commit at each branch, as a repository shows it to others. -/
def Repository.branches : Repository → SortedMap Commit
  | .bare branches => branches
  | .clone _ _ branches _ => branches

namespace FileTree

/-- The place of the control directory of the repository at a path: the directory itself or the one
inside it. -/
def repositoryPlace? (t : FileTree) (directory : Path) : Option Location :=
  let holds (p : Path) : Option Location :=
    match t.locate p true with
    | .ok place => match t.at? place with
      | some (.repository _) => some place
      | _ => none
    | .error _ => none
  match holds (directory.child controlDirectory) with
  | some place => some place
  | none => holds directory

/-- What the control directory at a place records. -/
def repositoryAt? (t : FileTree) (place : Location) : Option Repository :=
  match t.at? place with
  | some (.repository data) => some data
  | _ => none

/-- The path that a url stands for, if it stands for a directory of this machine. Any other scheme
and a colon before the first slash name a host. -/
def localPath? (url : String) : Option Path :=
  match Text.afterStart? "file:///".toList url.toList with
  | some rest => some (.ofText (String.ofList ('/' :: rest)))
  | none =>
    match Text.cutAt "://".toList url.toList with
    | some _ => none
    | none => if ':' ∈ url.toList.takeWhile (· ≠ '/') then none else some (.ofText url)

/-- The commit at a branch of the repository at a path. -/
def localCommit? (t : FileTree) (path : Path) (branch : String) : Option Commit := do
  let place ← t.repositoryPlace? path
  let data ← t.repositoryAt? place
  data.branches.get? branch

/-- The commit at a branch of the repository at a url. -/
def remoteCommit? (t : FileTree) (hosts : Hosts) (url branch : String) : Option Commit :=
  match localPath? url with
  | some path => t.localCommit? path branch
  | none => hosts url branch

/-- Write the files of a commit into a work tree, whatever stands in the way. -/
def writeFiles (t : FileTree) (top : Location) (files : SortedMap String) : FileTree :=
  files.entries.foldl
    (fun t e => t.plant (top ++ fileNames e.1) (.file e.2.toUTF8 newFileMode)) t

/-- Remove a file of a work tree, and with it the directories that it leaves empty. -/
def removeTracked (t : FileTree) (top : Location) (file : String) : FileTree :=
  let names := fileNames file
  match t.at? (top ++ names) with
  | some (.directory _) => t
  | some (.repository _) => t
  | none => t
  | some _ => (t.removeAt (top ++ names)).pruneEmpty top names.dropLast.reverse

/-- Can a file of a work tree be reached, or its place? Not if a directory that may not be entered
stands there or on the way. -/
def canReach (t : FileTree) (top : Location) (file : String) : Bool :=
  let names := fileNames file
  (List.range (names.length + 1)).all fun n =>
    match t.at? (top ++ names.take n) with
    | some (.closed ..) => false
    | _ => true

/-- Bring a work tree from the files of the last check-out to those of a commit. -/
def checkOut (t : FileTree) (top : Location) (tracked : List String) (commit : Commit) : FileTree :=
  let stale := tracked.filter fun file => !commit.files.contains file
  (stale.foldl (fun t file => t.removeTracked top file) t).writeFiles top commit.files

end FileTree

namespace Remote

open FileTree

/-- Turn the error of a file operation at a path into one of ours. -/
def atPath (p : Path) (action : FileAction IoError Unit) : FileAction RemoteError Unit :=
  ExceptT.adapt (RemoteError.io p) action

/-- Fetch a branch and write a clone of it. Once what leads to the directory has been made, its path
may turn out to lead to something after all; a clone is written only in a directory without
entries. -/
def writeClone (hosts : Hosts) (directory : Path) (url branch : String) :
    FileAction RemoteError Unit := do
  match (← get).remoteCommit? hosts url branch with
  | none => throw (.git url)
  | some commit =>
    ExceptT.adapt (fun _ => RemoteError.git url) (makeDirectories directory)
    let t ← get
    match t.locate directory true with
    | .error _ => throw (.git url)
    | .ok top =>
      match t.at? top with
      | some (.directory []) =>
        let data := Repository.clone url branch (SortedMap.empty.insert branch commit)
          commit.files.keys
        set ((t.put (top ++ [controlDirectory]) (.repository data)).writeFiles top commit.files)
      | _ => throw (.git url)

/-- Make a clone in a directory that is not there. -/
def makeClone (hosts : Hosts) (directory : Path) (url branch : String) :
    FileAction RemoteError Unit := do
  match directory.parent? with
  | none => writeClone hosts directory url branch
  | some parent =>
    atPath parent (makeDirectories parent)
    writeClone hosts directory url branch

/-- Bring the clone whose control directory stands at a place up to date. -/
def pull (hosts : Hosts) (place : Location) (url branch : String) :
    FileAction RemoteError Unit := do
  let t ← get
  match t.repositoryAt? place with
  | some (.clone origin head branches tracked) =>
    match t.remoteCommit? hosts origin branch with
    | none => throw (.git url)
    | some commit =>
      -- Where the branch is checked out at that commit, even changed files stay as they are.
      if branches.get? branch = some commit ∧ head = branch then return
      let data := Repository.clone origin branch (branches.insert branch commit)
        commit.files.keys
      let t := t.put place (.repository data)
      set t
      -- The branch has been moved by the time that a file turns out to be out of reach.
      if (tracked ++ commit.files.keys).all (t.canReach place.dropLast) then
        set (t.checkOut place.dropLast tracked commit)
      else throw (.git url)
  | _ => throw (.git url)

/-- Is there a directory at a path, and has it no entries? -/
def isEmptyDirectory (t : FileTree) (directory : Path) : Except IoError Bool :=
  match t.lookup directory true with
  | .ok (.directory entries) => .ok entries.isEmpty
  | .ok (.closed true entries) => .ok entries.isEmpty
  | .ok (.closed false _) => .error .permissionDenied
  | _ => .ok false

/-- Bring what stands at a path up to date: a repository is pulled, and anything else gives way to a
clone. -/
def replaceOrPull (hosts : Hosts) (directory : Path) (url branch : String) :
    FileAction RemoteError Unit := do
  let t ← get
  if !t.pathExists directory then makeClone hosts directory url branch
  else match t.repositoryPlace? directory with
    | some place => pull hosts place url branch
    | none =>
      atPath directory
        (if t.isDirectory directory then removeTree directory else removeFile directory)
      makeClone hosts directory url branch

/-- Make a directory an up-to-date clone of the repository at a url, with a branch checked out. -/
def sync (hosts : Hosts) (directory : Path) (url branch : String) :
    FileAction RemoteError Unit := do
  match isEmptyDirectory (← get) directory with
  | .error e => throw (.io directory e)
  | .ok true =>
    -- An empty directory gives way to a clone.
    atPath directory (removeEmptyDirectory directory)
    replaceOrPull hosts directory url branch
  | .ok false => replaceOrPull hosts directory url branch

/-- Bring the clones of all remotes below a root directory up to date, in order. -/
def syncAll (hosts : Hosts) (root : Path) (remotes : List Remote) : FileAction RemoteError Unit :=
  remotes.forM fun r => sync hosts (r.cloneDirectory root) r.url r.branch

end Remote

end KeywordCensus
