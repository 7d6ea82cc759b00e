import KeywordCensus.Remote.Url
import KeywordCensus.Settings.Basic
import KeywordCensus.Text.Blank

/-!
# Remote repositories

A remote is a repository whose specifications are counted: its url, the branch to look at, and the
owner and name that the url stands for. Its clone lies in a directory of the name below a directory
of the owner.
-/

namespace KeywordCensus

/-- A remote repository and the branch to look at. -/
structure Remote where
  /-- The url. -/
  url : String
  /-- The branch. -/
  branch : String
  /-- What the url stands for. -/
  repository : RepositoryName
  deriving DecidableEq, Repr

namespace Remote

/-- Cut a value into a url and, after the first hash sign, a branch; an empty branch gives way to
the default. -/
def urlAndBranch (value defaultBranch : String) : String × String :=
  let value := Text.trimChars value.toList
  match Text.cutOnce '#' value with
  | some (url, branch) =>
    (String.ofList url, if branch.isEmpty then defaultBranch else String.ofList branch)
  | none => (String.ofList value, defaultBranch)

/-- Read a remote from the value of a setting. -/
def ofSetting (value defaultBranch : String) : Except SettingError Remote :=
  let (url, branch) := urlAndBranch value defaultBranch
  match RepositoryName.ofUrl url with
  | .ok repository => .ok ⟨url, branch, repository⟩
  | .error e => .error (.invalid .essenceRepositories e.message)

/-- The directory of the clone below a root directory. -/
def cloneDirectory (r : Remote) (root : Path) : Path :=
  (root.child (Text.toBytes r.repository.owner)).child (Text.toBytes r.repository.name)

end Remote

end KeywordCensus
