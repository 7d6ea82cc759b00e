import KeywordCensus.FileTree.Basic
import KeywordCensus.Text.Split

/-!
# Repository urls

Every spelling of a repository names an owner and a repository. With a host in front these are the
first two segments of the path, otherwise the last two: `scheme://host/owner/name`,
`user@host:owner/name`, `file://directory/owner/name`, or just a path. Empty segments do not count,
and one `.git` at the end of the name is dropped.
-/

namespace KeywordCensus

/-- Why a repository cannot be used. -/
inductive RemoteError where
  /-- The url names no owner and repository. -/
  | invalidUrl (url : String)
  /-- The repository at a url does not answer, or does not have the branch. -/
  | git (url : String)
  /-- A directory on the way cannot be made or removed. -/
  | io (path : Path) (cause : IoError)
  deriving DecidableEq, Repr

/-- The text of an error. -/
def RemoteError.message : RemoteError → String
  | .invalidUrl url => s!"Not a valid git repository url: {url}"
  | .git url => s!"git error for {url}"
  | .io path cause => s!"IO error at {path.shown}: {cause.message}"

/-- A repository by its owner and name. -/
structure RepositoryName where
  /-- The owner. -/
  owner : String
  /-- The name. -/
  name : String
  deriving DecidableEq, Repr

namespace RepositoryName

/-- The path of a url, and whether a host stands before it. -/
def urlPath (url : List Char) : List Char × Bool :=
  match Text.afterStart? "file://".toList url with
  | some path => (path, false)
  | none =>
    match Text.cutAt "://".toList url with
    | some (_, rest) =>
      match Text.cutOnce '/' rest with
      | some (_, path) => (path, true)
      | none => ([], true)
    | none =>
      match Text.cutOnce ':' url with
      | some (_, path) => if url.head? = some '/' then (url, false) else (path, true)
      | none => (url, false)

/-- Drop one `.git` from the end of a name. -/
def dropSuffix (name : List Char) : List Char :=
  (Text.beforeEnd? ".git".toList name).getD name

/-- The segments of a path that hold something. -/
def urlSegments (path : List Char) : List (List Char) :=
  (Text.splitOn '/' path).filter (· ≠ [])

/-- The two segments that stand for owner and name. -/
def pick? (segments : List (List Char)) (hasHost : Bool) : Option (List Char × List Char) :=
  if hasHost then
    match segments with
    | owner :: name :: _ => some (owner, name)
    | _ => none
  else
    match segments.reverse with
    | name :: owner :: _ => some (owner, name)
    | _ => none

/-- The owner and the name that a url stands for. -/
def ofUrl (url : String) : Except RemoteError RepositoryName :=
  let (path, hasHost) := urlPath url.toList
  match pick? (urlSegments path) hasHost with
  | some (owner, name) => .ok ⟨String.ofList owner, String.ofList (dropSuffix name)⟩
  | none => .error (.invalidUrl url)

end RepositoryName

end KeywordCensus
