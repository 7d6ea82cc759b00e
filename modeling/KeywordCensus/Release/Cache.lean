import KeywordCensus.FileTree.Walk
import KeywordCensus.Release.Listing

/-!
# Cached releases

Releases of the parser are kept in a cache directory, each in a directory of its own that is named
for its tag. A version is cached if its directory holds a file with the name of the parser, at any
depth; the newest version is content with any such file in the cache.
-/

namespace KeywordCensus

/-- Where releases come from. -/
structure ReleaseSource where
  /-- The url of the repository of the parser. -/
  repositoryUrl : String
  /-- The version that is wanted. -/
  version : String
  /-- The platform it has to run on. -/
  platform : String
  /-- The address of the service that lists releases. -/
  apiBase : String
  deriving DecidableEq, Repr

/-- The address of the service that lists releases, unless another one is given. -/
def ReleaseSource.defaultApiBase : String := "https://api.github.com"

namespace Release

/-- The file name of the parser. -/
def binaryName : String := "conjure"

/-- The first file below a directory, in walking order, that has the name of the parser. -/
def findBinary? (t : FileTree) (directory : Path) : Option Path :=
  if t.isDirectory directory then
    (t.filesBelow directory fun p => p.fileName? = some binaryName).head?
  else none

/-- A tag with underscores for slashes of both kinds. -/
def underscored (tag : String) : String :=
  String.ofList (tag.toList.map fun c => if c = '/' ∨ c = '\\' then '_' else c)

/-- The name of the directory of a tag. -/
def directoryName (tag : String) : String := Text.toBytes (underscored tag)

/-- The directory of a release in a cache. -/
def directory (cache : Path) (tag : String) : Path := cache.child (directoryName tag)

/-- The cached parser for a version. -/
def cached? (t : FileTree) (cache : Path) (version : String) : Option Path :=
  if version = latest then findBinary? t cache
  else findBinary? t (directory cache version)

/-- How asking for the listing of releases fails where no request is answered: a url that names no
repository is noticed before anything is asked. -/
def listingFailure (repositoryUrl : String) : ReleaseError :=
  match RepositoryName.ofUrl repositoryUrl with
  | .error e => .remote e
  | .ok _ => .http

/-- The parser for a version where no request is answered: the cached one or none. -/
def obtain? (t : FileTree) (cache : Path) (source : ReleaseSource) : Option Path :=
  cached? t cache source.version

end Release

end KeywordCensus
