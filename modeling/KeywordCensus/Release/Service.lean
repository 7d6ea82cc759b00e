import KeywordCensus.Release.Install

/-!
# Releases from a service

A service lists the releases of a repository and hands out their files. A version that is not cached
is looked for in the listing; the release that is found is installed in its own directory of the
cache, unless that directory holds the parser already. What fails on the way is put down in the log,
and there is no parser then.
-/

namespace KeywordCensus

/-- The answer to a request. -/
structure Reply where
  /-- Its status. -/
  status : Nat
  /-- What it carries. -/
  body : ByteArray

/-- A service for releases, and the archives among what it hands out. -/
structure Service where
  /-- The answer to a request for a url, redirections followed, if there is one. -/
  reply? : String → Option Reply
  /-- The entries of an archive with given bytes; none if the bytes are no archive. -/
  unpack? : ByteArray → Option (List ArchiveEntry)

namespace Service

/-- The status of success. -/
def success : Nat := 200

/-- Does a status tell that the request has failed? -/
def IsFailure (status : Nat) : Prop := 400 ≤ status ∧ status < 600

instance : DecidablePred IsFailure := fun status =>
  inferInstanceAs (Decidable (400 ≤ status ∧ status < 600))

/-- The url that lists the releases of a repository. -/
def listingUrl (apiBase : String) (repository : RepositoryName) : String :=
  let base := String.ofList (apiBase.toList.reverse.dropWhile (· = '/')).reverse
  s!"{base}/repos/{repository.owner}/{repository.name}/releases"

/-- The listing that an answer carries. -/
def listing? (body : ByteArray) : Option (List Release) := do
  let text ← String.fromUTF8? body
  let document ← Json.readDocument text
  Release.listOfJson? document

/-- The releases of a repository. -/
def releases (s : Service) (source : ReleaseSource) : Except ReleaseError (List Release) := do
  let repository ← (RepositoryName.ofUrl source.repositoryUrl).mapError ReleaseError.remote
  let url := listingUrl source.apiBase repository
  match s.reply? url with
  | none => .error .http
  | some reply =>
    if reply.status ≠ success then .error (.status url reply.status)
    else match listing? reply.body with
      | none => .error .http
      | some releases => .ok releases

/-- What a url hands out. -/
def download (s : Service) (url : String) : Except ReleaseError ByteArray :=
  match s.reply? url with
  | none => .error .http
  | some reply => if IsFailure reply.status then .error .http else .ok reply.body

/-- Bytes as an archive. -/
def archive (s : Service) (bytes : ByteArray) : Archive :=
  match s.unpack? bytes with
  | none => .broken
  | some entries => .entries entries

end Service

namespace Release

/-- The parser of a release: the one in the directory of the release, or else the one that its file
for the platform holds. -/
def installed (s : Service) (cache : Path) (platform : String) (r : Release) :
    FileAction ReleaseError Path := do
  let target := directory cache r.tag
  match findBinary? (← get) target with
  | some binary => return binary
  | none =>
    let asset ← liftM (r.asset platform)
    let bytes ← liftM (s.download asset.url)
    install (s.archive bytes) target
    match findBinary? (← get) target with
    | some binary => return binary
    | none => throw (.noBinary asset.name)

/-- The parser of the release that is listed for a version. -/
def fetch (s : Service) (cache : Path) (source : ReleaseSource) : FileAction ReleaseError Path := do
  let releases ← liftM (s.releases source)
  match select? releases source.version with
  | none => throw (.noSuchRelease source.version)
  | some r => installed s cache source.platform r

/-- The parser for a version: the cached one, or else that of the release that is listed for it. -/
def provide (s : Service) (cache : Path) (source : ReleaseSource) :
    StateM FileTree (Option Path) := do
  match cached? (← get) cache source.version with
  | some binary => return some binary
  | none =>
    match ← (fetch s cache source).run with
    | .ok binary => return some binary
    | .error _ => return none

end Release

end KeywordCensus
