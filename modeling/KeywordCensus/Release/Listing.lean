import KeywordCensus.Json.Reader
import KeywordCensus.Remote.Url

/-!
# Releases of the parser

A listing of releases is a JSON document: an array of releases, each with a tag, an optional name
and its assets. `select?` finds the release for a version, and `asset` the one of its assets that is
meant for a platform.
-/

namespace KeywordCensus

/-- A file that belongs to a release. -/
structure Asset where
  /-- The name of the file. -/
  name : String
  /-- Where it is downloaded from. -/
  url : String
  deriving DecidableEq, Repr

/-- A release of the parser. -/
structure Release where
  /-- Its name. -/
  name : Option String
  /-- Its tag. -/
  tag : String
  /-- Its files. -/
  assets : List Asset
  deriving DecidableEq, Repr

/-- Why a release cannot be used. -/
inductive ReleaseError where
  /-- A request is not answered, or not with what was asked for. -/
  | http
  /-- The listing is answered with another status than that of success. -/
  | status (url : String) (code : Nat)
  /-- The url of the releases names no repository. -/
  | remote (cause : RemoteError)
  /-- There is no release for a version. -/
  | noSuchRelease (version : String)
  /-- A release has no file for the platform. -/
  | noSuchAsset (release asset : String)
  /-- An archive cannot be extracted. -/
  | zip
  /-- A file operation fails. -/
  | io (cause : IoError)
  /-- An archive that has been extracted does not hold the parser. -/
  | noBinary (archive : String)
  deriving DecidableEq, Repr

/-- The text of an error. -/
def ReleaseError.message : ReleaseError → String
  | .http => "HTTP request failed"
  | .status url code => s!"releases endpoint {url} returned status {code}"
  | .remote cause => cause.message
  | .noSuchRelease version => "no release matching version '" ++ version ++ "'"
  | .noSuchAsset release asset => s!"release {release} has no asset named {asset}"
  | .zip => "failed to extract archive"
  | .io cause => s!"IO error: {cause.message}"
  | .noBinary archive => s!"IO error: archive {archive} contains no conjure binary"

namespace Json

/-- The value of a field that occurs at most once: `none` if it is repeated. -/
def uniqueField? (name : String) (fields : List (String × Json)) : Option (Option Json) :=
  match fields.filter fun e => e.1 = name with
  | [] => some none
  | [e] => some (some e.2)
  | _ => none

/-- The text, if the value is one. -/
def asText? : Json → Option String
  | .text s => some s
  | _ => none

/-- The text or its absence, if the value is a text or null. -/
def asOptionalText? : Json → Option (Option String)
  | .text s => some (some s)
  | .null => some none
  | _ => none

/-- The items, if the value is an array. -/
def asItems? : Json → Option (List Json)
  | .array items => some items
  | _ => none

end Json

namespace Asset

/-- Read an asset from an object, or from an array of its two parts. -/
def ofJson? : Json → Option Asset
  | .object fields => do
    let name ← Json.uniqueField? "name" fields
    let url ← Json.uniqueField? "browser_download_url" fields
    some ⟨← (← name).asText?, ← (← url).asText?⟩
  | .array [name, url] => do some ⟨← name.asText?, ← url.asText?⟩
  | _ => none

/-- Read the assets of a release. -/
def listOfJson? (value : Json) : Option (List Asset) := do
  (← value.asItems?).mapM ofJson?

end Asset

namespace Release

/-- The version that stands for the newest release. -/
def latest : String := "latest"

/-- Read a release from an object, or from an array of its parts in order. Unknown fields count for
nothing, the name may be absent or null, and the assets may be absent. -/
def ofJson? : Json → Option Release
  | .object fields => do
    let name ← Json.uniqueField? "name" fields
    let tag ← Json.uniqueField? "tag_name" fields
    let assets ← Json.uniqueField? "assets" fields
    let name ← match name with
      | none => some none
      | some value => value.asOptionalText?
    let assets ← match assets with
      | none => some []
      | some value => Asset.listOfJson? value
    some ⟨name, ← (← tag).asText?, assets⟩
  | .array [name, tag] => do some ⟨← name.asOptionalText?, ← tag.asText?, []⟩
  | .array [name, tag, assets] => do
    some ⟨← name.asOptionalText?, ← tag.asText?, ← Asset.listOfJson? assets⟩
  | _ => none

/-- Read a listing of releases. -/
def listOfJson? (document : Json) : Option (List Release) := do
  (← document.asItems?).mapM ofJson?

/-- The release for a version: the first one for the newest, otherwise the first whose tag or name
is the version. -/
def select? (releases : List Release) (version : String) : Option Release :=
  if version = latest then releases.head?
  else releases.find? fun r => r.tag = version || r.name = some version

/-- The name of the file of a release for a platform. -/
def assetName (tag platform : String) : String := s!"conjure-{tag}-{platform}.zip"

/-- The file of a release for a platform. -/
def asset (r : Release) (platform : String) : Except ReleaseError Asset :=
  let wanted := assetName r.tag platform
  match r.assets.find? fun a => a.name = wanted with
  | some a => .ok a
  | none => .error (.noSuchAsset r.tag wanted)

end Release

end KeywordCensus
