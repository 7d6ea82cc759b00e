import KeywordCensus.Text.Blank
import KeywordCensus.Text.Split

/-!
# The version of the parser

What the parser says about itself: a release and a commit, each on a line of its own and each
optional. Of several such lines the last one counts.
-/

namespace KeywordCensus

/-- The release and the commit of a parser, where known. -/
structure VersionInfo where
  /-- The release. -/
  release : Option String
  /-- The commit it was built from. -/
  commit : Option String
  deriving DecidableEq, Repr, Inhabited

namespace VersionInfo

/-- What begins the line with the release. -/
def releaseStart : List Char := "Release version ".toList

/-- What begins the line with the commit. -/
def commitStart : List Char := "Repository version ".toList

/-- Take one line into account. -/
def addLine (info : VersionInfo) (line : List Char) : VersionInfo :=
  let line := Text.trimChars line
  let info := match Text.afterStart? releaseStart line with
    | some rest => { info with release := some (String.ofList (Text.trimChars rest)) }
    | none => info
  match Text.afterStart? commitStart line with
  | some rest => { info with commit := Text.firstWord? (String.ofList rest) }
  | none => info

/-- What the output of the parser says about its version. -/
def ofOutput (output : String) : VersionInfo :=
  (Text.lines output.toList).foldl addLine ⟨none, none⟩

end VersionInfo

end KeywordCensus
