import KeywordCensus.Colour.Gradient
import KeywordCensus.Corpus.Specification

/-!
# The usage of a keyword

All that is known about one keyword: which files use it, how often each of them does, and the total,
the least and the greatest number of uses. The numbers are kept up to date as files are added; a
file that is known already adds nothing.
-/

namespace KeywordCensus

/-- A file that uses a keyword, and how often it does. -/
structure FileUse where
  /-- The file. -/
  file : Specification
  /-- The number of uses. -/
  uses : Nat

/-- The usage of one keyword. -/
structure Usage where
  /-- The keyword. -/
  name : String
  /-- All uses in all files. -/
  total : Nat
  /-- The least number of uses in a file that uses it. -/
  least : Option Nat
  /-- The greatest number of uses in a file. -/
  greatest : Option Nat
  /-- The files that use it, by their paths. -/
  files : SortedMap FileUse

/-- Why a number about a keyword does not exist. -/
inductive UsageError where
  /-- No file uses the keyword. -/
  | noContributingFiles (keyword : String)
  deriving DecidableEq, Repr

/-- The text of an error. -/
def UsageError.message : UsageError → String
  | .noContributingFiles keyword => s!"keyword '{keyword}' is not used in any file"

namespace Usage

/-- A keyword that no file uses. -/
def unused (name : String) : Usage := ⟨name, 0, none, none, SortedMap.empty⟩

/-- Record the uses in a file that is new. -/
def record (u : Usage) (use : FileUse) : Usage :=
  { u with
    total := u.total + use.uses
    least := some (match u.least with | none => use.uses | some n => min n use.uses)
    greatest := some (match u.greatest with | none => use.uses | some n => max n use.uses)
    files := u.files.insert use.file.path.text use }

/-- Record the uses in a file unless the file is known. -/
def recordIfNew (u : Usage) (use : FileUse) : Usage :=
  if u.files.contains use.file.path.text then u else u.record use

/-- Would adding a file change anything? -/
def wants (u : Usage) (file : Specification) : Bool :=
  file.uses u.name != 0 && !u.files.contains file.path.text

/-- Add a file. -/
def add (u : Usage) (file : Specification) : Usage :=
  if u.wants file then u.record ⟨file, file.uses u.name⟩ else u

/-- Record the uses in several files, those that are known left out. -/
def recordAll (u : Usage) (uses : List FileUse) : Usage := uses.foldl recordIfNew u

/-- Take over what another usage of the same keyword knows. -/
def merge (u other : Usage) : Usage := u.recordAll other.files.values

/-- The usage of a keyword in the listed files. -/
def ofFiles (name : String) (files : List Specification) : Usage := files.foldl add (unused name)

/-- The number of uses in a file, whether it is known to use the keyword or not. -/
def usesIn (u : Usage) (file : Specification) : Nat := file.uses u.name

/-- The number of files that use the keyword. -/
def fileCount (u : Usage) : Nat := u.files.size

/-- The mean number of uses in the files that use it. -/
def average (u : Usage) : Except UsageError Floating :=
  if u.files.isEmpty then .error (.noContributingFiles u.name)
  else .ok (Floating.div .binary64 (Floating.ofNat .binary64 u.total)
    (Floating.ofNat .binary64 u.fileCount))

/-- The mean number of uses, zero if no file uses the keyword. -/
def averageOrZero (u : Usage) : Floating :=
  match u.average with
  | .ok x => x
  | .error _ => Floating.ofNat .binary64 0

/-- The texts of the paths of the files, trimmed and then sorted. -/
def pathTexts (u : Usage) (depth : Nat) : List String :=
  (u.files.values.map fun use => use.file.pathText depth).mergeSort

/-- The colour of a number of uses: red for none, then from orange at the least to yellow at the
whole part of the mean, and on to green at the greatest. -/
def colour (u : Usage) (uses : Nat) : Colour :=
  match u.average, u.least, u.greatest with
  | .ok average, some least, some greatest =>
    let middle := Floating.trunc .binary64 average
    let n := Floating.ofNat .binary64 uses
    -- Both gradients meet at the middle, so that the colours have no gap there.
    if uses = 0 then Colour.pureRed
    else if Floating.lt n middle then
      Colour.gradient n (Floating.ofNat .binary64 least) middle Colour.hotOrange Colour.yellow
    else
      Colour.gradient n middle (Floating.ofNat .binary64 greatest) Colour.yellow Colour.pureGreen
  | _, _, _ => Colour.pureRed

/-- The usage as a record of a report. -/
def toJson (u : Usage) (depth : Nat) : Json :=
  .object [("name", .text u.name),
    ("used_in_files", .array ((u.pathTexts depth).map Json.text)),
    ("max_usages_in_file", Json.ofNat? u.greatest),
    ("min_usages_in_file", Json.ofNat? u.least),
    ("avg_usages_per_file", match u.average with
      | .ok x => .number (.floating x)
      | .error _ => .null),
    ("total_usages", Json.ofNat u.total)]

end Usage

end KeywordCensus
