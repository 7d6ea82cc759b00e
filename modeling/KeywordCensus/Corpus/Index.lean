import KeywordCensus.Corpus.Usage

/-!
# The index of a corpus

The files of a corpus by what is shown of their paths, and the usage of every keyword by its name. An
index grows file by file, and indexes of parts of a corpus are merged: a file met again is left out, and
each usage takes over what the other part knows. A usage knows its files by the paths themselves, so
two files that are shown alike are one to the index and two to a usage.
-/

namespace KeywordCensus

/-- The files and the keywords of a corpus. -/
structure Index where
  /-- The files by what is shown of their paths. -/
  files : SortedMap Specification
  /-- The usages by their keywords. -/
  keywords : SortedMap Usage

namespace Index

/-- The index of no file. -/
def empty : Index := ⟨SortedMap.empty, SortedMap.empty⟩

instance : Inhabited Index := ⟨empty⟩

/-- Is the file not in the index yet? -/
def wants (i : Index) (file : Specification) : Bool := !i.files.contains (file.pathText 0)

/-- Add a file to the usage of one keyword. -/
def addUse (file : Specification) (keywords : SortedMap Usage) (keyword : String) :
    SortedMap Usage :=
  keywords.insert keyword (((keywords.get? keyword).getD (Usage.unused keyword)).add file)

/-- Add a file, unless it is in the index already. -/
def add (i : Index) (file : Specification) : Index :=
  if i.wants file then
    ⟨i.files.insert (file.pathText 0) file, file.keywords.foldl (addUse file) i.keywords⟩
  else i

/-- Take over the usage of one keyword. -/
def mergeUsage (keywords : SortedMap Usage) (entry : String × Usage) : SortedMap Usage :=
  match keywords.get? entry.1 with
  | some known => keywords.insert entry.1 (known.merge entry.2)
  | none => keywords.insert entry.1 entry.2

/-- Take over what another index knows. -/
def merge (i other : Index) : Index :=
  ⟨other.files.entries.foldl (fun m e => m.insertIfNew e.1 e.2) i.files,
    other.keywords.entries.foldl mergeUsage i.keywords⟩

/-- The index of the listed files. -/
def ofFiles (files : List Specification) : Index := files.foldl add empty

end Index

end KeywordCensus
