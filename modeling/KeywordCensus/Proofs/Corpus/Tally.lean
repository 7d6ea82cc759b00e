import KeywordCensus.Corpus.Usage
import KeywordCensus.Proofs.Map.Lookup
import Mathlib.Algebra.GroupWithZero.Nat

/-!
# A usage is the tally of its files

The total, the least and the greatest number of a usage are kept up to date file by file. Here they
are recomputed instead: `Usage.tally` builds a usage from nothing but a name and the files with
their uses. Recording a new file takes a tally to a tally (`record_tally`), and so does merging
(`mergesTo_tally`), in whatever order the files of the other usage are met: `MergesTo` leaves that
order open.
-/

namespace KeywordCensus

namespace Usage

/-- The numbers of uses of some files. -/
def amounts (files : SortedMap FileUse) : List Nat := files.values.map FileUse.uses

/-- The usage that is recomputed from the files with their uses. -/
def tally (name : String) (files : SortedMap FileUse) : Usage :=
  ⟨name, (amounts files).sum, (amounts files).min?, (amounts files).max?, files⟩

@[simp] theorem tally_files (name : String) (files : SortedMap FileUse) :
    (tally name files).files = files := rfl

@[simp] theorem tally_empty (name : String) : tally name SortedMap.empty = unused name := rfl

/-- The place of a file among the files of a usage. -/
def entry (use : FileUse) : String × FileUse := (use.file.path.text, use)

/-- Is every file listed under its path? -/
def FilesKeyed (files : SortedMap FileUse) : Prop :=
  ∀ key use, files.get? key = some use → use.file.path.text = key

/-- Inserting under a free key adds one amount, wherever in the order the key falls. -/
theorem amounts_insert {files : SortedMap FileUse} {key : String} (use : FileUse)
    (h : files.get? key = none) :
    (amounts (files.insert key use)).Perm (use.uses :: amounts files) :=
  (SortedMap.values_insert use h).map FileUse.uses

/-- Equal up to order, lists of numbers have equal minima. -/
theorem min?_perm {ns ms : List Nat} (h : ns.Perm ms) : ns.min? = ms.min? := by
  refine Option.ext fun n => ?_
  rw [List.min?_eq_some_iff, List.min?_eq_some_iff, h.mem_iff]
  simp only [h.mem_iff]

/-- Equal up to order, lists of numbers have equal maxima. -/
theorem max?_perm {ns ms : List Nat} (h : ns.Perm ms) : ns.max? = ms.max? := by
  refine Option.ext fun n => ?_
  rw [List.max?_eq_some_iff, List.max?_eq_some_iff, h.mem_iff]
  simp only [h.mem_iff]

/-- **Recording a new file keeps the numbers exact.** -/
theorem record_tally {name : String} {files : SortedMap FileUse} {use : FileUse}
    (h : files.get? use.file.path.text = none) :
    (tally name files).record use = tally name (files.insert use.file.path.text use) := by
  have hperm := amounts_insert use h
  have htotal : ((tally name files).record use).total =
      (amounts (files.insert use.file.path.text use)).sum := by
    show (amounts files).sum + use.uses = _
    rw [hperm.sum_nat, List.sum_cons, Nat.add_comm]
  have hleast : ((tally name files).record use).least =
      (amounts (files.insert use.file.path.text use)).min? := by
    rw [min?_perm hperm, List.min?_cons]
    unfold record tally
    cases (amounts files).min? with
    | none => rfl
    | some n => exact congrArg some (Nat.min_comm n use.uses)
  have hgreatest : ((tally name files).record use).greatest =
      (amounts (files.insert use.file.path.text use)).max? := by
    rw [max?_perm hperm, List.max?_cons]
    unfold record tally
    cases (amounts files).max? with
    | none => rfl
    | some n => exact congrArg some (Nat.max_comm n use.uses)
  calc
    (tally name files).record use = ⟨name, ((tally name files).record use).total,
        ((tally name files).record use).least, ((tally name files).record use).greatest,
        files.insert use.file.path.text use⟩ := rfl
    _ = tally name (files.insert use.file.path.text use) := by
        rw [htotal, hleast, hgreatest, tally]

/-- Recording a use in a tally is the tally of the uses with that one inserted. -/
theorem recordIfNew_tally (name : String) (files : SortedMap FileUse) (use : FileUse) :
    (tally name files).recordIfNew use =
      tally name (files.insertIfNew use.file.path.text use) := by
  rw [recordIfNew, SortedMap.insertIfNew, tally_files]
  split
  · rfl
  · rename_i hnew
    exact record_tally (SortedMap.contains_eq_false_iff.mp (Bool.eq_false_iff.mpr hnew))

/-- Recording several files keeps the numbers exact. -/
theorem recordAll_tally (name : String) (uses : List FileUse) (files : SortedMap FileUse) :
    (tally name files).recordAll uses =
      tally name ((uses.map entry).foldl (fun m e => m.insertIfNew e.1 e.2) files) := by
  induction uses generalizing files with
  | nil => rfl
  | cons use rest ih =>
    rw [recordAll, List.foldl_cons, recordIfNew_tally, List.map_cons, List.foldl_cons]
    exact ih _

/-! ## Merging in any order -/

/-- What merging another usage into a usage may give: its files are met in some order. -/
def MergesTo (u other result : Usage) : Prop :=
  ∃ uses : List FileUse, uses.Perm other.files.values ∧ result = u.recordAll uses

/-- One of those orders is that of the paths. -/
theorem mergesTo_merge (u other : Usage) : MergesTo u other (u.merge other) :=
  ⟨other.files.values, List.Perm.refl _, rfl⟩

/-- The entries of a map of files are its values, each under its path. -/
theorem map_entry_values {files : SortedMap FileUse} (h : FilesKeyed files) :
    files.values.map entry = files.entries := by
  rw [SortedMap.values, List.map_map]
  refine (List.map_congr_left ?_).trans (List.map_id _)
  rintro ⟨key, use⟩ he
  show (use.file.path.text, use) = (key, use)
  rw [h key use (SortedMap.mem_entries.mp he)]

/-- **However the files are met, a merge adds the files that are new, and its numbers are
exact.** -/
theorem mergesTo_tally {name other : String} {files more : SortedMap FileUse} {result : Usage}
    (hkeyed : FilesKeyed more) (h : MergesTo (tally name files) (tally other more) result) :
    result = tally name (files.union more) := by
  obtain ⟨uses, hperm, rfl⟩ := h
  rw [recordAll_tally]
  refine congrArg (tally name) (SortedMap.ext_get? fun key => ?_)
  have hentries : (uses.map entry).Perm more.entries := by
    rw [← map_entry_values hkeyed]
    exact hperm.map entry
  have hnodup : ((uses.map entry).map (·.1)).Nodup :=
    (hentries.map _).nodup_iff.mpr more.nodup_keys
  rw [SortedMap.get?_foldl_insertIfNew, SortedMap.get?_union,
    Entries.get?_perm hentries hnodup key]
  rfl

/-! ## The files that use a keyword -/

/-- The uses of a keyword in a file, if it has any. -/
def useOf? (keyword : String) (file : Specification) : Option FileUse :=
  if file.uses keyword = 0 then none else some ⟨file, file.uses keyword⟩

/-- The files that use a keyword, and how often each of them does. -/
def usesOf (keyword : String) (files : SortedMap Specification) : SortedMap FileUse :=
  files.filterMap (useOf? keyword)

/-- The usage of a keyword that some files use, recomputed; none if there is no such file. -/
def tally? (name : String) (files : SortedMap FileUse) : Option Usage :=
  if files.isEmpty then none else some (tally name files)

/-- The usage of a keyword, recomputed from the files; none if no file uses it. -/
def of? (keyword : String) (files : SortedMap Specification) : Option Usage :=
  tally? keyword (usesOf keyword files)

theorem get?_usesOf {keyword key : String} {files : SortedMap Specification} :
    (usesOf keyword files).get? key = (files.get? key).bind (useOf? keyword) :=
  SortedMap.get?_filterMap ..

/-- A file is listed under its path where all files are. -/
theorem filesKeyed_usesOf {keyword : String} {files : SortedMap Specification}
    (h : ∀ key file, files.get? key = some file → file.path.text = key) :
    FilesKeyed (usesOf keyword files) := by
  intro key use huse
  rw [get?_usesOf] at huse
  obtain ⟨file, hfile, huse⟩ := Option.bind_eq_some_iff.mp huse
  rw [useOf?] at huse
  split at huse
  · cases huse
  · cases huse
    exact h key file hfile

section Recomputed

variable {keyword key : String} {uses : SortedMap FileUse}

theorem tally?_eq_none : tally? keyword uses = none ↔ ∀ key, uses.get? key = none := by
  rw [tally?, ← SortedMap.isEmpty_iff]
  split
  · exact ⟨fun _ => ‹_›, fun _ => rfl⟩
  · rename_i hne
    constructor
    · intro h
      cases h
    · intro h
      exact absurd h hne

/-- There is a usage once some file uses the keyword. -/
theorem tally?_eq_some {use : FileUse} (h : uses.get? key = some use) :
    tally? keyword uses = some (tally keyword uses) := by
  refine if_neg fun hempty => ?_
  rw [SortedMap.isEmpty_iff.mp hempty key] at h
  cases h

/-- A usage is the recomputed one, and some file uses the keyword. -/
theorem tally?_eq_some_iff {u : Usage} :
    tally? keyword uses = some u ↔
      (∃ key use, uses.get? key = some use) ∧ tally keyword uses = u := by
  constructor
  · intro h
    rw [tally?] at h
    split at h
    · cases h
    · rename_i hne
      refine ⟨?_, Option.some.inj h⟩
      refine Classical.byContradiction fun hnone => hne (SortedMap.isEmpty_iff.mpr fun key => ?_)
      cases huse : uses.get? key with
      | none => rfl
      | some use => exact absurd ⟨key, use, huse⟩ hnone
  · rintro ⟨⟨key, use, huse⟩, rfl⟩
    exact tally?_eq_some huse

/-- Whether it is listed or not, a usage is the tally of the files that use the keyword. -/
theorem getD_tally? (keyword : String) (uses : SortedMap FileUse) :
    (tally? keyword uses).getD (unused keyword) = tally keyword uses := by
  rw [tally?]
  split
  · rename_i hempty
    have hnone : uses = SortedMap.empty :=
      SortedMap.ext_get? fun key => SortedMap.isEmpty_iff.mp hempty key
    rw [hnone, tally_empty]
    rfl
  · rfl

end Recomputed

end Usage

end KeywordCensus
