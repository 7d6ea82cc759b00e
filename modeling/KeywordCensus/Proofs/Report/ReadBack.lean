import KeywordCensus.Proofs.Census.Snapshot
import KeywordCensus.Proofs.Json.Floats
import KeywordCensus.Proofs.Json.Reading
import KeywordCensus.Proofs.Report.UsageTable
import KeywordCensus.Report.Basic
import Mathlib.Algebra.Order.BigOperators.Group.List
import Mathlib.Algebra.Order.Group.Nat

/-!
# What is read back from a report

The report of a census as a document holds the syntax trees that the parser printed and can be given
to the same reader again. Whole numbers, texts and the trees come back as they were. Two things stand
in the way of the rest. The trees lie three containers deeper than where they were read first, so that
the deepest ones are refused; and a mean is read digit by digit with rounding, so that it may come
back as a neighbour of what was written. `Census.ReadBack` says when a document is accepted, what it
is read as, and when that is the report.
-/

namespace KeywordCensus

/-- Is a number whole? -/
def JsonNumber.IsWhole : JsonNumber → Prop
  | .whole _ => True
  | .floating _ => False

instance : DecidablePred JsonNumber.IsWhole
  | .whole _ => .isTrue trivial
  | .floating _ => .isFalse id

namespace Json

variable {n : JsonNumber} {v : Json}

/-- The number that a value is. -/
def number? : Json → Option JsonNumber
  | .number n => some n
  | _ => none

instance {P : JsonNumber → Prop} [DecidablePred P] (v : Json) : Decidable (v.NumbersAre P) :=
  decidable_of_iff (∀ node ∈ v.nodes, ∀ n ∈ node.number?, P n)
    ⟨fun h n hn => h _ hn n rfl, fun h node hnode n hn => by
      cases node with
      | number m =>
        cases hn
        exact h _ hnode
      | _ => cases hn⟩

/-- A floating-point number as its text is read, and a whole number as it is. -/
def rereadFloating : JsonNumber → JsonNumber
  | .whole n => .whole n
  | .floating x => rereadNumber (.floating x)

/-- Does a number fit, and can its text be read? -/
def Legible (n : JsonNumber) : Prop := n.Fits ∧ (Numeral.read (writeNumber n)).isSome = true

theorem legible_whole {k : Int} (h : (JsonNumber.whole k).Fits) : Legible (.whole k) :=
  ⟨h, by rw [writeNumber, Numeral.read_writeWhole h]; rfl⟩

theorem legible_ofNat {k : Nat} (h : k < twoPow 64) : Legible (.whole k) := by
  have hfloor : (0 : Int) ≤ twoPow 63 := by decide
  exact legible_whole ⟨by omega, by omega⟩

theorem numbersAre_ofText? {P : JsonNumber → Prop} (s : Option String) :
    (ofText? s).NumbersAre P := by
  cases s with
  | none => exact numbersAre_null
  | some s => exact numbersAre_text s

/-- A number that fits is read back as itself, up to what its floating form is read as. -/
theorem rereadNumber_of_fits (h : n.Fits) : rereadNumber n = rereadFloating n := by
  cases n with
  | whole k => rw [rereadNumber, writeNumber, Numeral.read_writeWhole h, rereadFloating]; rfl
  | floating x => rfl

/-- Whole numbers come back, -/
theorem fixed_of_whole (h : v.NumbersAre JsonNumber.IsWhole) :
    v.NumbersAre fun n => rereadFloating n = n := by
  intro n hn
  cases n with
  | whole k => rfl
  | floating x => exact (h _ hn).elim

/-- and they are legible if they fit. -/
theorem legible_of_whole (hfits : v.NumbersAre JsonNumber.Fits)
    (h : v.NumbersAre JsonNumber.IsWhole) : v.NumbersAre Legible := by
  intro n hn
  cases n with
  | whole k => exact legible_whole (hfits _ hn)
  | floating x => exact (h _ hn).elim

/-- **A value with legible numbers is read back unless it is too deep**, and only its floating-point
numbers may have changed. -/
theorem read_indented (h : v.NumbersAre Legible) : read v.indented =
    if v.depth ≤ nestingLimit then some (v.canonical.mapNumbers rereadFloating) else none := by
  have hreadable : v.Readable := fun n hn => (h n hn).2
  have hreread : v.reread = v.mapNumbers rereadFloating :=
    mapNumbers_congr v fun n hn => rereadNumber_of_fits (h n hn).1
  rw [read, readDocument, indented, String.toList_ofList, readDocumentWithin_writeIndented hreadable,
    hreread]
  split
  · rw [Option.map_some, canonical_mapNumbers]
  · rfl

/-- The fields of a canonical form are the canonical forms of the fields, -/
theorem field?_canonical (v : Json) (h : (v.fields.map (·.1)).Nodup) (name : String) :
    v.canonical.field? name = (v.field? name).map canonical := by
  cases v with
  | object fields =>
    have hnodup : (fields.map (·.1)).Nodup := h
    rw [canonical_object, field?, field?, find?_entries, find?_entries]
    show ((SortedMap.ofList fields).map canonical).get? name = _
    rw [SortedMap.get?_map, SortedMap.get?_ofList_of_nodup hnodup]
  | _ => rfl

/-- and those of a list are the canonical forms of its values. -/
theorem field?_canonical_list {α : Type} {toJson : α → Json} {xs : List α} {v : Json} {name : String}
    (h : (v.fields.map (·.1)).Nodup) (hv : v.field? name = some (.array (xs.map toJson))) :
    v.canonical.field? name = some (.array (xs.map fun x => (toJson x).canonical)) := by
  rw [field?_canonical v h, hv, Option.map_some, canonical_array, List.map_map]
  rfl

/-- Changing the numbers of a value changes those of its fields. -/
theorem field?_mapNumbers (f : JsonNumber → JsonNumber) (v : Json) (name : String) :
    (v.mapNumbers f).field? name = (v.field? name).map (mapNumbers f) := by
  cases v with
  | object fields =>
    rw [mapNumbers_object, field?, field?, find?_entries, find?_entries, Entries.get?_map_values]
  | _ => rfl

end Json

/-- What a parser answers has been read from what it printed. -/
theorem ProcessOracle.read_of_parse {o : ProcessOracle} {m : Machine} {t : FileTree} {file : Path}
    {tree : Json} (h : o.parse m t file = .ok tree) :
    ∃ document, Json.read document = some tree := by
  rw [parse] at h
  split at h
  · cases h
  · rename_i document hdocument
    split at h
    · rename_i printed hprinted
      cases h
      exact ⟨document, hprinted⟩
    · cases h

/-! ## The numbers of a report -/

namespace Table.AddsUpTo

variable {numbers : List Nat} {u : Usage} {n : Nat}

/-- No count of a keyword is greater than the total, -/
theorem le_total (h : AddsUpTo numbers u) (hn : n ∈ numbers) : n ≤ u.total :=
  h.total ▸ List.le_sum_of_mem hn

/-- The least amount of a keyword is at most its total. -/
theorem least_le_total (h : AddsUpTo numbers u) (hn : u.least = some n) : n ≤ u.total := by
  rw [← h.least, List.min?_eq_some_iff] at hn
  exact h.le_total (List.mem_filter.mp hn.1).1

theorem greatest_le_total (h : AddsUpTo numbers u) (hn : u.greatest = some n) : n ≤ u.total := by
  rw [← h.greatest, List.max?_eq_some_iff] at hn
  exact h.le_total (List.mem_filter.mp hn.1).1

/-- and neither is the number of files. -/
theorem fileCount_le_total (h : AddsUpTo numbers u) : u.fileCount ≤ u.total := by
  rw [← h.fileCount, ← h.total, ← Table.sum_filter_ne_zero]
  exact List.length_le_sum_of_one_le _ fun n hn =>
    Nat.one_le_iff_ne_zero.mpr (of_decide_eq_true (List.mem_filter.mp hn).2)

end Table.AddsUpTo

/-- **The mean of a keyword is written so that it can be read.** -/
theorem Usage.legible_average {u : Usage} {x : Floating} (htotal : u.total < twoPow 64)
    (hcount : u.fileCount ≤ u.total) (hx : u.average = .ok x) : Json.Legible (.floating x) := by
  rw [average] at hx
  split at hx
  · cases hx
  · rename_i hempty
    cases hx
    have hfiles : u.fileCount ≠ 0 := fun hzero =>
      hempty (List.isEmpty_iff.mpr (List.eq_nil_of_length_eq_zero hzero))
    have hsize : twoPow 64 = 2 ^ 64 := rfl
    have hmean : Floating.AtMost 66 (Floating.div .binary64 (Floating.ofNat .binary64 u.total)
        (Floating.ofNat .binary64 u.fileCount)) :=
      Floating.atMost_div (Floating.atMost_ofNat (by omega : u.total ≤ 2 ^ 64) (by decide))
        (Floating.atLeastOne_ofNat hfiles (by omega : u.fileCount ≤ 2 ^ 64) (by decide)) (by decide)
    exact ⟨trivial, Numeral.isSome_read_writeFloating hmean (by decide)⟩

namespace Census

variable {c : Census} {depth : Nat}

section Numbers

variable {P : JsonNumber → Prop}

/-- The numbers of a file are those of its tree, its counts and its number of lines. -/
theorem numbersAre_file {f : Specification} (htree : f.tree.NumbersAre P)
    (hcounts : ∀ e ∈ f.counts.entries, P (.whole e.2)) (hlines : P (.whole f.lines)) :
    (f.toJson depth).NumbersAre P := by
  have htally : (Json.ofMap Json.ofNat f.counts).NumbersAre P :=
    Json.numbersAre_object.mpr (List.forall_mem_map.mpr fun e he =>
      Json.numbersAre_number.mpr (hcounts e he))
  rw [Specification.toJson, Json.numbersAre_object]
  simp only [List.forall_mem_cons]
  exact ⟨Json.numbersAre_text _, Json.numbersAre_ofText? _, htree, htally,
    Json.numbersAre_number.mpr hlines, List.forall_mem_nil _⟩

/-- The numbers of a keyword are its bounds, its total and its mean. -/
theorem numbersAre_keyword {u : Usage} (hbounds : ∀ n, u.greatest = some n ∨ u.least = some n →
    P (.whole n)) (htotal : P (.whole u.total)) (hmean : ∀ x, u.average = .ok x → P (.floating x)) :
    (u.toJson depth).NumbersAre P := by
  have hpaths : (Json.array ((u.pathTexts depth).map Json.text)).NumbersAre P :=
    Json.numbersAre_array.mpr (List.forall_mem_map.mpr fun path _ => Json.numbersAre_text path)
  have hbound : ∀ bound : Option Nat, (∀ n, bound = some n → P (.whole n)) →
      (Json.ofNat? bound).NumbersAre P := by
    intro bound hbound
    cases bound with
    | none => exact Json.numbersAre_null
    | some n => exact Json.numbersAre_number.mpr (hbound n rfl)
  rw [Usage.toJson, Json.numbersAre_object]
  simp only [List.forall_mem_cons]
  refine ⟨Json.numbersAre_text _, hpaths, hbound _ fun n hn => hbounds n (.inl hn),
    hbound _ fun n hn => hbounds n (.inr hn), ?_, Json.numbersAre_number.mpr htotal,
    List.forall_mem_nil _⟩
  -- A keyword without a mean is written with none.
  split
  · rename_i x hx
    exact Json.numbersAre_number.mpr (hmean x hx)
  · exact Json.numbersAre_null

theorem numbersAre_skipped (entry : SkippedFile) : entry.toJson.NumbersAre P := by
  rw [SkippedFile.toJson, Json.numbersAre_object]
  simp only [List.forall_mem_cons]
  exact ⟨Json.numbersAre_text _, Json.numbersAre_text _, List.forall_mem_nil _⟩

theorem numbersAre_version (info : VersionInfo) : info.toJson.NumbersAre P := by
  rw [VersionInfo.toJson, Json.numbersAre_object]
  simp only [List.forall_mem_cons]
  exact ⟨Json.numbersAre_ofText? _, Json.numbersAre_ofText? _, List.forall_mem_nil _⟩

/-- The numbers of a report are those of its files and its keywords. -/
theorem numbersAre_toJson (hfiles : ∀ f ∈ c.files, (f.toJson depth).NumbersAre P)
    (hkeywords : ∀ u ∈ c.keywords, (u.toJson depth).NumbersAre P) :
    (c.toJson depth).NumbersAre P := by
  rw [toJson, Json.numbersAre_object]
  simp only [List.forall_mem_cons, Json.numbersAre_array, List.forall_mem_map]
  refine ⟨?_, hfiles, hkeywords, fun entry _ => numbersAre_skipped entry, List.forall_mem_nil _⟩
  split
  · exact numbersAre_version _
  · exact Json.numbersAre_null

end Numbers

/-- Do the counts of a census fit into 64 bits? -/
structure Countable (c : Census) : Prop where
  lines : ∀ f ∈ c.files, f.lines < twoPow 64
  totals : ∀ u ∈ c.keywords, u.total < twoPow 64

section Legible

variable (hc : c.index.Consistent) (hcounts : c.Countable)

include hc hcounts

/-- What is counted in a file is part of the total of a keyword. -/
theorem count_lt {f : Specification} (hf : f ∈ c.files) {key : String} {n : Nat}
    (hn : (key, n) ∈ f.counts.entries) : n < twoPow 64 := by
  have huses : f.uses key = n := by
    rw [Specification.uses, Tally.count, SortedMap.mem_entries.mp hn]
    rfl
  -- A count that is not zero is part of the total of its keyword.
  by_cases hzero : f.uses key = 0
  · rw [← huses, hzero]
    exact twoPow_pos 64
  · have hpath := (Index.get?_byPath hc.keyed).mpr ⟨(Index.mem_values_iff hc.keyed).mp hf, rfl⟩
    have huse : (Usage.usesOf key (Index.byPath c.index.files)).get? f.path.text =
        some ⟨f, f.uses key⟩ := by
      rw [Usage.get?_usesOf, hpath, Option.bind_some, Usage.useOf?_eq_some hzero]
    have hkeyword := (hc.counted key).trans (Usage.tally?_eq_some huse)
    have hmem := List.mem_map_of_mem (f := fun f : Specification => f.uses key) hf
    have htotal := (Table.addsUpTo_of_keyword? hc hkeyword).le_total hmem
    rw [huses] at htotal
    exact Nat.lt_of_le_of_lt htotal (hcounts.totals _ (SortedMap.mem_values.mpr ⟨key, hkeyword⟩))

/-- **All numbers of a report are legible**, if those of the syntax trees are. -/
theorem legible_toJson (htrees : ∀ f ∈ c.files, f.tree.NumbersAre Json.Legible) :
    (c.toJson depth).NumbersAre Json.Legible := by
  refine numbersAre_toJson (fun f hf => ?_) fun u hu => ?_
  · exact numbersAre_file (htrees f hf) (fun e he => Json.legible_ofNat (count_lt hc hcounts hf he))
      (Json.legible_ofNat (hcounts.lines f hf))
  · obtain ⟨keyword, hkeyword⟩ := SortedMap.mem_values.mp hu
    have hadds := Table.addsUpTo_of_keyword? hc hkeyword
    have htotal := hcounts.totals u hu
    refine numbersAre_keyword (fun n hn => ?_) (Json.legible_ofNat htotal)
      fun x hx => Usage.legible_average htotal hadds.fileCount_le_total hx
    have hle : n ≤ u.total := hn.elim (fun h => hadds.greatest_le_total h) hadds.least_le_total
    exact Json.legible_ofNat (Nat.lt_of_le_of_lt hle htotal)

end Legible

/-! ## The depth of a report -/

section Depth

variable {n : Nat}

theorem depth_ofText? (s : Option String) : (Json.ofText? s).depth = 0 := by
  cases s <;> rfl

theorem depth_ofNat? (bound : Option Nat) : (Json.ofNat? bound).depth = 0 := by
  cases bound <;> rfl

/-- A file in the report is one container deeper than its tree. -/
theorem depth_file_le {f : Specification} :
    (f.toJson depth).depth ≤ n + 1 + 1 ↔ f.tree.depth ≤ n + 1 := by
  have htally : (Json.ofMap Json.ofNat f.counts).depth ≤ n + 1 :=
    Json.depth_object_le.mpr (List.forall_mem_map.mpr fun e _ => Nat.zero_le n)
  rw [Specification.toJson, Json.depth_object_le]
  simp only [List.forall_mem_cons, depth_ofText?]
  exact ⟨fun h => h.2.2.1, fun h => ⟨Nat.zero_le _, Nat.zero_le _, h, htally, Nat.zero_le _,
    List.forall_mem_nil _⟩⟩

theorem depth_keyword_le (u : Usage) : (u.toJson depth).depth ≤ n + 1 + 1 := by
  have hpaths : (Json.array ((u.pathTexts depth).map Json.text)).depth ≤ n + 1 :=
    Json.depth_array_le.mpr (List.forall_mem_map.mpr fun path _ => Nat.zero_le n)
  rw [Usage.toJson, Json.depth_object_le]
  simp only [List.forall_mem_cons, depth_ofNat?]
  refine ⟨Nat.zero_le _, hpaths, Nat.zero_le _, Nat.zero_le _, ?_, Nat.zero_le _,
    List.forall_mem_nil _⟩
  split <;> exact Nat.zero_le _

theorem depth_version_le (info : VersionInfo) : info.toJson.depth ≤ n + 1 := by
  rw [VersionInfo.toJson, Json.depth_object_le]
  simp only [List.forall_mem_cons, depth_ofText?]
  exact ⟨Nat.zero_le _, Nat.zero_le _, List.forall_mem_nil _⟩

theorem depth_skipped_le (entry : SkippedFile) : entry.toJson.depth ≤ n + 1 := by
  rw [SkippedFile.toJson, Json.depth_object_le]
  simp only [List.forall_mem_cons]
  exact ⟨Nat.zero_le _, Nat.zero_le _, List.forall_mem_nil _⟩

/-- **A report is three containers deeper than the syntax trees in it.** -/
theorem depth_toJson_le :
    (c.toJson depth).depth ≤ n + 1 + 3 ↔ ∀ f ∈ c.files, f.tree.depth ≤ n + 1 := by
  rw [toJson, Json.depth_object_le]
  simp only [List.forall_mem_cons, Json.depth_array_le, List.forall_mem_map]
  constructor
  · intro h f hf
    exact depth_file_le.mp (h.2.1 f hf)
  · intro h
    refine ⟨?_, fun f hf => depth_file_le.mpr (h f hf), fun u _ => depth_keyword_le u,
      fun entry _ => depth_skipped_le entry, List.forall_mem_nil _⟩
    split
    · exact depth_version_le _
    · exact Nat.zero_le _

end Depth

/-! ## Reading a report -/

/-- How the document of a census is read. -/
structure ReadBack (c : Census) (settings : ReportSettings) : Prop where
  /-- It is accepted if no tree is too deep with the three containers around it, and only then. -/
  accepted : (Json.read (c.toDocument settings)).isSome = true ↔
    ∀ f ∈ c.files, f.tree.depth + 3 ≤ Json.nestingLimit
  /-- It is read as the report, its floating-point numbers as their texts are read. -/
  value : ∀ v, Json.read (c.toDocument settings) = some v →
    v = (c.toJson settings.pathDepth).canonical.mapNumbers Json.rereadFloating
  /-- The records of the files and of the skipped files are those of the report, -/
  records : ∀ v, Json.read (c.toDocument settings) = some v →
    v.field? "essence_files" =
        some (.array (c.files.map fun f => (f.toJson settings.pathDepth).canonical)) ∧
      v.field? "skipped_files" = some (.array (c.skipped.map fun entry => entry.toJson.canonical))
  /-- with the trees that the parser printed. -/
  trees : ∀ f ∈ c.files,
    (f.toJson settings.pathDepth).canonical.field? "ast" = some f.tree
  /-- The whole report comes back if it is accepted and all means come back. -/
  faithful : Json.read (c.toDocument settings) =
      some (c.toJson settings.pathDepth).canonical ↔
    (∀ f ∈ c.files, f.tree.depth + 3 ≤ Json.nestingLimit) ∧
      ∀ u ∈ c.keywords, ∀ x, u.average = .ok x →
        Json.rereadFloating (.floating x) = .floating x

section Fields

variable (c) (depth)

theorem nodup_fields_toJson : ((c.toJson depth).fields.map (·.1)).Nodup :=
  show ["oracle_version", "essence_files", "essence_keywords", "skipped_files"].Nodup by decide

theorem field?_files : (c.toJson depth).canonical.field? "essence_files" =
    some (.array (c.files.map fun f => (f.toJson depth).canonical)) :=
  Json.field?_canonical_list (nodup_fields_toJson c depth) rfl

theorem field?_keywords : (c.toJson depth).canonical.field? "essence_keywords" =
    some (.array (c.keywords.map fun u => (u.toJson depth).canonical)) :=
  Json.field?_canonical_list (nodup_fields_toJson c depth) rfl

theorem field?_skipped : (c.toJson depth).canonical.field? "skipped_files" =
    some (.array (c.skipped.map fun entry => entry.toJson.canonical)) :=
  Json.field?_canonical_list (nodup_fields_toJson c depth) rfl

theorem field?_tree (f : Specification) :
    (f.toJson depth).canonical.field? "ast" = some f.tree.canonical :=
  Json.field?_canonical (f.toJson depth)
    (show ["path", "repo", "ast", "keyword_counts", "n_lines"].Nodup by decide) "ast"

theorem field?_mean {u : Usage} {x : Floating} (hx : u.average = .ok x) :
    (u.toJson depth).canonical.field? "avg_usages_per_file" = some (.number (.floating x)) := by
  have hfield : (u.toJson depth).field? "avg_usages_per_file" = some (.number (.floating x)) := by
    rw [Usage.toJson, hx]
    rfl
  have hnames : ((u.toJson depth).fields.map (·.1)).Nodup :=
    show ["name", "used_in_files", "max_usages_in_file", "min_usages_in_file",
      "avg_usages_per_file", "total_usages"].Nodup by decide
  rw [Json.field?_canonical _ hnames, hfield]
  rfl

end Fields

/-- The record of a file comes back if the numbers in its tree are whole, -/
theorem reread_file {f : Specification} (hwhole : f.tree.NumbersAre JsonNumber.IsWhole) :
    (f.toJson depth).canonical.mapNumbers Json.rereadFloating = (f.toJson depth).canonical := by
  have hfixed : (f.toJson depth).NumbersAre fun n => Json.rereadFloating n = n :=
    numbersAre_file (Json.fixed_of_whole hwhole) (fun _ _ => rfl) rfl
  exact (Json.mapNumbers_eq_self_iff _).mpr hfixed.canonical

/-- and that of a skipped file does in any case. -/
theorem reread_skipped (entry : SkippedFile) :
    entry.toJson.canonical.mapNumbers Json.rereadFloating = entry.toJson.canonical :=
  (Json.mapNumbers_eq_self_iff _).mpr (numbersAre_skipped entry).canonical

/-- Whole numbers come back, so that a report comes back if its means do. -/
theorem reread_toJson_iff (hwhole : ∀ f ∈ c.files, f.tree.NumbersAre JsonNumber.IsWhole) :
    (c.toJson depth).canonical.mapNumbers Json.rereadFloating = (c.toJson depth).canonical ↔
      ∀ u ∈ c.keywords, ∀ x, u.average = .ok x →
        Json.rereadFloating (.floating x) = .floating x := by
  constructor
  · intro hsame u hu x hx
    -- The mean of each keyword is found in the document, and so among what stays the same.
    have hkeywords := congrArg (Json.field? "essence_keywords") hsame
    rw [Json.field?_mapNumbers, field?_keywords, Option.map_some, Json.mapNumbers_array,
      Option.some.injEq, Json.array.injEq, List.map_map, List.map_inj_left] at hkeywords
    have hmean := congrArg (Json.field? "avg_usages_per_file") (hkeywords u hu)
    rw [Function.comp, Json.field?_mapNumbers, field?_mean depth hx] at hmean
    exact Json.number.inj (Option.some.inj hmean)
  · intro hmeans
    refine (Json.mapNumbers_eq_self_iff _).mpr (Json.NumbersAre.canonical ?_)
    refine numbersAre_toJson (fun f hf => ?_) fun u hu => ?_
    · exact numbersAre_file (Json.fixed_of_whole (hwhole f hf)) (fun _ _ => rfl) rfl
    · exact numbersAre_keyword (fun _ _ => rfl) rfl (hmeans u hu)

/-- What can be read back of the report of a consistent index, once its counts and trees are within
the reader. -/
theorem readBack_of_consistent (hc : c.index.Consistent) (hcounts : c.Countable)
    (htrees : ∀ f ∈ c.files, f.tree.NumbersAre JsonNumber.Fits ∧ f.tree.canonical = f.tree)
    (hwhole : ∀ f ∈ c.files, f.tree.NumbersAre JsonNumber.IsWhole) (settings : ReportSettings) :
    ReadBack c settings := by
  have hlegible : (c.toJson settings.pathDepth).NumbersAre Json.Legible :=
    legible_toJson hc hcounts fun f hf => Json.legible_of_whole (htrees f hf).1 (hwhole f hf)
  have hdepth : (c.toJson settings.pathDepth).depth ≤ Json.nestingLimit ↔
      ∀ f ∈ c.files, f.tree.depth + 3 ≤ Json.nestingLimit :=
    (depth_toJson_le : _ ≤ 123 + 1 + 3 ↔ _).trans
      (forall₂_congr fun f _ => (Nat.add_le_add_iff_right : _ ↔ f.tree.depth ≤ 123 + 1).symm)
  have hread := Json.read_indented hlegible
  -- The reader gives the document itself, or nothing at all.
  have hvalue : ∀ v, Json.read (c.toDocument settings) = some v →
      v = (c.toJson settings.pathDepth).canonical.mapNumbers Json.rereadFloating := by
    intro v hv
    rw [toDocument, hread] at hv
    split at hv
    · exact (Option.some.inj hv).symm
    · cases hv
  have hfields (v : Json) (hv : Json.read (c.toDocument settings) = some v) (name : String)
      {items : List Json}
      (hfield : (c.toJson settings.pathDepth).canonical.field? name = some (.array items)) :
      v.field? name = some (.array (items.map (Json.mapNumbers Json.rereadFloating))) := by
    rw [hvalue v hv, Json.field?_mapNumbers, hfield, Option.map_some, Json.mapNumbers_array]
  refine ⟨?_, hvalue, fun v hv => ⟨?_, ?_⟩, fun f hf => ?_, ?_⟩
  · -- What is accepted is a matter of depth alone.
    rw [← hdepth, toDocument, hread]
    split
    · exact iff_of_true rfl ‹_›
    · exact iff_of_false Bool.false_ne_true ‹_›
  · rw [hfields v hv "essence_files" (field?_files c _), List.map_map]
    exact congrArg (fun files => some (Json.array files))
      (List.map_congr_left fun f hf => reread_file (hwhole f hf))
  · rw [hfields v hv "skipped_files" (field?_skipped c _), List.map_map]
    exact congrArg (fun skipped => some (Json.array skipped))
      (List.map_congr_left fun entry _ => reread_skipped entry)
  · rw [field?_tree, (htrees f hf).2]
  · rw [← hdepth, ← reread_toJson_iff hwhole, toDocument, hread]
    split
    · rw [Option.some.injEq]
      exact (and_iff_right ‹_›).symm
    · exact iff_of_false (by rintro ⟨⟩) fun h => absurd h.1 ‹_›

/-- **The document of a census is read back.** Its whole numbers and texts and the trees that the
parser printed come back as they were, from any file and any path; what keeps the document from being
accepted is a tree that is too deep for the containers around it, and what keeps it from being equal
is a mean that is read as another number. -/
theorem readBack_ofOracle {settings : CensusSettings} {t : FileTree} {o : ProcessOracle}
    {m : Machine} (h : ofOracle settings t (o.toOracle m t) = .ok c) (hcounts : c.Countable)
    (hwhole : ∀ f ∈ c.files, f.tree.NumbersAre JsonNumber.IsWhole)
    (version : Option VersionInfo) (report : ReportSettings) :
    ReadBack { c with version := version } report := by
  have hparsed : ∀ f ∈ c.files, f.tree.NumbersAre JsonNumber.Fits ∧ f.tree.canonical = f.tree := by
    intro f hf
    obtain ⟨cs, -, hindex, -, -⟩ := ofOracle_eq_ok h
    rw [files, hindex] at hf
    obtain ⟨candidate, -, found, hload, rfl⟩ := Scan.load_of_mem_files hf
    obtain ⟨-, htree, -, -, -⟩ := Specification.load_eq_ok hload
    obtain ⟨document, hdocument⟩ := ProcessOracle.read_of_parse htree
    exact Json.numbersAre_of_read hdocument
  have hconsistent : c.index.Consistent := consistent_of_ofOracle h
  exact readBack_of_consistent (c := { c with version := version }) hconsistent
    ⟨hcounts.lines, hcounts.totals⟩ hparsed hwhole report

/-- The mean of thirteen uses in eleven files is read as its neighbour. -/
example : Json.rereadFloating (.floating (Floating.div .binary64 (Floating.ofNat .binary64 13)
    (Floating.ofNat .binary64 11))) = .floating (.finite false 5322435923256042 (-52)) := by
  decide +kernel

/-- Arrays in arrays. -/
def nested : Nat → Json
  | 0 => .array []
  | n + 1 => .array [nested n]

/-- A tree with one specification and a parser. -/
def printerTree : FileTree :=
  ⟨.directory [("conjure", .file "".toUTF8 0o755),
    ("x.essence", .file "find x\n".toUTF8 0o644)], [], List.forall_mem_nil _⟩

/-- A machine on which the parser prints so many arrays. -/
def printerMachine (n : Nat) : Machine :=
  ⟨fun _ _ _ => ⟨(nested n).indented.toUTF8, "".toUTF8, .exits 0⟩, 0, Disk.reliable, Hosts.silent⟩

/-- That parser. -/
def printerOracle : ProcessOracle := ⟨⟨"/conjure"⟩, ⟨60000⟩⟩

/-- The settings for all of that tree. -/
def printerSettings : CensusSettings :=
  ⟨⟨"/"⟩, [], .binary ⟨"/conjure"⟩, ⟨60000⟩, SortedMap.empty, none, none, false⟩

/-- The settings of a report as a document. -/
def documentReport : ReportSettings := ⟨⟨"/report"⟩, .json, 2, none, 1, .mostUsed⟩

theorem fromUTF8?_toUTF8 (s : String) : String.fromUTF8? s.toUTF8 = some s :=
  dif_pos s.isValidUTF8

theorem depth_nested (n : Nat) : (nested n).depth = n + 1 := by
  induction n with
  | zero => rfl
  | succ n ih =>
    rw [nested, Json.depth, Json.depthItems, Json.depthItems, ih, Nat.max_zero, Nat.add_comm]

theorem canonical_nested (n : Nat) : (nested n).canonical = nested n := by
  induction n with
  | zero => rfl
  | succ n ih => rw [nested, Json.canonical_array, List.map_singleton, ih]

theorem numbersAre_nested {P : JsonNumber → Prop} (n : Nat) : (nested n).NumbersAre P := by
  induction n with
  | zero => exact Json.numbersAre_array.mpr (List.forall_mem_nil _)
  | succ n ih =>
    exact Json.numbersAre_array.mpr (List.forall_mem_cons.mpr ⟨ih, List.forall_mem_nil _⟩)

/-- The parser answers with arrays up to the limit of the reader. -/
theorem parse_nested {n : Nat} (hn : n + 1 ≤ Json.nestingLimit) (file : Path) :
    printerOracle.parse (printerMachine n) printerTree file = .ok (nested n) := by
  have hstart : ProcessOracle.startable printerTree printerOracle.binary = .ok ["conjure"] := by
    decide +kernel
  have hrun : printerOracle.run (printerMachine n) printerTree (ProcessOracle.parseArguments file) =
      .ok (nested n).indented := by
    have hclock : ¬ ProcessOracle.lastSecond < 0 + printerOracle.timeout.seconds := by decide +kernel
    have hends : ¬ (Ending.exits 0 = .hangs ∨ printerOracle.timeout.milliseconds = 0) := by decide
    rw [ProcessOracle.run, hstart]
    simp only [printerMachine, if_neg hclock, if_neg hends, fromUTF8?_toUTF8]
    rfl
  have hread : Json.read (nested n).indented = some (nested n) := by
    rw [Json.read_indented (numbersAre_nested n), depth_nested, if_pos hn, canonical_nested,
      (Json.mapNumbers_eq_self_iff _).mpr (numbersAre_nested n)]
  rw [ProcessOracle.parse, hrun]
  simp only [hread]

/-- A tree that the parser printed and the reader accepted, in a report that it refuses. -/
theorem readBack_nested : ∃ c, ofOracle printerSettings printerTree
      (printerOracle.toOracle (printerMachine 124) printerTree) = .ok c ∧
    c.files.map (fun f => f.tree.depth) = [125] ∧ ReadBack c documentReport ∧
      Json.read (c.toDocument documentReport) = none := by
  have horacle : printerOracle.toOracle (printerMachine 124) printerTree = ⟨fun _ => .ok (nested 124),
      printerOracle.version (printerMachine 124) printerTree⟩ := by
    rw [ProcessOracle.toOracle, funext (parse_nested (by decide))]
  have hread : (ofOracle printerSettings printerTree
      (printerOracle.toOracle (printerMachine 124) printerTree)).toOption.map (fun c =>
        (c.files.map fun f => f.tree.depth, c.files.map Specification.lines,
          c.files.map fun f => decide (f.tree.NumbersAre JsonNumber.IsWhole),
          c.keywords.map Usage.total)) = some ([125], [1], [true], []) := by
    rw [horacle]
    decide +kernel
  obtain ⟨c, hc, hfacts⟩ := Option.map_eq_some_iff.mp hread
  obtain ⟨hdepth, hlines, hwhole, htotals⟩ : _ ∧ _ ∧ _ ∧ _ := by
    simpa only [Prod.mk.injEq] using hfacts
  have hcensus := eq_ok_of_toOption hc
  have hcounts : c.Countable := by
    constructor
    · intro f hf
      have hmem := List.mem_map_of_mem (f := Specification.lines) hf
      rw [hlines, List.mem_singleton] at hmem
      rw [hmem]
      decide
    · intro u hu
      have hmem := List.mem_map_of_mem (f := Usage.total) hu
      rw [htotals] at hmem
      cases hmem
  have hnumbers : ∀ f ∈ c.files, f.tree.NumbersAre JsonNumber.IsWhole := by
    intro f hf
    have hmem := List.mem_map_of_mem
      (f := fun f : Specification => decide (f.tree.NumbersAre JsonNumber.IsWhole)) hf
    rw [hwhole, List.mem_singleton] at hmem
    exact of_decide_eq_true hmem
  have hback := readBack_ofOracle hcensus hcounts hnumbers c.version documentReport
  refine ⟨c, hcensus, hdepth, hback, Option.not_isSome_iff_eq_none.mp fun hsome => ?_⟩
  obtain ⟨f, hf, hdeep⟩ : ∃ f ∈ c.files, f.tree.depth = 125 :=
    List.mem_map.mp (hdepth ▸ List.mem_singleton_self 125)
  have hlimit := hback.accepted.mp hsome f hf
  rw [hdeep] at hlimit
  exact absurd hlimit (by decide)

end Census

end KeywordCensus
