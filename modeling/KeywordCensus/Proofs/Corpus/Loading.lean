import KeywordCensus.Corpus.Specification
import KeywordCensus.Proofs.Map.Lookup
import KeywordCensus.Proofs.Path.Canonical

/-!
# What loading a specification gives

A specification that has been loaded lies at a canonical path, and every key that its counts list
occurs at least once (`Specification.sound_of_load`). What is loaded is decided by the canonical
path alone: two paths that lead to the same file give the same specification or the same failure
(`load_congr`).
-/

namespace KeywordCensus

namespace Tally

/-- Is every listed key counted at least once? -/
def Positive (t : Tally) : Prop := ∀ key n, t.get? key = some n → 0 < n

theorem positive_empty : Positive SortedMap.empty := by
  intro key n h
  rw [SortedMap.get?_empty] at h
  cases h

/-- Counting a key once more keeps every entry at one or more. -/
theorem positive_bump {t : Tally} (h : t.Positive) (key : String) : (t.bump key).Positive := by
  intro other n hn
  rw [bump, SortedMap.get?_insert] at hn
  split at hn
  · cases hn
    exact Nat.succ_pos _
  · exact h other n hn

theorem positive_addFields {blocked : TextSet} (fields : List (String × Json)) {t : Tally}
    (h : t.Positive) : (addFields blocked t fields).Positive := by
  induction fields generalizing t with
  | nil => exact h
  | cons field rest ih =>
    rw [addFields, List.foldl_cons]
    refine ih ?_
    split
    · exact h
    · exact positive_bump h _

end Tally

/-- No entry of a tally that the loop returns is zero: it only ever counts upwards. -/
theorem positive_countPending {blocked : TextSet} (pending : List Json) (t : Tally)
    (h : t.Positive) : (countPending blocked pending t).Positive := by
  induction pending, t using countPending.induct blocked with
  | case1 t =>
    rw [countPending]
    exact h
  | case2 tree pending t ih =>
    rw [countPending]
    exact ih (Tally.positive_addFields _ h)

/-- No key is listed without an occurrence. -/
theorem positive_countKeys (blocked : TextSet) (tree : Json) :
    (countKeys blocked tree).Positive :=
  positive_countPending _ _ Tally.positive_empty

namespace Specification

/-- What holds of every specification that has been loaded: its path is its own normal form, and
every listed key occurs. -/
structure Sound (file : Specification) : Prop where
  canonical : file.pathText 0 = file.path.shown
  positive : file.counts.Positive

variable {t : FileTree} {oracle : Oracle} {blocked : TextSet} {p q : Path} {file : Specification}

theorem canonicalPath?_eq_some {canonical : Path} (h : canonicalPath? t p = some canonical) :
    t.canonicalize p = .ok canonical := by
  rw [canonicalPath?] at h
  split at h
  · rename_i found hfound
    split at h
    · rw [hfound, ← Option.some.inj h]
    · cases h
  · cases h

/-- Everything that a successful load has found out. -/
theorem load_eq_ok (h : load t oracle blocked p = .ok file) :
    canonicalPath? t p = some file.path ∧ oracle.parse file.path = .ok file.tree ∧
      t.countLines file.path = .ok file.lines ∧ file.counts = countKeys blocked file.tree ∧
      file.repository = none := by
  rw [load] at h
  split at h
  · cases h
  · rename_i canonical hcanonical
    split at h
    · cases h
    · rename_i tree htree
      split at h
      · cases h
      · rename_i lines hlines
        cases h
        exact ⟨hcanonical, htree, hlines, rfl, rfl⟩

/-- **What a load gives depends on the canonical path only.** -/
theorem load_congr {canonical : Path} (hp : canonicalPath? t p = some canonical)
    (hq : canonicalPath? t q = some canonical) :
    load t oracle blocked p = load t oracle blocked q := by
  rw [load, load, hp, hq]

/-- A loaded specification is sound. -/
theorem sound_of_load (h : load t oracle blocked p = .ok file) : file.Sound := by
  obtain ⟨hpath, -, -, hcounts, -⟩ := load_eq_ok h
  constructor
  · rw [pathText, FileTree.trim_canonicalize (canonicalPath?_eq_some hpath)]
  · rw [hcounts]
    exact positive_countKeys blocked file.tree

theorem sound_inRepository (h : file.Sound) (name : String) : (file.inRepository name).Sound :=
  ⟨h.canonical, h.positive⟩

/-- Has the specification been loaded, and put down to a repository or not? -/
def Loaded (file : Specification) : Prop :=
  ∃ t oracle blocked p found, load t oracle blocked p = .ok found ∧
    (file = found ∨ ∃ name, file = found.inRepository name)

/-- A file that came off a disk is sound: its counts are those of its tree. -/
theorem sound_of_loaded (h : file.Loaded) : file.Sound := by
  obtain ⟨t, oracle, blocked, p, found, hload, rfl | ⟨name, rfl⟩⟩ := h
  · exact sound_of_load hload
  · exact sound_inRepository (sound_of_load hload) name

/-- The keywords of a sound specification are those that it uses. -/
theorem mem_keywords (h : file.Sound) {keyword : String} :
    keyword ∈ file.keywords ↔ file.uses keyword ≠ 0 := by
  rw [keywords, SortedMap.mem_keys, uses, Tally.count]
  cases hcount : file.counts.get? keyword with
  | none =>
    constructor
    · rintro ⟨n, hn⟩
      cases hn
    · intro hne
      exact absurd rfl hne
  | some n =>
    constructor
    · intro _
      exact Nat.pos_iff_ne_zero.mp (h.positive keyword n hcount)
    · intro _
      exact ⟨n, rfl⟩

end Specification

end KeywordCensus
