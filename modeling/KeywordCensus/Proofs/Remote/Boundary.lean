import KeywordCensus.Proofs.Path.Child
import KeywordCensus.Proofs.Remote.Layout

/-!
# Clones stay below the root directory, or do not

A remote is cloned into a directory of its name in a directory of its owner, two names below the root
directory. That holds as long as both can be names of entries (`Remote.Named`). An owner that is a
step, or a name that is a step or nothing at all, is not refused by the reading of a url, and then the
clone directory is spelled as the root directory itself, as one above or beside it, or as the
directory of an owner, in which other clones lie (`Remote.Escapes`). There is nothing between the two
(`Remote.escapes_iff`).
-/

namespace KeywordCensus

namespace Remote

variable {r s : Remote} {base place : Location} {owner name : String}

/-- Can the owner and the name of a remote be names of entries? -/
def Named (r : Remote) : Prop := Path.IsName r.repository.owner ∧ Path.IsName r.repository.name

/-- Is a place that of the root directory, above it or beside it, or the directory of an owner? -/
def Escapes (base place : Location) : Prop :=
  place <+: base ∨ (∃ sibling, place = base.dropLast ++ [sibling]) ∨ ∃ owner, place = base ++ [owner]

/-- Two names deep is neither at the root directory nor next to it. -/
theorem not_escapes_below : ¬ Escapes base (base ++ [owner, name]) := by
  have hdeep : (base ++ [owner, name]).length = base.length + 2 := List.length_append
  rintro (habove | ⟨sibling, heq⟩ | ⟨other, heq⟩)
  · have hlength := habove.length_le
    omega
  · rw [heq, List.length_append, List.length_dropLast, List.length_singleton] at hdeep
    omega
  · rw [heq, List.length_append, List.length_singleton] at hdeep
    omega

/-- One step that is no name, after or before a name, does not lead below an owner. -/
theorem escapes_enter (howner : '/' ∉ owner.toList) (hname : '/' ∉ name.toList)
    (h : ¬ (Path.IsName owner ∧ Path.IsName name)) :
    Escapes base (Path.enter (Path.enter base owner) name) := by
  rcases Path.isName_or_step howner with hown | hstay | hup
  · rw [Path.enter_of_isName base hown]
    rcases Path.isName_or_step hname with hin | hstay | hup
    · exact absurd ⟨hown, hin⟩ h
    · rw [Path.enter_of_stay _ hstay]
      exact .inr (.inr ⟨owner, rfl⟩)
    · rw [Path.enter_of_up _ hup, List.dropLast_concat]
      exact .inl (List.prefix_refl base)
  · rw [Path.enter_of_stay _ hstay]
    rcases Path.isName_or_step hname with hin | hstay | hup
    · rw [Path.enter_of_isName base hin]
      exact .inr (.inr ⟨name, rfl⟩)
    · rw [Path.enter_of_stay _ hstay]
      exact .inl (List.prefix_refl base)
    · rw [Path.enter_of_up _ hup]
      exact .inl (List.dropLast_prefix base)
  · rw [Path.enter_of_up _ hup]
    rcases Path.isName_or_step hname with hin | hstay | hup
    · rw [Path.enter_of_isName _ hin]
      exact .inr (.inl ⟨name, rfl⟩)
    · rw [Path.enter_of_stay _ hstay]
      exact .inl (List.dropLast_prefix base)
    · rw [Path.enter_of_up _ hup]
      exact .inl ((List.dropLast_prefix _).trans (List.dropLast_prefix base))

/-! ## The clones of remotes that are read from settings -/

/-- The place of the clone directory of a remote, by its spelling. -/
def spelled (workDir : Location) (root : Path) (r : Remote) : Location :=
  Path.spelledPlace workDir (r.cloneDirectory root)

theorem not_mem_bytes {text : String} (h : '/' ∉ text.toList) : '/' ∉ (Text.toBytes text).toList := by
  rwa [Text.mem_toBytes (by decide)]

/-- The spelled place of a clone is entered owner first and then the name, when neither has a
separator. -/
theorem spelled_eq (workDir : Location) (root : Path) (howner : '/' ∉ r.repository.owner.toList)
    (hname : '/' ∉ r.repository.name.toList) :
    spelled workDir root r =
      Path.enter
        (Path.enter (Path.spelledPlace workDir root) (Text.toBytes r.repository.owner))
        (Text.toBytes r.repository.name) := by
  rw [spelled, cloneDirectory, Path.spelledPlace_child _ _ (not_mem_bytes hname),
    Path.spelledPlace_child _ _ (not_mem_bytes howner)]

theorem Named.components (h : r.Named) (root : Path) :
    (r.cloneDirectory root).components = root.components ++
      [.name (Text.toBytes r.repository.owner), .name (Text.toBytes r.repository.name)] := by
  rw [cloneDirectory, Path.components_child_of_isName _ (Path.isName_toBytes.mpr h.2),
    Path.components_child_of_isName _ (Path.isName_toBytes.mpr h.1), List.append_assoc]
  rfl

theorem spelled_of_components {root : Path} (workDir : Location)
    (h : (r.cloneDirectory root).components = root.components ++ [.name owner, .name name]) :
    spelled workDir root r = Path.spelledPlace workDir root ++ [owner, name] :=
  Path.spelledPlace_of_components workDir h

/-- What has been accepted as a setting has an owner, and no slashes in the owner or the name. -/
theorem parts_of_ofSetting {value branch : String} (h : ofSetting value branch = .ok r) :
    r.repository.owner ≠ "" ∧ '/' ∉ r.repository.owner.toList ∧
      '/' ∉ r.repository.name.toList := by
  rw [ofSetting] at h
  dsimp only at h
  split at h
  · rename_i found hfound
    cases h
    exact parts_of_ofUrl hfound
  · cases h

/-- **A clone directory lies two names below the root directory, or it is that directory, one above
or beside it, or the directory of an owner.** The former is the case if neither the owner nor the
name is a step and the name is not empty; clones of this kind do not lie in each other. -/
theorem escapes_iff {value branch : String} (h : ofSetting value branch = .ok r) (root : Path)
    (workDir : Location) :
    (r.Named ↔ (r.repository.owner ≠ "." ∧ r.repository.owner ≠ "..") ∧
      r.repository.name ≠ "" ∧ r.repository.name ≠ "." ∧ r.repository.name ≠ "..") ∧
    (r.Named ↔ ∃ owner name, Path.IsName owner ∧ Path.IsName name ∧
      (r.cloneDirectory root).components = root.components ++ [.name owner, .name name]) ∧
    (r.Named → (r.cloneDirectory root).components = root.components ++
      [.name (Text.toBytes r.repository.owner), .name (Text.toBytes r.repository.name)]) ∧
    (Escapes (Path.spelledPlace workDir root) (spelled workDir root r) ↔ ¬ r.Named) ∧
    ∀ s : Remote, r.Named → s.Named → spelled workDir root s <+: spelled workDir root r →
      spelled workDir root s = spelled workDir root r := by
  obtain ⟨hempty, howner, hname⟩ := parts_of_ofSetting h
  have hescapes : Escapes (Path.spelledPlace workDir root) (spelled workDir root r) ↔
      ¬ r.Named := by
    constructor
    · intro hout hnamed
      rw [spelled_of_components workDir (hnamed.components root)] at hout
      exact not_escapes_below hout
    · intro hout
      rw [spelled_eq workDir root howner hname]
      refine escapes_enter (not_mem_bytes howner) (not_mem_bytes hname) ?_
      rwa [Path.isName_toBytes, Path.isName_toBytes]
  refine ⟨?_, ?_, fun hnamed => hnamed.components root, hescapes, ?_⟩
  · constructor
    · rintro ⟨⟨-, hown, hown', -⟩, hin, hin', hin'', -⟩
      exact ⟨⟨hown, hown'⟩, hin, hin', hin''⟩
    · rintro ⟨⟨hown, hown'⟩, hin, hin', hin''⟩
      exact ⟨⟨hempty, hown, hown', howner⟩, hin, hin', hin'', hname⟩
  · constructor
    · intro hnamed
      exact ⟨_, _, Path.isName_toBytes.mpr hnamed.1, Path.isName_toBytes.mpr hnamed.2,
        hnamed.components root⟩
    · rintro ⟨owner, name, -, -, hcomponents⟩
      -- A directory that is spelled like this does not escape.
      refine Classical.byContradiction fun hout => ?_
      have hbelow := hescapes.mpr hout
      rw [spelled_of_components workDir hcomponents] at hbelow
      exact not_escapes_below hbelow
  · intro s hr hs hbelow
    rw [spelled_of_components workDir (hr.components root),
      spelled_of_components workDir (hs.components root)] at hbelow ⊢
    exact placeBelow_apart hbelow

/-- A remote of which neither part is a step. -/
def namedRemote : Remote :=
  ⟨"git@github.com:conjure-cp/conjure.git", "main", ⟨"conjure-cp", "conjure"⟩⟩

/-- The clone of such a remote lies where its owner and its name say. -/
theorem escapes_iff_namedRemote :
    ofSetting "git@github.com:conjure-cp/conjure.git#main" "master" = .ok namedRemote ∧
    (namedRemote.cloneDirectory ⟨"../cache/"⟩).components =
      (Path.mk "../cache/").components ++ [.name "conjure-cp", .name "conjure"] := by
  have hread : ofSetting "git@github.com:conjure-cp/conjure.git#main" "master" =
      .ok namedRemote := eq_ok_of_toOption (by decide +kernel)
  obtain ⟨hnamed, -, hcomponents, -⟩ := escapes_iff hread ⟨"../cache/"⟩ []
  have howner : Text.toBytes namedRemote.repository.owner = "conjure-cp" := by decide +kernel
  have hname : Text.toBytes namedRemote.repository.name = "conjure" := by decide +kernel
  rw [howner, hname] at hcomponents
  exact ⟨hread, hcomponents (hnamed.mpr (by decide +kernel))⟩

/-- Nothing is left of a name that is the suffix, so that the clone takes the directory of its owner. -/
example : (ofSetting "/srv/git/conjure-cp/.git" "master").toOption.map
    (fun r => (r.cloneDirectory ⟨"cache"⟩).components) =
      some [.name "cache", .name "conjure-cp"] := by
  decide +kernel

end Remote

end KeywordCensus
