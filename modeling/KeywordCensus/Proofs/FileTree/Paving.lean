import KeywordCensus.FileTree.Disk
import KeywordCensus.Proofs.FileTree.Writing

/-!
# The directories that lead to a path

The directories that lead to a file are made before the file is written. They come to be where nothing
was, at the paths above that of the file (`Path.Above`), and nothing else changes, whether all of them
can be made or not (`Disk.paves_makeWay`). Where the directory of the file is there already, none is
made (`Disk.on_makeWay`).
-/

namespace KeywordCensus

/-- Is one path left of another one when some of its last components are taken away? -/
inductive Path.Above : Path → Path → Prop
  | parent {q p : Path} (h : p.parent? = some q) : Above q p
  | outer {r q p : Path} (h : Above q p) (hparent : q.parent? = some r) : Above r p

namespace FileTree

open FileAction

variable {t t' t'' : FileTree} {p : Path} {place outer found : Location} {name : String} {k : Nat}
  {ways : Path → Prop}

/-! ## Trees with more directories -/

/-- Is a place as it was, or has it come to be a directory, to which one of these paths leads? -/
def PavedAt (ways : Path → Prop) (t t' : FileTree) (place : Location) : Prop :=
  t'.shell? place = t.shell? place ∨
    (t.shell? place = none ∧ t'.shell? place = some (.directory []) ∧
      ∃ q, ways q ∧ t'.locate q true = .ok place)

/-- Has a tree come from another one by making directories at these paths? -/
structure PavesTo (ways : Path → Prop) (t t' : FileTree) : Prop where
  workDir : t'.workDir = t.workDir
  paved : ∀ place, PavedAt ways t t' place

theorem pavesTo_refl (t : FileTree) : t.PavesTo ways t := ⟨rfl, fun _ => .inl rfl⟩

theorem PavesTo.extends_ (h : t.PavesTo ways t') : t.Extends t' := by
  refine ⟨h.workDir, fun place node hnode => ?_⟩
  rcases h.paved place with hsame | ⟨hnone, -⟩
  · exact hsame.trans hnode
  · cases hnone.symm.trans hnode

/-- A directory that has been made stays where it is when files and directories are added. -/
theorem PavedAt.after (h : PavedAt ways t t' place) (hkept : t'.KeepsWays t'')
    (hsame : t''.shell? place = t'.shell? place) : PavedAt ways t t'' place := by
  rcases h with hold | ⟨hnone, hnew, q, hq, hleads⟩
  · exact .inl (hsame.trans hold)
  · exact .inr ⟨hnone, hsame.trans hnew, q, hq, hkept.locate hleads⟩

theorem PavesTo.trans (h : t.PavesTo ways t') (h' : t'.PavesTo ways t'') : t.PavesTo ways t'' := by
  refine ⟨h'.workDir.trans h.workDir, fun place => ?_⟩
  rcases h'.paved place with hsame | ⟨hnone, hnew, hway⟩
  · exact (h.paved place).after h'.extends_.keepsWays hsame
  · refine .inr ⟨?_, hnew, hway⟩
    -- What is missing now was missing before.
    cases hbefore : t.shell? place with
    | none => rfl
    | some node => cases hnone.symm.trans (h.extends_.kept place node hbefore)

/-! ## Making one directory -/

/-- The last segment of a path is looked up, unless it is a step. -/
theorem isEntry_of_segment {before : List String} (hsegments : p.segments = before ++ [name])
    (hstep : isStep name = false) : IsEntry name := by
  have hmem : name ∈ p.segments := by
    rw [hsegments]
    exact List.mem_append_right _ (List.mem_singleton_self name)
  exact ⟨(Path.mem_segments hmem).1, isStep_eq_false.mp hstep⟩

/-- A path leads to the directory that has been made at it. -/
theorem locate_put_directory (hparent : t.parentPlace p = .ok (outer, some name))
    (hstep : isStep name = false) (hfree : t.at? (outer ++ [name]) = none)
    (hnew : (t.put (outer ++ [name]) (.directory [])).shell? (outer ++ [name]) =
      some (.directory [])) :
    (t.put (outer ++ [name]) (.directory [])).locate p true = .ok (outer ++ [name]) := by
  obtain ⟨hempty, before, -, hsegments, hfollows, -, -⟩ := parentPlaceIn_eq_ok hparent
  have hentry := isEntry_of_segment hsegments hstep
  have hbefore := hfollows.mono (extends_put hfree (.directory []))
  refine locate_eq_ok.mpr ⟨hempty, Follows.trail_of_segments ?_ hnew rfl⟩
  rw [hsegments]
  exact hbefore.append fun links =>
    .down hentry hnew (fun _ => Node.directory_ne_link) (.done links _)

/-- Making one directory paves the way to it. -/
theorem paves_makeDirectory (hp : ways p) (h : t.makeDirectory p = .ok t') : t.PavesTo ways t' := by
  obtain ⟨outer, name, hparent, hstep, hdirectory, hfree, rfl⟩ := makeDirectory_eq_ok h
  have hhas : t.HasPlace (outer ++ [name]) := hasPlace_concat hdirectory name
  have hnew : (t.put (outer ++ [name]) (.directory [])).shell? (outer ++ [name]) =
      some (.directory []) := by
    rw [shell?, at?_put_self hhas]
    rfl
  refine ⟨rfl, fun place => ?_⟩
  -- Everything at or below the name was free, so only the name itself can be new there.
  by_cases hbelow : outer ++ [name] <+: place
  · have hnone : t.shell? place = none := shell?_eq_none.mpr (at?_eq_none_below hfree hbelow)
    obtain ⟨rest, rfl⟩ := hbelow
    rcases at?_empty rest with hempty | rfl
    · refine .inl (hnone ▸ shell?_eq_none.mpr ?_)
      rw [at?_put_append hhas, hempty]
    · rw [List.append_nil] at hnone ⊢
      exact .inr ⟨hnone, hnew, p, hp, locate_put_directory hparent hstep hfree hnew⟩
  · exact .inl (shell?_put hbelow)

/-- Something stands at a name that can be followed. -/
theorem Follows.entry_ne_none (hentry : IsEntry name)
    (h : t.Follows k place [name] found) : t.at? (place ++ [name]) ≠ none := by
  cases h with
  | slash => exact absurd rfl hentry.1
  | stay => exact absurd rfl hentry.2.1
  | up => exact absurd rfl hentry.2.2
  | down _ hnode _ _ => exact at?_ne_none hnode
  | link _ hnode _ _ => exact at?_ne_none hnode

/-- A directory that is there already is not made again, and what leads to it is not missing. -/
theorem makeDirectory_of_isDirectory (h : t.isDirectory p = true) :
    ∃ e, t.makeDirectory p = .error e ∧ e ≠ .notFound := by
  obtain ⟨top, node, htop, hnode, hdirectory⟩ := isDirectory_eq_true.mp h
  obtain ⟨hempty, hfollows⟩ := locate_eq_ok.mp htop
  have hsegments := hfollows.segments_of_trail
  rw [makeDirectory, parentPlace, parentPlaceIn, if_neg (mt String.isEmpty_iff.mp hempty)]
  -- A path without a last segment is the root or the working directory.
  cases hreversed : p.segments.reverse with
  | nil => exact ⟨_, rfl, by decide⟩
  | cons last before =>
    have hlisted : p.segments = before.reverse ++ [last] := by
      rw [← List.reverse_reverse p.segments, hreversed, List.reverse_cons]
    have hnamed : last ≠ "" := (Path.mem_segments (p := p) (by
      rw [hlisted]
      exact List.mem_append_right _ (List.mem_singleton_self last))).1
    rw [hlisted] at hsegments
    obtain ⟨middle, rest, hbefore, hlast⟩ := hsegments.split
    obtain ⟨here, hhere, hinside⟩ := hlast.entered hnamed
    -- The parent is looked up as the way before with a step that stays at its end.
    have hstay (links : Nat) : t.Follows (links + 1) middle ["."] middle :=
      .stay hhere hinside (.done links middle)
    have hparent := followWithin_eq_present.mpr (hbefore.append hstay)
    simp only [hparent]
    split
    · exact ⟨_, rfl, by decide⟩
    rename_i hstep
    split
    · rename_i entries hentries
      split
      · exact ⟨_, rfl, by decide⟩
      · -- The path leads through the entry.
        rename_i hnone
        have hentry : t.at? (middle ++ [last]) = none := by
          rw [at?_concat, hentries]
          exact hnone
        exact absurd hentry (hlast.entry_ne_none
          (isEntry_of_segment hlisted (Bool.eq_false_iff.mpr hstep)))
    · exact ⟨_, rfl, by decide⟩

/-! ## Making all of them -/

end FileTree

namespace Disk

open FileAction FileTree

variable {t t' : FileTree} {p : Path} {ways : Path → Prop} (d : Disk)

/-- A disk makes a directory as a file tree does, or not at all. -/
theorem makeDirectory_eq_ok (h : d.makeDirectory t p = .ok t') : t.makeDirectory p = .ok t' := by
  rw [makeDirectory] at h
  split at h
  · cases h
  · rename_i hmade
    split at h
    · cases h
    · exact hmade.trans h

/-- Making a directory and all those above it paves no other ways. -/
theorem paves_makeDirectories
    (hup : ∀ {q parent : Path}, ways q → q.parent? = some parent → ways parent) (hp : ways p) :
    Keeps (PavesTo ways) (d.makeDirectories p) :=
  keeps_makeDirectoriesWith pavesTo_refl PavesTo.trans hup
    (fun hq hmade => paves_makeDirectory hq (d.makeDirectory_eq_ok hmade)) _ hp

/-- Where a directory is there already, nothing is made. -/
theorem on_makeDirectories (h : t.isDirectory p = true) :
    on (d.makeDirectories p) t = (.ok (), t) := by
  obtain ⟨e, hrefused, hfound⟩ := makeDirectory_of_isDirectory h
  have herror : d.makeDirectory t p = .error e := by rw [makeDirectory, hrefused]
  rw [makeDirectories, makeDirectoriesWith]
  -- The first attempt fails, as something stands there, but not for want of a parent.
  split
  · rfl
  rw [on_get_bind, herror]
  split
  · rename_i hok
    cases hok
  · rename_i hnotFound
    exact absurd (Except.error.inj hnotFound) hfound
  · rw [on_get_bind, h]
    rfl

/-- **Making the directories that lead to a path changes nothing else**, even where it fails in the
end. -/
theorem paves_makeWay (p : Path) : Keeps (PavesTo (Path.Above · p)) (d.makeWay p) := by
  intro t
  rw [makeWay]
  split
  · rename_i parent hparent
    split
    · exact pavesTo_refl t
    · exact d.paves_makeDirectories .outer (.parent hparent) t
  · exact pavesTo_refl t

/-- Where the directory of a path is there already, nothing is made. -/
theorem on_makeWay (h : ∀ parent, p.parent? = some parent → parent.text ≠ "" →
    t.isDirectory parent = true) : on (d.makeWay p) t = (.ok (), t) := by
  rw [makeWay]
  split
  · rename_i parent hparent
    split
    · rfl
    · rename_i hempty
      exact d.on_makeDirectories (h parent hparent (mt String.isEmpty_iff.mpr hempty))
  · rfl

end Disk

end KeywordCensus
