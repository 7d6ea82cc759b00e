import KeywordCensus.Proofs.FileTree.Growth
import KeywordCensus.Proofs.FileTree.Plain
import KeywordCensus.Remote.Sync

/-!
# Which repository a path or a url reaches

A path reaches the repository whose control directory it leads to, or whose control directory is an
entry of what it leads to. A repository that is reached in a tree is reached in every tree that
extends it, with all its branches (`remoteCommit?_mono`).
-/

namespace KeywordCensus

namespace FileTree

variable {t t' : FileTree} {p : Path} {place top : Location} {url branch : String}
  {data : Repository} {commit : Commit} {hosts : Hosts}

theorem isName_controlDirectory : Path.IsName controlDirectory := by decide +kernel

/-- The control directory that a path itself leads to. -/
def controlPlace? (t : FileTree) (p : Path) : Option Location :=
  match t.locate p true with
  | .ok place => match t.at? place with
    | some (.repository _) => some place
    | _ => none
  | .error _ => none

theorem repositoryPlace?_eq (t : FileTree) (p : Path) :
    t.repositoryPlace? p = match t.controlPlace? (p.child controlDirectory) with
      | some place => some place
      | none => t.controlPlace? p := rfl

theorem controlPlace?_eq_some : t.controlPlace? p = some place ↔
    t.locate p true = .ok place ∧ ∃ data, t.at? place = some (.repository data) := by
  rw [controlPlace?]
  constructor
  · intro h
    split at h
    · rename_i found hfound
      split at h
      · rename_i data hdata
        cases h
        exact ⟨hfound, data, hdata⟩
      · cases h
    · cases h
  · rintro ⟨hlocate, data, hdata⟩
    rw [hlocate]
    dsimp only
    rw [hdata]

theorem controlPlace?_mono (ht : t.Extends t') (h : t.controlPlace? p = some place) :
    t'.controlPlace? p = some place := by
  obtain ⟨hlocate, data, hdata⟩ := controlPlace?_eq_some.mp h
  exact controlPlace?_eq_some.mpr ⟨locate_mono ht hlocate, data,
    ht.at? hdata Node.repository_ne_directory⟩

/-- Above a control directory there is a directory. -/
theorem directory_of_control
    (h : t.at? (top ++ [controlDirectory]) = some (.repository data)) :
    t.shell? top = some (.directory []) := by
  have hentry : t.at? (top ++ [controlDirectory]) ≠ none := by
    rw [h]
    exact Option.some_ne_none _
  exact directory_of_entry hentry

/-- The repository that has its control directory among its entries. -/
theorem repositoryPlace?_of_control (h : t.locate p true = .ok top)
    (hdata : t.at? (top ++ [controlDirectory]) = some (.repository data)) :
    t.repositoryPlace? p = some (top ++ [controlDirectory]) := by
  have hshell : t.shell? (top ++ [controlDirectory]) = some (.repository data) := by
    rw [shell?, hdata]
    rfl
  have hchild : t.controlPlace? (p.child controlDirectory) = some (top ++ [controlDirectory]) :=
    controlPlace?_eq_some.mpr ⟨locate_child isName_controlDirectory h hshell
      (fun _ => Node.repository_ne_link), data, hdata⟩
  rw [repositoryPlace?_eq, hchild]

/-- A repository is still found in a tree with more in it. -/
theorem repositoryPlace?_mono (ht : t.Extends t') (h : t.repositoryPlace? p = some place) :
    t'.repositoryPlace? p = some place := by
  rw [repositoryPlace?_eq] at h ⊢
  cases hchild : t.controlPlace? (p.child controlDirectory) with
  | some found =>
    rw [hchild] at h
    rw [controlPlace?_mono ht hchild]
    exact h
  | none =>
    rw [hchild] at h
    have hown := controlPlace?_mono ht h
    -- The path leads to a control directory itself, and that has no entries.
    have hnone : t'.controlPlace? (p.child controlDirectory) = none := by
      refine Option.eq_none_iff_forall_ne_some.mpr fun found hfound => ?_
      obtain ⟨hlocate, data, hdata⟩ := controlPlace?_eq_some.mp hown
      have hempty := (locate_eq_ok.mp hlocate).1
      obtain ⟨other, -, hother, -, hdirectory⟩ := locate_of_child hempty isName_controlDirectory
        (controlPlace?_eq_some.mp hfound).1
      rw [hlocate] at hother
      cases hother
      rw [shell?, hdata] at hdirectory
      cases hdirectory
    rw [hnone]
    exact hown

theorem repositoryAt?_eq_some :
    t.repositoryAt? place = some data ↔ t.at? place = some (.repository data) := by
  rw [repositoryAt?]
  constructor
  · intro h
    split at h
    · rename_i found hfound
      cases h
      exact hfound
    · cases h
  · intro h
    rw [h]

/-- A path shows a commit exactly if it leads to a repository with that branch at that commit. -/
theorem localCommit?_eq_some : t.localCommit? p branch = some commit ↔
    ∃ place data, t.repositoryPlace? p = some place ∧ t.repositoryAt? place = some data ∧
      data.branches.get? branch = some commit := by
  rw [localCommit?]
  constructor
  · intro h
    obtain ⟨place, hplace, h⟩ := Option.bind_eq_some_iff.mp h
    obtain ⟨data, hdata, h⟩ := Option.bind_eq_some_iff.mp h
    exact ⟨place, data, hplace, hdata, h⟩
  · rintro ⟨place, data, hplace, hdata, h⟩
    exact Option.bind_eq_some_iff.mpr ⟨place, hplace, Option.bind_eq_some_iff.mpr ⟨data, hdata, h⟩⟩

theorem localCommit?_mono (ht : t.Extends t') (h : t.localCommit? p branch = some commit) :
    t'.localCommit? p branch = some commit := by
  obtain ⟨place, data, hplace, hdata, hcommit⟩ := localCommit?_eq_some.mp h
  have hdata := ht.at? (repositoryAt?_eq_some.mp hdata) Node.repository_ne_directory
  exact localCommit?_eq_some.mpr
    ⟨place, data, repositoryPlace?_mono ht hplace, repositoryAt?_eq_some.mpr hdata, hcommit⟩

/-- **What a url shows stays where a tree only gains**: other machines do not depend on the tree. -/
theorem remoteCommit?_mono (ht : t.Extends t')
    (h : t.remoteCommit? hosts url branch = some commit) :
    t'.remoteCommit? hosts url branch = some commit := by
  rw [remoteCommit?] at h ⊢
  cases hp : localPath? url with
  | none =>
    rw [hp] at h
    exact h
  | some p =>
    rw [hp] at h
    exact localCommit?_mono ht h

/-- What the url of another machine shows does not depend on the tree. -/
theorem remoteCommit?_of_host (hp : localPath? url = none) (branch : String) :
    t.remoteCommit? hosts url branch = hosts url branch := by
  rw [remoteCommit?, hp]

/-- What a url shows if it reaches a repository. -/
theorem remoteCommit?_of_place (hp : localPath? url = some p)
    (hplace : t.repositoryPlace? p = some place) (hdata : t.at? place = some (.repository data))
    (branch : String) : t.remoteCommit? hosts url branch = data.branches.get? branch := by
  rw [remoteCommit?, hp]
  show (t.repositoryPlace? p >>= fun place => t.repositoryAt? place >>= fun data =>
    data.branches.get? branch) = data.branches.get? branch
  rw [hplace]
  show (t.repositoryAt? place >>= fun data => data.branches.get? branch) =
    data.branches.get? branch
  rw [repositoryAt?_eq_some.mpr hdata]
  rfl

/-- A url that reaches a repository shows the same where a tree only gains. -/
theorem remoteCommit?_of_extends (ht : t.Extends t') (hp : localPath? url = some p)
    (hplace : t.repositoryPlace? p = some place) (branch : String) :
    t'.remoteCommit? hosts url branch = t.remoteCommit? hosts url branch := by
  have hdata : ∃ data, t.at? place = some (.repository data) := by
    rw [repositoryPlace?_eq] at hplace
    split at hplace
    · rename_i hfound
      cases hplace
      exact (controlPlace?_eq_some.mp hfound).2
    · exact (controlPlace?_eq_some.mp hplace).2
  obtain ⟨data, hdata⟩ := hdata
  rw [remoteCommit?_of_place hp hplace hdata, remoteCommit?_of_place hp
    (repositoryPlace?_mono ht hplace) (ht.at? hdata Node.repository_ne_directory)]

/-! ## Directories without a repository -/

/-- Does a path lead to no repository, and will it lead to none either when things are removed and
directories are made? -/
def Free (t : FileTree) (p : Path) : Prop := ∀ t', t.ClearsTo t' → t'.repositoryPlace? p = none

/-- Clearing brings no repository about. -/
theorem Free.clears (h : t.Free p) (ht : t.ClearsTo t') : t'.Free p :=
  fun t'' ht' => h t'' (ht.trans ht')

/-- The repository at a path that stands for a place has its control directory there or among the
entries. -/
theorem repositoryPlace?_of_stands {found : Location} (h : t.Stands p place)
    (hlink : ∀ target, t.at? (place ++ [controlDirectory]) ≠ some (.link target))
    (hfound : t.repositoryPlace? p = some found) :
    (found = place ∨ found = place ++ [controlDirectory]) ∧
      ∃ data, t.at? found = some (.repository data) := by
  rw [repositoryPlace?_eq] at hfound
  split at hfound
  · -- The name of the control directory leads to the entry, for no link has that name.
    rename_i other hother
    cases hfound
    obtain ⟨hlocate, hdata⟩ := controlPlace?_eq_some.mp hother
    obtain ⟨start, rest, hstart, hlast, -⟩ := locate_of_child h.text isName_controlDirectory hlocate
    rw [h.found _ _ hstart] at hlast
    rcases hlast.entry isName_controlDirectory with hends | ⟨target, htarget⟩
    · exact ⟨.inr hends, hdata⟩
    · exact absurd (at?_of_shell? htarget Node.link_ne_directory) (hlink target)
  · obtain ⟨hlocate, hdata⟩ := controlPlace?_eq_some.mp hfound
    exact ⟨.inl (h.found _ _ hlocate), hdata⟩

/-- **A plain path is free if no control directory stands at its place**, nor a link to one. -/
theorem Plain.free (h : t.Plain p place) (hplace : ∀ data, t.at? place ≠ some (.repository data))
    (hdata : ∀ data, t.at? (place ++ [controlDirectory]) ≠ some (.repository data))
    (hlink : ∀ target, t.at? (place ++ [controlDirectory]) ≠ some (.link target)) : t.Free p := by
  intro t' ht
  refine Option.eq_none_iff_forall_ne_some.mpr fun found hfound => ?_
  have hlink' : ∀ target, t'.at? (place ++ [controlDirectory]) ≠ some (.link target) :=
    fun target hnode => hlink target (ht.at? hnode Node.link_ne_directory)
  obtain ⟨hends, data, hnode⟩ := repositoryPlace?_of_stands (h.clears ht).stands hlink' hfound
  have hnode := ht.at? hnode Node.repository_ne_directory
  rcases hends with rfl | rfl
  · exact hplace data hnode
  · exact hdata data hnode

end FileTree

end KeywordCensus
