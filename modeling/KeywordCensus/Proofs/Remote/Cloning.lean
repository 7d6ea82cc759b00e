import KeywordCensus.Proofs.Remote.CheckOut
import KeywordCensus.Proofs.Remote.Reach

/-!
# What bringing a directory up to date does

Where there is no repository, what stands in the way is removed, the directories that lead to the
directory are made, and a fresh clone is written (`Remote.ends_sync_of_clearing`). Where there is
one, it is pulled, and what that does is known exactly (`Remote.on_pull`).
-/

namespace KeywordCensus

namespace FileTree

variable {t t' : FileTree} {directory : Path} {top : Location} {url branch : String}
  {commit : Commit} {hosts : Hosts}

/-- The control directory is no part of a work tree. -/
theorem not_control_below_work {place : Location} (h : InWork top place) :
    ¬ top ++ [controlDirectory] <+: place := by
  obtain ⟨name, rest, hname, rfl⟩ := h
  intro hbelow
  have hbelow := (List.prefix_append_right_inj top).mp hbelow
  exact hname ((List.cons_prefix_cons.mp hbelow).1).symm

/-- Outside of a directory, neither its work tree nor its control directory matters. -/
theorem agree_of_keepsAround {data : Repository}
    (h : KeepsAround top (t.put (top ++ [controlDirectory]) (.repository data)) t')
    {other : Location} (hother : ¬ top <+: other) : t'.shell? other = t.shell? other := by
  rw [h.shell, shell?_put]
  · exact fun hbelow => hother ((List.prefix_append top _).trans hbelow)
  · rintro ⟨name, rest, -, rfl⟩
    exact hother (List.prefix_append top _)

/-- The control directory is not part of the work tree. -/
theorem control_of_keepsAround {data : Repository}
    (hplace : t.shell? top = some (.directory []))
    (h : KeepsAround top (t.put (top ++ [controlDirectory]) (.repository data)) t') :
    t'.at? (top ++ [controlDirectory]) = some (.repository data) :=
  h.control (at?_put_self (hasPlace_concat hplace _))

/-! ## A fresh clone -/

/-- A clone has been made in an empty directory, of what a url showed. -/
structure Fresh (t : FileTree) (hosts : Hosts) (directory : Path) (top : Location)
    (url branch : String) (commit : Commit) (t' : FileTree) : Prop where
  /-- The remote has the branch at the commit. -/
  tip : t.remoteCommit? hosts url branch = some commit
  /-- The directory is there. -/
  located : t.locate directory true = .ok top
  /-- It has no entries. -/
  empty : t.at? top = some (.directory [])
  /-- The control directory and the files are written. -/
  written : t' = (t.put (top ++ [controlDirectory]) (.repository (.clone url branch
    (SortedMap.empty.insert branch commit) commit.files.keys))).writeFiles top commit.files

theorem Fresh.directory_there (h : t.Fresh hosts directory top url branch commit t') :
    t.shell? top = some (.directory []) := shell?_eq_directory.mpr ⟨[], h.empty⟩

/-- Before a fresh clone nothing lay below its place. -/
theorem Fresh.absent (h : t.Fresh hosts directory top url branch commit t') (name : String)
    (rest : Location) : t.at? (top ++ name :: rest) = none := by
  rw [at?_append, h.empty]
  rfl

/-- What a fresh clone writes. -/
theorem Fresh.holds (h : t.Fresh hosts directory top url branch commit t') :
    t'.Holds top commit.files.get? := by
  rw [h.written]
  refine holds_writeFiles commit ⟨?_, ?_, ?_⟩
  · rw [shell?_put not_below_parent]
    exact h.directory_there
  · intro file content hnone
    cases hnone
  · intro name rest hname hsome
    refine absurd ?_ hsome
    have hnot : ¬ top ++ [controlDirectory] <+: top ++ name :: rest :=
      not_control_below_work ⟨name, rest, hname, rfl⟩
    exact (at?_eq_none_iff (shell?_put hnot)).mpr (h.absent name rest)

/-- What a fresh clone leaves alone. -/
theorem Fresh.keeps (h : t.Fresh hosts directory top url branch commit t') :
    KeepsAround top (t.put (top ++ [controlDirectory]) (.repository (.clone url branch
      (SortedMap.empty.insert branch commit) commit.files.keys))) t' := by
  rw [h.written]
  refine keepsAround_writeFiles commit ?_
  rw [shell?_put not_below_parent]
  exact h.directory_there

/-- A fresh clone takes nothing away. -/
theorem Fresh.extends_ (h : t.Fresh hosts directory top url branch commit t') : t.Extends t' := by
  have hkeeps := h.keeps
  have hput : t.Extends (t.put (top ++ [controlDirectory]) (.repository (.clone url branch
      (SortedMap.empty.insert branch commit) commit.files.keys))) :=
    extends_put (h.absent controlDirectory []) _
  refine hput.trans ⟨hkeeps.workDir, fun place node hnode => ?_⟩
  by_cases hwork : InWork top place
  · -- The work tree was empty before.
    rw [shell?_put (not_control_below_work hwork)] at hnode
    obtain ⟨name, rest, -, rfl⟩ := hwork
    exact absurd (h.absent name rest) (at?_ne_none hnode)
  · rw [hkeeps.shell place hwork]
    exact hnode

end FileTree

namespace Remote

open FileTree FileAction

variable {t t' : FileTree} {hosts : Hosts} {directory : Path} {url branch : String}

/-! ## Without a repository -/

/-- What a success of making a clone has done. -/
def Made (hosts : Hosts) (directory : Path) (url branch : String) (t t' : FileTree) : Prop :=
  ∃ t₂ top commit, t.GrowsTo t₂ ∧ t₂.Fresh hosts directory top url branch commit t'

theorem keeps_atPath {related : FileTree → FileTree → Prop} {action : FileAction IoError Unit}
    (h : Keeps related action) (p : Path) : Keeps related (atPath p action) := keeps_adapt _ h

theorem Made.grows {t₁ : FileTree} (h : t.GrowsTo t₁)
    (hmade : Made hosts directory url branch t₁ t') :
    Made hosts directory url branch t t' := by
  obtain ⟨t₂, top, commit, hgrows, hfresh⟩ := hmade
  exact ⟨t₂, top, commit, h.trans hgrows, hfresh⟩

/-- Writing a clone ends in a tree that only grew, or with the clone made. -/
theorem ends_writeClone (hosts : Hosts) (directory : Path) (url branch : String) (t : FileTree) :
    Ends t.GrowsTo (Made hosts directory url branch t)
      (on (writeClone hosts directory url branch) t) := by
  rw [writeClone, on_get_bind]
  split
  · exact growsTo_refl t
  rename_i commit htip
  refine ends_bind (ends_of_keeps (keeps_adapt _ (grows_makeDirectories directory)) t)
    fun _ t₂ hgrows => ?_
  rw [on_get_bind]
  split
  · exact hgrows
  rename_i top hlocate
  split
  · rename_i hempty
    exact ⟨t₂, top, commit, hgrows, remoteCommit?_mono hgrows.extends_ htip, hlocate, hempty, rfl⟩
  · exact hgrows

/-- **Making a clone** either fails, with nothing new but directories, or writes a fresh clone. -/
theorem ends_makeClone (hosts : Hosts) (directory : Path) (url branch : String) (t : FileTree) :
    Ends t.GrowsTo (Made hosts directory url branch t)
      (on (makeClone hosts directory url branch) t) := by
  rw [makeClone]
  split
  · exact ends_writeClone hosts directory url branch t
  · rename_i parent _
    refine ends_bind (ends_of_keeps (keeps_atPath (grows_makeDirectories parent) parent) t)
      fun _ t₁ hgrows => ?_
    exact (ends_writeClone hosts directory url branch t₁).imp (fun _ h => hgrows.trans h)
      (fun _ h => h.grows hgrows)

/-- Trees in which a directory holds no repository, and among which one stays when what stands at
the directory is removed, with success or without. -/
structure Clearing (directory : Path) (among : FileTree → Prop) : Prop where
  none : ∀ t, among t → t.repositoryPlace? directory = none
  emptied : ∀ t, among t → among (on (removeEmptyDirectory directory) t).2
  tree : ∀ t, among t → among (on (removeTree directory) t).2
  file : ∀ t, among t → among (on (removeFile directory) t).2

variable {among : FileTree → Prop}

theorem ends_atPath {action : FileAction IoError Unit}
    (haction : ∀ t, among t → among (on action t).2) (p : Path) (h : among t) :
    Ends among among (on (atPath p action) t) := by
  have hleft : among (on (atPath p action) t).2 := by
    rw [atPath, on_adapt]
    exact haction t h
  cases hresult : on (atPath p action) t with
  | mk result t' =>
    rw [hresult] at hleft
    cases result with
    | ok done => exact hleft
    | error e => exact hleft

/-- Cloning over one of several trees ends in one of these, grown, or with the clone made over one.
-/
theorem ends_makeClone_among (h : among t) (url branch : String) :
    Ends (fun t' => ∃ t₁, among t₁ ∧ t₁.GrowsTo t')
      (fun t' => ∃ t₁, among t₁ ∧ Made hosts directory url branch t₁ t')
      (on (makeClone hosts directory url branch) t) :=
  (ends_makeClone hosts directory url branch t).imp (fun _ hgrows => ⟨t, h, hgrows⟩)
    (fun _ hmade => ⟨t, h, hmade⟩)

/-- Replacing what stands at a place ends in a tree that was cleared first. -/
theorem ends_replaceOrPull_of_clearing (hclearing : Clearing directory among) (h : among t)
    (url branch : String) :
    Ends (fun t' => ∃ t₁, among t₁ ∧ t₁.GrowsTo t')
      (fun t' => ∃ t₁, among t₁ ∧ Made hosts directory url branch t₁ t')
      (on (replaceOrPull hosts directory url branch) t) := by
  rw [replaceOrPull, on_get_bind]
  split
  · exact ends_makeClone_among h url branch
  rw [hclearing.none t h]
  have hremove : ∀ u, among u → among (on (if t.isDirectory directory then removeTree directory
      else removeFile directory) u).2 := by
    split
    · exact hclearing.tree
    · exact hclearing.file
  refine ends_bind ((ends_atPath hremove directory h).imp
    (fun t₁ h₁ => ⟨t₁, h₁, growsTo_refl t₁⟩) fun _ h₁ => h₁) fun _ t₁ h₁ => ?_
  exact ends_makeClone_among h₁ url branch

/-- **Without a repository, a success leaves a fresh clone**, and both a success and a failure are
reached by removing what stands at the directory and making directories. -/
theorem ends_sync_of_clearing (hclearing : Clearing directory among) (h : among t)
    (url branch : String) :
    Ends (fun t' => ∃ t₁, among t₁ ∧ t₁.GrowsTo t')
      (fun t' => ∃ t₁, among t₁ ∧ Made hosts directory url branch t₁ t')
      (on (sync hosts directory url branch) t) := by
  rw [sync, on_get_bind]
  split
  · exact ⟨t, h, growsTo_refl t⟩
  · refine ends_bind ((ends_atPath hclearing.emptied directory h).imp
      (fun t₁ h₁ => ⟨t₁, h₁, growsTo_refl t₁⟩) fun _ h₁ => h₁) fun _ t₁ h₁ => ?_
    exact ends_replaceOrPull_of_clearing hclearing h₁ url branch
  · exact ends_replaceOrPull_of_clearing hclearing h url branch

/-! ## With a repository -/

/-- What pulling a clone does. -/
theorem on_pull {place : Location} {origin head : String} {branches : SortedMap Commit}
    {tracked : List String}
    (h : t.at? place = some (.repository (.clone origin head branches tracked)))
    (url branch : String) :
    on (pull hosts place url branch) t = match t.remoteCommit? hosts origin branch with
      | none => (.error (.git url), t)
      | some commit =>
        if branches.get? branch = some commit ∧ head = branch then (.ok (), t)
        else
          let moved := t.put place (.repository (.clone origin branch
            (branches.insert branch commit) commit.files.keys))
          if (tracked ++ commit.files.keys).all (moved.canReach place.dropLast) then
            (.ok (), moved.checkOut place.dropLast tracked commit)
          else (.error (.git url), moved) := by
  rw [pull, on_get_bind, repositoryAt?_eq_some.mpr h]
  dsimp only
  cases t.remoteCommit? hosts origin branch with
  | none => rfl
  | some commit =>
    by_cases hthere : branches.get? branch = some commit ∧ head = branch
    · simp only [if_pos hthere]
      rfl
    · simp only [if_neg hthere]
      rw [on_bind, on_set]
      dsimp only
      split
      · rfl
      · rfl

/-- A repository is pulled. -/
theorem on_sync_of_control {top : Location} {data : Repository}
    (hlocate : t.locate directory true = .ok top)
    (hcontrol : t.at? (top ++ [controlDirectory]) = some (.repository data))
    (url branch : String) : on (sync hosts directory url branch) t =
      on (pull hosts (top ++ [controlDirectory]) url branch) t := by
  obtain ⟨entries, hentries⟩ := shell?_eq_directory.mp (directory_of_control hcontrol)
  have hlookup : t.lookup directory true = .ok (.directory entries) := by
    rw [lookup, hlocate]
    dsimp only [bind, Except.bind]
    rw [hentries]
  -- The control directory is an entry, so the directory is not taken for an empty one.
  have hempty : isEmptyDirectory t directory = .ok false := by
    rw [at?_concat, hentries] at hcontrol
    rw [isEmptyDirectory, hlookup]
    cases entries with
    | nil => cases hcontrol
    | cons => rfl
  have hexists : t.pathExists directory = true := by
    rw [pathExists, hlookup]
  rw [sync, on_get_bind, hempty]
  simp only
  rw [replaceOrPull, on_get_bind, hexists, repositoryPlace?_of_control hlocate hcontrol]
  rfl

end Remote

end KeywordCensus
