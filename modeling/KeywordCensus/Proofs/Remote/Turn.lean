import KeywordCensus.Proofs.FileTree.Difference
import KeywordCensus.Proofs.Remote.Cloning

/-!
# One call, whatever stands at the directory

A call can rely on little: that the directory stands for one place, that what the url shows does
not depend on that place, and that nothing at the place poses as a control directory
(`Remote.Ready`). Nothing is asked about the rest of what stands there, be it a clone of another
url with a changed work tree. A success then takes one of three turns (`Remote.Turn`): a clone of
the url is made, a clone that is at the commit already is left as it is, or a clone is moved to the
commit that its own origin shows. Around the place nothing changes (`Remote.ends_sync_of_ready`).

Which commit a clone ends at is decided by its origin and not by the url of the call. So whether the
clone at a place fits what is asked for (`Remote.Fits`) is decided before the call, and stays as it
is (`Remote.Turn.fits_iff`).
-/

namespace KeywordCensus

namespace FileTree

variable {t t' : FileTree} {directory : Path} {top : Location} {origin url head branch : String}
  {branches : SortedMap Commit} {tracked : List String} {commit : Commit} {hosts : Hosts}

/-- Is a clone of a url at a place, with a branch checked out at a commit and the files of the
commit in its work tree? -/
def CloneAt (t : FileTree) (top : Location) (origin branch : String) (commit : Commit) : Prop :=
  ∃ branches tracked,
    t.at? (top ++ [controlDirectory]) = some (.repository (.clone origin branch branches tracked)) ∧
    branches.get? branch = some commit ∧ t.HasFiles top commit.files.get?

theorem CloneAt.directory_there (h : t.CloneAt top origin branch commit) :
    t.shell? top = some (.directory []) := by
  obtain ⟨branches, tracked, hcontrol, -, -⟩ := h
  exact directory_of_control hcontrol

theorem unlinked_of_directory (h : t.shell? top = some (.directory [])) (target : String) :
    t.at? top ≠ some (.link target) := by
  intro hlink
  rw [shell?, hlink] at h
  cases h

/-- Is a directory a clone with a branch checked out at a commit, and the files of the commit in its
work tree? -/
def CheckedOut (t : FileTree) (directory : Path) (branch : String) (commit : Commit) : Prop :=
  ∃ top origin, t.locate directory true = .ok top ∧ t.CloneAt top origin branch commit

/-- What is written into a repository makes a difference there only. -/
theorem differsAt_of_keepsAround {data : Repository} (htop : t.shell? top = some (.directory []))
    (h : KeepsAround top (t.put (top ++ [controlDirectory]) (.repository data)) t') :
    t.DiffersAt (· = top) t' := by
  have htop' : t'.shell? top = some (.directory []) := by
    refine h.directory ?_
    rw [shell?_put not_below_parent]
    exact htop
  refine differsAt_of_agree h.workDir (fun other hnot => agree_of_keepsAround h (hnot top rfl)) ?_
  rintro _ rfl
  exact unlinked_of_directory htop'

theorem Fresh.differsAt (h : t.Fresh hosts directory top url branch commit t') :
    t.DiffersAt (· = top) t' := differsAt_of_keepsAround h.directory_there h.keeps

theorem Fresh.cloneAt (h : t.Fresh hosts directory top url branch commit t') :
    t'.CloneAt top url branch commit :=
  ⟨_, _, control_of_keepsAround h.directory_there h.keeps, SortedMap.get?_insert_self ..,
    h.holds.hasFiles⟩

/-- **A check-out leaves a clone at the commit**, whatever its work tree held before. -/
theorem cloneAt_checkOut (htop : t.shell? top = some (.directory [])) (tracked : List String)
    (hleft : t' = (t.put (top ++ [controlDirectory]) (.repository (.clone origin branch
      (branches.insert branch commit) commit.files.keys))).checkOut top tracked commit) :
    t.DiffersAt (· = top) t' ∧ t'.CloneAt top origin branch commit := by
  have hcontrol : (t.put (top ++ [controlDirectory]) (.repository (.clone origin branch
      (branches.insert branch commit) commit.files.keys))).at? (top ++ [controlDirectory]) = some
      (.repository (.clone origin branch (branches.insert branch commit) commit.files.keys)) :=
    at?_put_self (hasPlace_concat htop _)
  have htop₁ := directory_of_control hcontrol
  have hkeeps := keepsAround_checkOut tracked commit htop₁ hcontrol
  have hfiles := hasFiles_checkOut tracked commit htop₁ hcontrol
  rw [← hleft] at hkeeps hfiles
  exact ⟨differsAt_of_keepsAround htop hkeeps, _, _, hkeeps.control hcontrol,
    SortedMap.get?_insert_self .., hfiles⟩

/-! ## Around the place -/

variable {places : Location → Prop}

/-- Apart from a place is apart from everything below it. -/
theorem not_below_of_apart {place rest : Location} (h : ¬ place <+: top) (h' : ¬ top <+: place) :
    ¬ place <+: top ++ rest := by
  intro hbelow
  rcases prefix_append_cases hbelow with habove | ⟨below, hplace, -, -⟩
  · exact h habove
  · exact h' ⟨below, hplace.symm⟩

section Apart

variable (h : t.DiffersAt places t')
  (hapart : ∀ place, places place → ¬ place <+: top ∧ ¬ top <+: place)

include h hapart

/-- Below a place that is apart, what is no directory stays the same. -/
theorem at?_iff_of_apart (rest : Location) {node : Node} (hne : node.shell ≠ .directory []) :
    t'.at? (top ++ rest) = some node ↔ t.at? (top ++ rest) = some node :=
  h.at?_iff (fun place hplace =>
    not_below_of_apart (hapart place hplace).1 (hapart place hplace).2) hne

theorem file_iff_of_apart (rest : Location) (bytes : ByteArray) (mode : Nat) :
    t'.at? (top ++ rest) = some (.file bytes mode) ↔
      t.at? (top ++ rest) = some (.file bytes mode) :=
  at?_iff_of_apart h hapart rest Node.file_ne_directory

theorem hasFiles_iff_of_apart (files : String → Option String) :
    t'.HasFiles top files ↔ t.HasFiles top files := by
  constructor
  · intro hfiles file content hfile
    obtain ⟨mode, hat⟩ := hfiles file content hfile
    exact ⟨mode, (file_iff_of_apart h hapart _ _ _).mp hat⟩
  · intro hfiles file content hfile
    obtain ⟨mode, hat⟩ := hfiles file content hfile
    exact ⟨mode, (file_iff_of_apart h hapart _ _ _).mpr hat⟩

theorem control_iff_of_apart (data : Repository) :
    t'.at? (top ++ [controlDirectory]) = some (.repository data) ↔
      t.at? (top ++ [controlDirectory]) = some (.repository data) :=
  at?_iff_of_apart h hapart _ Node.repository_ne_directory

/-- A clone elsewhere is not touched by what happens at places apart from it. -/
theorem cloneAt_iff_of_apart :
    t'.CloneAt top origin branch commit ↔ t.CloneAt top origin branch commit := by
  simp only [CloneAt, control_iff_of_apart h hapart, hasFiles_iff_of_apart h hapart]

end Apart

end FileTree

namespace Remote

open FileTree FileAction

variable {t t' : FileTree} {shows : String → String → Option Commit} {directory : Path}
  {top : Location} {url branch : String} {hosts : Hosts}

/-- What a call relies on: the directory stands for a place, what the url shows does not depend on
that place, and nothing there is taken for a control directory but one of that name. -/
structure Ready (hosts : Hosts) (t : FileTree) (directory : Path) (top : Location)
    (url : String) : Prop where
  stands : ∀ t', t.DiffersAt (· = top) t' → t'.Stands directory top
  shown : ∀ t', t.DiffersAt (· = top) t' → ∀ branch,
    t'.remoteCommit? hosts url branch = t.remoteCommit? hosts url branch
  unlinked : ∀ target, t.at? top ≠ some (.link target)
  control : ∀ target, t.at? (top ++ [controlDirectory]) ≠ some (.link target)
  proper : ∀ data, t.at? top ≠ some (.repository data)

theorem Ready.differsAt (h : Ready hosts t directory top url) : t.DiffersAt (· = top) t :=
  differsAt_refl fun _ heq => heq ▸ h.unlinked

/-- The three turns that a success can take. -/
inductive Turn (hosts : Hosts) (t : FileTree) (top : Location) (url branch : String)
    (t' : FileTree) : Prop
  /-- There was no clone, and one of the url has been made. -/
  | made (commit : Commit) :
      (∀ data, t.at? (top ++ [controlDirectory]) ≠ some (.repository data)) →
      t.remoteCommit? hosts url branch = some commit → t'.CloneAt top url branch commit →
      Turn hosts t top url branch t'
  /-- The clone was at the commit of its origin, and nothing has been done. -/
  | kept (origin : String) (branches : SortedMap Commit) (tracked : List String)
      (commit : Commit) :
      t.at? (top ++ [controlDirectory]) =
        some (.repository (.clone origin branch branches tracked)) →
      branches.get? branch = some commit → t.remoteCommit? hosts origin branch = some commit →
      t' = t → Turn hosts t top url branch t'
  /-- The clone was elsewhere, and has been moved to the commit of its origin. -/
  | moved (origin head : String) (branches : SortedMap Commit) (tracked : List String)
      (commit : Commit) :
      t.at? (top ++ [controlDirectory]) =
        some (.repository (.clone origin head branches tracked)) →
      ¬ (branches.get? branch = some commit ∧ head = branch) →
      t.remoteCommit? hosts origin branch = some commit → t'.CloneAt top origin branch commit →
      Turn hosts t top url branch t'

/-- A success with a repository. -/
theorem ends_sync_of_control {data : Repository} (h : Ready hosts t directory top url)
    (hcontrol : t.at? (top ++ [controlDirectory]) = some (.repository data)) (branch : String) :
    Ends (fun _ => True) (fun t' => t.DiffersAt (· = top) t' ∧ Turn hosts t top url branch t')
      (on (sync hosts directory url branch) t) := by
  have htop := directory_of_control hcontrol
  rw [on_sync_of_control ((h.stands t h.differsAt).there htop) hcontrol]
  cases data with
  | bare branches =>
    rw [pull, on_get_bind, repositoryAt?_eq_some.mpr hcontrol]
    exact trivial
  | clone origin head branches tracked =>
    rw [on_pull hcontrol]
    cases htip : t.remoteCommit? hosts origin branch with
    | none => exact trivial
    | some commit =>
      by_cases hthere : branches.get? branch = some commit ∧ head = branch
      · simp only [if_pos hthere]
        obtain ⟨hbranch, rfl⟩ := hthere
        exact ⟨h.differsAt, .kept origin branches tracked commit hcontrol hbranch htip rfl⟩
      · simp only [if_neg hthere, List.dropLast_concat]
        split
        · obtain ⟨hdiffers, hclone⟩ := cloneAt_checkOut htop tracked rfl
          exact ⟨hdiffers, .moved origin head branches tracked commit hcontrol hthere htip hclone⟩
        · exact trivial

/-- Without a repository, removing what stands at the directory brings none to light. -/
theorem clearing_of_ready (h : Ready hosts t directory top url)
    (hnone : ∀ data, t.at? (top ++ [controlDirectory]) ≠ some (.repository data)) :
    Clearing directory fun t' => t.ClearsTo t' ∧ t.DiffersAt (· = top) t' := by
  constructor
  · rintro t' ⟨hclears, hdiffers⟩
    refine Option.eq_none_iff_forall_ne_some.mpr fun found hfound => ?_
    have hlink : ∀ target, t'.at? (top ++ [controlDirectory]) ≠ some (.link target) :=
      fun target hnode => h.control target (hclears.at? hnode Node.link_ne_directory)
    obtain ⟨hends, data, hnode⟩ :=
      repositoryPlace?_of_stands (h.stands t' hdiffers) hlink hfound
    have hbefore := hclears.at? hnode Node.repository_ne_directory
    rcases hends with rfl | rfl
    · exact h.proper data hbefore
    · exact hnone data hbefore
  · rintro t' ⟨hclears, hdiffers⟩
    exact ⟨hclears.trans (clears_removeEmptyDirectory directory t'),
      hdiffers.removeEmptyDirectory (h.stands t' hdiffers)⟩
  · rintro t' ⟨hclears, hdiffers⟩
    exact ⟨hclears.trans (clears_removeTree directory t'), hdiffers.removeTree h.stands⟩
  · rintro t' ⟨hclears, hdiffers⟩
    exact ⟨hclears.trans (clears_removeFile directory t'),
      hdiffers.removeFile (h.stands t' hdiffers)⟩

/-- **A success takes one of the three turns**, and makes a difference at the place only. -/
theorem ends_sync_of_ready (h : Ready hosts t directory top url) (branch : String) :
    Ends (fun _ => True) (fun t' => t.DiffersAt (· = top) t' ∧ Turn hosts t top url branch t')
      (on (sync hosts directory url branch) t) := by
  by_cases hcontrol : ∃ data, t.at? (top ++ [controlDirectory]) = some (.repository data)
  · obtain ⟨data, hcontrol⟩ := hcontrol
    exact ends_sync_of_control h hcontrol branch
  have hnone : ∀ data, t.at? (top ++ [controlDirectory]) ≠ some (.repository data) :=
    fun data hdata => hcontrol ⟨data, hdata⟩
  refine (ends_sync_of_clearing (clearing_of_ready h hnone) ⟨clearsTo_refl t, h.differsAt⟩ url
    branch).imp (fun _ _ => trivial) ?_
  rintro t' ⟨t₁, ⟨-, hdiffers⟩, t₂, found, commit, hgrows, hfresh⟩
  -- Neither removing nor making directories changes where the path leads or what the url shows.
  have hdiffers₂ := hdiffers.trans (hgrows.differsAt hdiffers.unlinked)
  have hfound : found = top := (h.stands t₂ hdiffers₂).found _ _ hfresh.located
  subst hfound
  have htip : t.remoteCommit? hosts url branch = some commit := by
    rw [← h.shown t₂ hdiffers₂ branch]
    exact hfresh.tip
  exact ⟨hdiffers₂.trans hfresh.differsAt, .made commit hnone htip hfresh.cloneAt⟩

/-! ## What a turn decides -/

/-- Does the clone at a place, if there is one, fit a branch and the commit that it should be at?
Its origin must show that commit at the branch, and if it is there already, so must be the files. -/
def Fits (shows : String → String → Option Commit) (t : FileTree) (top : Location)
    (branch : String) (target : Option Commit) : Prop :=
  ∀ origin head branches tracked, t.at? (top ++ [controlDirectory]) =
      some (.repository (.clone origin head branches tracked)) →
    shows origin branch = target ∧ ∀ commit, head = branch → branches.get? branch = some commit →
      target = some commit → t.HasFiles top commit.files.get?

/-- Nor is the question whether a clone can be made there. -/
theorem fits_iff_of_apart {places : Location → Prop} (h : t.DiffersAt places t')
    (hapart : ∀ place, places place → ¬ place <+: top ∧ ¬ top <+: place)
    (target : Option Commit) :
    Fits shows t' top branch target ↔ Fits shows t top branch target := by
  simp only [Fits, control_iff_of_apart h hapart, hasFiles_iff_of_apart h hapart]

/-- The origin of the clone that a turn leaves: that of the clone that was there, or the url. -/
theorem Turn.clone (h : Turn hosts t top url branch t')
    (hurl : t.remoteCommit? hosts url branch = shows url branch)
    (horigin : ∀ origin head branches tracked, t.at? (top ++ [controlDirectory]) =
      some (.repository (.clone origin head branches tracked)) →
      t.remoteCommit? hosts origin branch = shows origin branch) :
    ∃ origin branches tracked commit, t'.at? (top ++ [controlDirectory]) =
        some (.repository (.clone origin branch branches tracked)) ∧
      branches.get? branch = some commit ∧ shows origin branch = some commit ∧
      ((∃ head branches tracked, t.at? (top ++ [controlDirectory]) =
          some (.repository (.clone origin head branches tracked))) ∨
        (∀ data, t.at? (top ++ [controlDirectory]) ≠ some (.repository data)) ∧ origin = url) := by
  cases h with
  | made commit hnone htip hclone =>
    obtain ⟨branches, tracked, hcontrol, hbranch, -⟩ := hclone
    exact ⟨url, branches, tracked, commit, hcontrol, hbranch, hurl.symm.trans htip,
      .inr ⟨hnone, rfl⟩⟩
  | kept origin branches tracked commit hcontrol hbranch htip hsame =>
    subst hsame
    exact ⟨origin, branches, tracked, commit, hcontrol, hbranch,
      (horigin _ _ _ _ hcontrol).symm.trans htip, .inl ⟨branch, branches, tracked, hcontrol⟩⟩
  | moved origin head branches tracked commit hcontrol hnot htip hclone =>
    obtain ⟨branches', tracked', hcontrol', hbranch, -⟩ := hclone
    exact ⟨origin, branches', tracked', commit, hcontrol', hbranch,
      (horigin _ _ _ _ hcontrol).symm.trans htip, .inl ⟨head, branches, tracked, hcontrol⟩⟩

/-- A clone that is checked out where its origin is fits exactly if it is at the commit in question,
with its files. -/
theorem cloneAt_iff_fits {origin : String} {branches : SortedMap Commit} {tracked : List String}
    {commit : Commit} {target : Option Commit}
    (hcontrol : t.at? (top ++ [controlDirectory]) =
      some (.repository (.clone origin branch branches tracked)))
    (hbranch : branches.get? branch = some commit) (hshows : shows origin branch = some commit) :
    (∃ origin commit, target = some commit ∧ t.CloneAt top origin branch commit) ↔
      Fits shows t top branch target := by
  constructor
  · rintro ⟨origin', commit', rfl, branches', tracked', hcontrol', hbranch', hfiles⟩
    rw [hcontrol] at hcontrol'
    cases hcontrol'
    have hcommit : commit' = commit := Option.some.inj (hbranch'.symm.trans hbranch)
    subst hcommit
    intro origin' head branches' tracked' hother
    rw [hcontrol] at hother
    cases hother
    refine ⟨hshows, fun other _ _ hsame => ?_⟩
    rw [← Option.some.inj hsame]
    exact hfiles
  · intro h
    obtain ⟨htarget, hfiles⟩ := h origin branch branches tracked hcontrol
    rw [hshows] at htarget
    exact ⟨origin, commit, htarget.symm, branches, tracked, hcontrol, hbranch,
      hfiles commit rfl hbranch htarget.symm⟩

/-- **A turn neither makes a clone fit nor stops it from fitting.** -/
theorem Turn.fits_iff (h : Turn hosts t top url branch t')
    (hurl : t.remoteCommit? hosts url branch = shows url branch)
    (horigin : ∀ origin head branches tracked, t.at? (top ++ [controlDirectory]) =
      some (.repository (.clone origin head branches tracked)) →
      t.remoteCommit? hosts origin branch = shows origin branch) :
    Fits shows t' top branch (shows url branch) ↔ Fits shows t top branch (shows url branch) := by
  cases h with
  | made commit hnone htip hclone =>
    have hshows : shows url branch = some commit := hurl.symm.trans htip
    -- A new clone fits, and where there was none, none was there to be unfit.
    have hafter : Fits shows t' top branch (shows url branch) := by
      obtain ⟨branches, tracked, hcontrol, hbranch, hfiles⟩ := hclone
      refine (cloneAt_iff_fits hcontrol hbranch hshows).mp ?_
      exact ⟨url, commit, hshows, branches, tracked, hcontrol, hbranch, hfiles⟩
    have hbefore : Fits shows t top branch (shows url branch) :=
      fun origin head branches tracked hcontrol => absurd hcontrol (hnone _)
    exact iff_of_true hafter hbefore
  | kept origin branches tracked commit hcontrol hbranch htip hsame => rw [hsame]
  | moved origin head branches tracked commit hcontrol hnot htip hclone =>
    have hshows : shows origin branch = some commit :=
      (horigin _ _ _ _ hcontrol).symm.trans htip
    obtain ⟨branches', tracked', hcontrol', hbranch, hfiles⟩ := hclone
    rw [← cloneAt_iff_fits hcontrol' hbranch hshows]
    constructor
    · rintro ⟨origin', commit', htarget, branches₂, tracked₂, hcontrol₂, hbranch₂, -⟩
      rw [hcontrol'] at hcontrol₂
      cases hcontrol₂
      have hcommit : commit' = commit := Option.some.inj (hbranch₂.symm.trans hbranch)
      intro origin₃ head₃ branches₃ tracked₃ hcontrol₃
      rw [hcontrol] at hcontrol₃
      cases hcontrol₃
      rw [htarget, hcommit]
      refine ⟨hshows, fun other hhead hother hsame => ?_⟩
      -- The clone was not at this commit before.
      rw [← Option.some.inj hsame] at hother
      exact absurd ⟨hother, hhead⟩ hnot
    · intro hfits
      have htarget := (hfits origin head branches tracked hcontrol).1
      rw [hshows] at htarget
      exact ⟨origin, commit, htarget.symm, branches', tracked', hcontrol', hbranch, hfiles⟩

end Remote

end KeywordCensus
