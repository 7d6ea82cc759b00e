import KeywordCensus.Proofs.Remote.Cloning

/-!
# A clone that is kept up to date

A mirror is a clone whose work tree holds exactly the commit that is checked out
(`FileTree.Mirror`). Bringing a directory up to date starts from a directory that is free of
repositories or from a mirror, and ends in one of these two: a success leaves a mirror of the branch
that was asked for, at the commit that the remote has there, and a failure leaves a free directory
free and a mirror as it was.

The early return of a pull is the point where this could go wrong. It leaves the work tree alone
wherever the branch is checked out at the fetched commit, so it is right only because the work
tree of a mirror holds that commit on every way that leads there. `Remote.upToDate_of_run` says so
for every interleaving of calls with changes that others make elsewhere.
-/

namespace KeywordCensus

namespace FileTree

variable {t t' t₂ : FileTree} {directory : Path} {top : Location} {url head branch : String}
  {branches : SortedMap Commit} {commit old : Commit} {hosts : Hosts}

/-- Is a directory a clone of a url with a branch checked out at a commit, and nothing in its work
tree but the files of the commit? -/
structure Mirror (t : FileTree) (directory : Path) (top : Location) (url head : String)
    (branches : SortedMap Commit) (commit : Commit) : Prop where
  /-- The directory is found, whatever stands in it. -/
  leads : t.Leads directory top
  /-- The control directory records the url, the branch that is checked out, and its files. -/
  control : t.at? (top ++ [controlDirectory]) =
    some (.repository (.clone url head branches commit.files.keys))
  /-- The branch that is checked out is at the commit. -/
  tip : branches.get? head = some commit
  /-- The work tree holds the files of the commit, and nothing else. -/
  holds : t.Holds top commit.files.get?

/-- The work tree depends on nothing but what stands in it. -/
theorem Holds.congr (h : t.Holds top commit.files.get?)
    (hsame : ∀ place, place = top ∨ InWork top place → t'.shell? place = t.shell? place) :
    t'.Holds top commit.files.get? := by
  constructor
  · rw [hsame top (.inl rfl)]
    exact h.directory
  · intro file content hfile
    have hmem : file ∈ commit.files.keys := SortedMap.mem_keys.mpr ⟨content, hfile⟩
    have hwork : InWork top (top ++ fileNames file) :=
      inWork_file commit.fits hmem (fileNames_ne_nil commit.fits hmem) (List.prefix_refl _)
    exact at?_of_shell?_eq (hsame _ (.inr hwork)) (h.file file content hfile)
      Node.file_ne_directory
  · intro name rest hname hsome
    refine h.only name rest hname fun hnone => hsome ?_
    exact (at?_eq_none_iff (hsame _ (.inr ⟨name, rest, hname, rfl⟩))).mpr hnone

theorem Mirror.directory_there (h : t.Mirror directory top url head branches commit) :
    t.shell? top = some (.directory []) := h.holds.directory

theorem Mirror.hasPlace (h : t.Mirror directory top url head branches commit) :
    t.HasPlace top := hasPlace_of_at? (at?_ne_none h.directory_there)

theorem Mirror.locate (h : t.Mirror directory top url head branches commit) :
    t.locate directory true = .ok top := locate_of_leads h.leads h.directory_there

/-- The repository of a mirror is its own control directory. -/
theorem Mirror.repositoryPlace (h : t.Mirror directory top url head branches commit) :
    t.repositoryPlace? directory = some (top ++ [controlDirectory]) :=
  repositoryPlace?_of_control h.locate h.control

/-- Moving a branch leaves the work tree of a mirror as it is. -/
theorem Mirror.holds_put (h : t.Mirror directory top url head branches commit)
    (data : Repository) :
    (t.put (top ++ [controlDirectory]) (.repository data)).Holds top commit.files.get? := by
  refine h.holds.congr ?_
  rintro place (rfl | hwork)
  · exact shell?_put not_below_parent
  · exact shell?_put (not_control_below_work hwork)

/-- Nothing in a mirror is out of reach of those who check out a commit. -/
theorem Mirror.canReach (h : t.Mirror directory top url head branches old) (data : Repository)
    (commit : Commit) : (old.files.keys ++ commit.files.keys).all
      ((t.put (top ++ [controlDirectory]) (.repository data)).canReach top) = true := by
  have hholds := h.holds_put data
  rw [List.all_append, Bool.and_eq_true, List.all_eq_true, List.all_eq_true]
  exact ⟨fun _ hfile => hholds.canReach old.fits hfile,
    fun _ hfile => hholds.canReach commit.fits hfile⟩

/-- **Checking out another commit turns a mirror into a mirror**, and touches nothing outside. -/
theorem Mirror.checkOut (h : t.Mirror directory top url head branches old)
    (hleft : t' = (t.put (top ++ [controlDirectory]) (.repository (.clone url branch
      (branches.insert branch commit) commit.files.keys))).checkOut top old.files.keys commit) :
    t'.Mirror directory top url branch (branches.insert branch commit) commit ∧
      t'.workDir = t.workDir ∧ ∀ other, ¬ top <+: other → t'.shell? other = t.shell? other := by
  have hput := h.holds_put (.clone url branch (branches.insert branch commit) commit.files.keys)
  have hholds := holds_checkOut old commit hput
  have hkeeps := keepsAround_checkOut old.files.keys commit hput.directory
    (at?_put_self (hasPlace_concat h.directory_there _))
  rw [← hleft] at hholds hkeeps
  have hworkDir : t'.workDir = t.workDir := hkeeps.workDir
  have houtside : ∀ other, ¬ top <+: other → t'.shell? other = t.shell? other :=
    fun _ => agree_of_keepsAround hkeeps
  exact ⟨⟨leads_of_agree hworkDir h.hasPlace houtside h.leads,
    control_of_keepsAround h.directory_there hkeeps, SortedMap.get?_insert_self .., hholds⟩,
    hworkDir, houtside⟩

/-! ## A fresh clone -/

/-- **A fresh clone is a mirror.** -/
theorem Fresh.mirror (h : t.Fresh hosts directory top url branch commit t') :
    t'.Mirror directory top url branch (SortedMap.empty.insert branch commit) commit := by
  have hkeeps := h.keeps
  have hplace : t.HasPlace top := hasPlace_of_at? (by rw [h.empty]; exact Option.some_ne_none _)
  have hworkDir : t'.workDir = t.workDir := hkeeps.workDir
  have hleads := leads_of_locate h.located h.empty
  exact ⟨leads_of_agree hworkDir hplace (fun _ => agree_of_keepsAround hkeeps) hleads,
    control_of_keepsAround h.directory_there hkeeps, SortedMap.get?_insert_self .., h.holds⟩

end FileTree

namespace Remote

open FileTree FileAction

variable {t t' t₀ : FileTree} {hosts : Hosts} {directory : Path} {url branch : String}

/-- What a success without a mirror has done. -/
def Cloned (hosts : Hosts) (directory : Path) (url branch : String) (t t' : FileTree) : Prop :=
  ∃ t₂ top commit, t.ClearsTo t₂ ∧ t₂.Fresh hosts directory top url branch commit t'

/-- **A free directory** is left free by a failure, and holds a fresh clone after a success. -/
theorem ends_sync_of_free (h : t.Free directory) (hosts : Hosts) (url branch : String) :
    Ends t.ClearsTo (Cloned hosts directory url branch t)
      (on (sync hosts directory url branch) t) := by
  have hclearing : Clearing directory t.ClearsTo :=
    ⟨h, fun t' ht => ht.trans (clears_removeEmptyDirectory directory t'),
      fun t' ht => ht.trans (clears_removeTree directory t'),
      fun t' ht => ht.trans (clears_removeFile directory t')⟩
  refine (ends_sync_of_clearing hclearing (clearsTo_refl t) url branch).imp ?_ ?_
  · rintro t' ⟨t₁, hclears, hgrows⟩
    exact hclears.trans hgrows.clears
  · rintro t' ⟨t₁, hclears, t₂, top, commit, hgrows, hfresh⟩
    exact ⟨t₂, top, commit, hclears.trans hgrows.clears, hfresh⟩

/-! ## Calls on a mirror -/

variable {top : Location} {origin head : String} {branches : SortedMap Commit} {old : Commit}

/-- What a success on a mirror leaves: a mirror of the branch at the commit that its origin has
there, and everything else as it was. -/
structure Pulled (hosts : Hosts) (t : FileTree) (directory : Path) (top : Location)
    (origin branch : String) (t' : FileTree) : Prop where
  mirror : ∃ branches commit, t'.Mirror directory top origin branch branches commit ∧
    t.remoteCommit? hosts origin branch = some commit
  workDir : t'.workDir = t.workDir
  outside : ∀ other, ¬ top <+: other → t'.shell? other = t.shell? other

/-- **A mirror** is left as it was by a failure, and is a mirror of the branch after a success. -/
theorem ends_sync_of_mirror (h : t.Mirror directory top origin head branches old)
    (hosts : Hosts) (url branch : String) :
    Ends (· = t) (Pulled hosts t directory top origin branch)
      (on (sync hosts directory url branch) t) := by
  rw [on_sync_of_control h.locate h.control, on_pull h.control]
  cases htip : t.remoteCommit? hosts origin branch with
  | none => exact rfl
  | some commit =>
    by_cases hthere : branches.get? branch = some commit ∧ head = branch
    · simp only [if_pos hthere]
      obtain ⟨hbranch, rfl⟩ := hthere
      -- The work tree is left alone, and it holds the commit already.
      have hsame : old = commit := Option.some.inj (h.tip.symm.trans hbranch)
      exact ⟨⟨branches, old, h, hsame ▸ htip⟩, rfl, fun _ _ => rfl⟩
    · simp only [if_neg hthere, List.dropLast_concat, h.canReach _ commit, if_true]
      obtain ⟨hmirror, hworkDir, houtside⟩ := h.checkOut rfl
      exact ⟨⟨_, commit, hmirror, htip⟩, hworkDir, houtside⟩

/-! ## Every run -/

/-- Does a change by others leave a directory alone? They put no repository where it is free, and
where it holds one they change neither the way to it nor what stands there. -/
structure Elsewhere (directory : Path) (t t' : FileTree) : Prop where
  free : t.Free directory → t'.Free directory
  kept : ∀ top, t.Leads directory top →
    t.repositoryPlace? directory = some (top ++ [controlDirectory]) →
    t'.Leads directory top ∧ t'.at? top = t.at? top

/-- The trees that come about when a directory is brought up to date from one url again and again,
with any branches, while others change what they like elsewhere. -/
inductive Run (directory : Path) (url : String) (t₀ : FileTree) : FileTree → Prop
  /-- Nothing has happened. -/
  | start : Run directory url t₀ t₀
  /-- Others change something: the remote moves, appears or vanishes. -/
  | elsewhere {t t' : FileTree} :
      Run directory url t₀ t → Elsewhere directory t t' → Run directory url t₀ t'
  /-- The directory is brought up to date, with success or without. Other machines may show
  something else at each call. -/
  | call {t : FileTree} (hosts : Hosts) (branch : String) :
      Run directory url t₀ t → Run directory url t₀ (on (sync hosts directory url branch) t).2

/-- A directory that is up to date after a call. -/
structure UpToDate (hosts : Hosts) (t t' : FileTree) (directory : Path) (url branch : String)
    (top : Location) (branches : SortedMap Commit) (commit : Commit) : Prop where
  /-- It is a mirror of the url, with the branch checked out at the commit. -/
  mirror : t'.Mirror directory top url branch branches commit
  /-- The commit is the one that the url showed at the branch when it was asked. -/
  asked : t.remoteCommit? hosts url branch = some commit ∨
    t'.remoteCommit? hosts url branch = some commit
  /-- No other commit is shown at the branch now, apart from what the directory itself shows. -/
  current : ∀ other, (t'.put top (.directory [])).remoteCommit? hosts url branch = some other →
    other = commit

theorem upToDate_of_cloned (h : Cloned hosts directory url branch t t') :
    ∃ top branches commit, UpToDate hosts t t' directory url branch top branches commit := by
  obtain ⟨t₂, top, commit, -, hfresh⟩ := h
  have htip := remoteCommit?_mono hfresh.extends_ hfresh.tip
  refine ⟨top, _, commit, hfresh.mirror, .inr htip, fun other hother => ?_⟩
  have hnow := remoteCommit?_mono (extends_of_emptied hfresh.mirror.directory_there) hother
  exact Option.some.inj (hnow.symm.trans htip)

/-- A pull leaves a mirror up to date with the origin it recorded. -/
theorem upToDate_of_pulled (hthere : t.shell? top = some (.directory []))
    (h : Pulled hosts t directory top url branch t') :
    ∃ top branches commit, UpToDate hosts t t' directory url branch top branches commit := by
  obtain ⟨branches, commit, hmirror, htip⟩ := h.mirror
  refine ⟨top, branches, commit, hmirror, .inl htip, fun other hother => ?_⟩
  -- Without the directory, the trees before and after the call are alike.
  have hemptied := extends_of_agree h.workDir.symm hmirror.hasPlace
    (fun place hnot => (h.outside place hnot).symm)
  have hbefore := remoteCommit?_mono (hemptied.trans (extends_of_emptied hthere)) hother
  exact Option.some.inj (hbefore.symm.trans htip)

/-- A directory between calls: free, or a mirror. -/
def Settled (t : FileTree) (directory : Path) (url : String) : Prop :=
  t.Free directory ∨ ∃ top head branches commit, t.Mirror directory top url head branches commit

/-- Changes elsewhere keep a mirror. -/
theorem mirror_of_elsewhere {commit : Commit}
    (h : t.Mirror directory top url head branches commit) (helse : Elsewhere directory t t') :
    t'.Mirror directory top url head branches commit := by
  obtain ⟨hleads, hsame⟩ := helse.kept top h.leads h.repositoryPlace
  have hbelow : ∀ rest, t'.at? (top ++ rest) = t.at? (top ++ rest) := by
    intro rest
    rw [at?_append, at?_append, hsame]
  refine ⟨hleads, (hbelow _).trans h.control, h.tip, h.holds.congr ?_⟩
  rintro place (rfl | ⟨name, rest, -, rfl⟩)
  · rw [shell?, shell?, hsame]
  · rw [shell?, shell?, hbelow]

/-- What one call does to a settled directory. -/
theorem ends_sync_of_settled (h : Settled t directory url) (hosts : Hosts) (branch : String) :
    Ends (fun t' => Settled t' directory url ∧ (t.repositoryPlace? directory ≠ none → t' = t))
      (fun t' => ∃ top branches commit,
        UpToDate hosts t t' directory url branch top branches commit)
      (on (sync hosts directory url branch) t) := by
  rcases h with hfree | ⟨top, head, branches, commit, hmirror⟩
  · refine (ends_sync_of_free hfree hosts url branch).imp (fun t' hclears => ?_)
      (fun t' hcloned => upToDate_of_cloned hcloned)
    exact ⟨.inl (hfree.clears hclears), fun hsome => absurd (hfree t (clearsTo_refl t)) hsome⟩
  · refine (ends_sync_of_mirror hmirror hosts url branch).imp (fun t' hsame => ?_)
      (fun t' hpulled => upToDate_of_pulled hmirror.directory_there hpulled)
    subst hsame
    exact ⟨.inr ⟨top, head, branches, commit, hmirror⟩, fun _ => rfl⟩

/-- **Between the calls of a run, the directory is settled.** -/
theorem settled_of_run (hfree : t₀.Free directory) (h : Run directory url t₀ t) :
    Settled t directory url := by
  induction h with
  | start => exact .inl hfree
  | elsewhere _ helse ih =>
    rcases ih with hfree | ⟨top, head, branches, commit, hmirror⟩
    · exact .inl (helse.free hfree)
    · exact .inr ⟨top, head, branches, commit, mirror_of_elsewhere hmirror helse⟩
  | @call t hosts branch _ ih =>
    have hends := ends_sync_of_settled ih hosts branch
    cases hcall : on (sync hosts directory url branch) t with
    | mk result t' =>
      rw [hcall] at hends
      cases result with
      | error e => exact hends.1
      | ok done =>
        obtain ⟨top, branches, commit, hupToDate⟩ := hends
        exact .inr ⟨top, branch, branches, commit, hupToDate.mirror⟩

/-- **Whatever has happened before, a call that succeeds leaves the directory up to date, and a call
that fails on a repository leaves everything as it was.** -/
theorem upToDate_of_run (hfree : t₀.Free directory) (h : Run directory url t₀ t) (hosts : Hosts)
    (branch : String) :
    (∀ t', on (sync hosts directory url branch) t = (.ok (), t') →
      ∃ top branches commit, UpToDate hosts t t' directory url branch top branches commit) ∧
    ∀ e t', on (sync hosts directory url branch) t = (.error e, t') →
      t.repositoryPlace? directory ≠ none → t' = t := by
  have hends := ends_sync_of_settled (settled_of_run hfree h) hosts branch
  constructor
  · intro t' hcall
    rw [hcall] at hends
    exact hends
  · intro e t' hcall
    rw [hcall] at hends
    exact hends.2

/-- **A mirror of another url never becomes one of the url that is asked for**: a call that succeeds
leaves it at a commit of the repository that it came from. -/
theorem not_upToDate_of_mirror (h : t.Mirror directory top origin head branches old)
    (hother : origin ≠ url) (hok : on (sync hosts directory url branch) t = (.ok (), t')) :
    (∃ branches commit, t'.Mirror directory top origin branch branches commit ∧
      t.remoteCommit? hosts origin branch = some commit) ∧
    ¬ ∃ top branches commit, UpToDate hosts t t' directory url branch top branches commit := by
  have hends := ends_sync_of_mirror h hosts url branch
  rw [hok] at hends
  refine ⟨hends.mirror, ?_⟩
  rintro ⟨top', branches', commit', hupToDate⟩
  obtain ⟨branches, commit, hmirror, -⟩ := hends.mirror
  have htop : top' = top :=
    Except.ok.inj (hupToDate.mirror.locate.symm.trans hmirror.locate)
  subst htop
  -- One control directory cannot record two urls.
  have hcontrol := hmirror.control.symm.trans hupToDate.mirror.control
  injection hcontrol with hnode
  injection hnode with hdata
  injection hdata with horigin
  exact hother horigin

/-- What a success leaves, for actions that are evaluated. -/
theorem on_eq_of_toOption {action : FileAction RemoteError Unit}
    (h : (on action t).1.toOption = some ()) : on action t = (.ok (), (on action t).2) := by
  rw [← eq_ok_of_toOption h]

/-- A commit with one file. -/
def firstCommit : Commit :=
  ⟨1, SortedMap.empty.insert "a.essence" "find x", by decide +kernel⟩

/-- A commit with another file. -/
def secondCommit : Commit :=
  ⟨2, SortedMap.empty.insert "b/c.essence" "find y", by decide +kernel⟩

/-- A remote with one branch. -/
def remoteAt (commit : Commit) : Node :=
  .repository (.bare (SortedMap.empty.insert "master" commit))

/-- The url of a repository on another machine. -/
def hostedUrl : String := "https://host/o/r"

/-- Other machines that show nothing but a commit at one branch of that repository. -/
def hostsAt (commit : Commit) : Hosts := fun url branch =>
  if url = hostedUrl ∧ branch = "master" then some commit else none

/-- A tree with a file. -/
def plainTree : FileTree := ⟨.directory [("up", .file "".toUTF8 0o644)], [], List.forall_mem_nil _⟩

theorem free_plainTree : plainTree.Free ⟨"m"⟩ := by
  have hstart : plainTree.shell? [] = some (.directory []) := rfl
  have hnone : plainTree.at? ["m"] = none := rfl
  have hbelow : plainTree.at? ["m", controlDirectory] = none := rfl
  have hplain : plainTree.Plain ⟨"m"⟩ ["m"] := by
    refine plain_name (by decide +kernel) (fun target hlink => ?_) (fun target hlink => ?_)
    · cases hstart.symm.trans hlink
    · cases (shell?_eq_none.mpr hnone).symm.trans hlink
  refine hplain.free (fun data hdata => ?_) (fun data hdata => ?_) (fun target hlink => ?_)
  · cases hnone.symm.trans hdata
  · cases hbelow.symm.trans hdata
  · cases hbelow.symm.trans hlink

/-- The tree after a first call. -/
def clonedTree : FileTree := (on (sync (hostsAt firstCommit) ⟨"m"⟩ hostedUrl "master") plainTree).2

/-- The tree after others have changed something beside the directory. -/
def rewoundTree : FileTree := clonedTree.put ["up"] (remoteAt secondCommit)

theorem run_rewoundTree : Run ⟨"m"⟩ hostedUrl plainTree rewoundTree := by
  have hcalled : Run ⟨"m"⟩ hostedUrl plainTree clonedTree := by
    rw [clonedTree]
    exact .call (hostsAt firstCommit) "master" .start
  have hplace : clonedTree.repositoryPlace? ⟨"m"⟩ = some (["m"] ++ [controlDirectory]) := by
    decide +kernel
  refine .elsewhere hcalled ⟨fun hfree => ?_, fun top _ hfound => ?_⟩
  · have hnone := hfree _ (clearsTo_refl _)
    rw [hplace] at hnone
    cases hnone
  · rw [hplace] at hfound
    have htop : top = ["m"] := List.append_cancel_right (Option.some.inj hfound).symm
    subst htop
    constructor
    · have hleads : rewoundTree.Leads ⟨"m"⟩ ["m"] := eq_ok_of_toOption (by decide +kernel)
      exact hleads
    · exact at?_alter_apart (by decide) (by decide)

/-- A mirror follows a repository of another machine that has thrown its history away. -/
theorem upToDate_of_rewound :
    ∃ t', on (sync (hostsAt secondCommit) ⟨"m"⟩ hostedUrl "master") rewoundTree = (.ok (), t') ∧
      ∃ top branches commit, UpToDate (hostsAt secondCommit) rewoundTree t' ⟨"m"⟩ hostedUrl
        "master" top branches commit := by
  have hok : on (sync (hostsAt secondCommit) ⟨"m"⟩ hostedUrl "master") rewoundTree =
      (.ok (), (on (sync (hostsAt secondCommit) ⟨"m"⟩ hostedUrl "master") rewoundTree).2) :=
    on_eq_of_toOption (by decide +kernel)
  refine ⟨_, hok, ?_⟩
  exact (upToDate_of_run free_plainTree run_rewoundTree (hostsAt secondCommit) "master").1 _ hok

/-- A tree with two remotes and a mirror of the second. -/
def strayTree : FileTree :=
  (on (sync Hosts.silent ⟨"m"⟩ "/other" "master")
    ⟨.directory [("other", remoteAt secondCommit), ("up", remoteAt firstCommit)], [],
      List.forall_mem_nil _⟩).2

/-- The trees after one call and after two calls for a path through a missing directory. -/
def strayTree₁ : FileTree := (on (sync Hosts.silent ⟨"x/../m"⟩ "/up" "master") strayTree).2

@[inherit_doc strayTree₁]
def strayTree₂ : FileTree := (on (sync Hosts.silent ⟨"x/../m"⟩ "/up" "master") strayTree₁).2

/-- Nothing stands at a path through a missing directory, and yet the path may lead to a mirror of
another remote: a first call makes the missing directory, and the next one pulls that mirror. -/
theorem not_upToDate_of_missing :
    strayTree.pathExists ⟨"x/../m"⟩ = false ∧ Run ⟨"x/../m"⟩ "/up" strayTree strayTree₁ ∧
      on (sync Hosts.silent ⟨"x/../m"⟩ "/up" "master") strayTree₁ = (.ok (), strayTree₂) ∧
      ¬ ∃ top branches commit,
        UpToDate Hosts.silent strayTree₁ strayTree₂ ⟨"x/../m"⟩ "/up" "master" top branches
          commit := by
  have hmissing : strayTree.pathExists ⟨"x/../m"⟩ = false := by decide +kernel
  have hrun : Run ⟨"x/../m"⟩ "/up" strayTree strayTree₁ := by
    rw [strayTree₁]
    exact .call Hosts.silent "master" .start
  have hcall : on (sync Hosts.silent ⟨"x/../m"⟩ "/up" "master") strayTree₁ =
      (.ok (), strayTree₂) := by
    rw [strayTree₂]
    exact on_eq_of_toOption (by decide +kernel)
  refine ⟨hmissing, hrun, hcall, ?_⟩
  rintro ⟨top, branches, commit, h⟩
  have hbefore : strayTree₁.remoteCommit? Hosts.silent "/up" "master" = some firstCommit := by
    decide +kernel
  have hafter : strayTree₂.remoteCommit? Hosts.silent "/up" "master" = some firstCommit := by
    decide +kernel
  have hcommit : commit = firstCommit := by
    rcases h.asked with hasked | hasked
    · exact Option.some.inj (hasked.symm.trans hbefore)
    · exact Option.some.inj (hasked.symm.trans hafter)
  have hlocate : strayTree₂.locate ⟨"x/../m"⟩ true = .ok ["m"] :=
    eq_ok_of_toOption (by decide +kernel)
  have htop : top = ["m"] := Except.ok.inj (h.mirror.locate.symm.trans hlocate)
  subst hcommit htop
  -- The work tree is that of the other remote.
  have hfile := h.mirror.holds.file "a.essence" "find x" (by decide +kernel)
  have hnone : (strayTree₂.at? (["m"] ++ fileNames "a.essence")).isNone = true := by
    decide +kernel
  rw [hfile] at hnone
  cases hnone

end Remote

end KeywordCensus
