import KeywordCensus.Proofs.Remote.Layout
import KeywordCensus.Proofs.Remote.Mirror

/-!
# The clones of all remotes

The clones of all remotes are brought up to date one after the other. Each call pulls from where the
clone at its place came from, and not from the url that it is given, and remotes of one owner and
name share a place, whatever their host and branch. So a run that succeeds need not leave every
remote with a clone of its own. `Remote.checkedOut_iff_agreeing` says exactly when it does: the
remotes that share a place must agree (`Remote.Agreeing.shared`), and the clones that were there
before must fit (`Remote.Agreeing.fits`).
-/

namespace KeywordCensus

namespace Remote

open FileTree FileAction

variable {t t' : FileTree} {shows : String → String → Option Commit} {root : Path}
  {all remotes rest : List Remote} {place : Remote → Location} {r s : Remote} {hosts : Hosts}

/-! ## The run over all remotes -/

/-- Is the clone of a remote checked out at the commit that its url shows at its branch? -/
def Served (shows : String → String → Option Commit) (place : Remote → Location) (t : FileTree)
    (r : Remote) : Prop :=
  ∃ origin commit, shows r.url r.branch = some commit ∧ t.CloneAt (place r) origin r.branch commit

/-- When every remote is served in the end. -/
structure Agreeing (shows : String → String → Option Commit) (place : Remote → Location)
    (remotes : List Remote) (t : FileTree) : Prop where
  /-- Remotes that share a place have the same branch, and their urls show the same commit there. -/
  shared : ∀ r ∈ remotes, ∀ s ∈ remotes, place r = place s →
    r.branch = s.branch ∧ shows r.url r.branch = shows s.url s.branch
  /-- A clone that is there before fits each remote with that place. -/
  fits : ∀ r ∈ remotes, Fits shows t (place r) r.branch (shows r.url r.branch)

/-- Where a clone comes from after a run: from where it came before, or else from the url of the
first remote with its place. -/
def Source (place : Remote → Location) (remotes : List Remote) (t : FileTree) (top : Location)
    (origin : String) : Prop :=
  (∃ head branches tracked, t.at? (top ++ [controlDirectory]) =
    some (.repository (.clone origin head branches tracked))) ∨
  (∀ data, t.at? (top ++ [controlDirectory]) ≠ some (.repository data)) ∧
    (remotes.find? fun r => place r = top).map Remote.url = some origin

/-- Two remotes can only share a clone if they agree. -/
theorem shared_of_served (h : Served shows place t r) (h' : Served shows place t s)
    (hsame : place r = place s) :
    r.branch = s.branch ∧ shows r.url r.branch = shows s.url s.branch := by
  obtain ⟨origin, commit, hshows, branches, tracked, hcontrol, hbranch, -⟩ := h
  obtain ⟨origin', commit', hshows', branches', tracked', hcontrol', hbranch', -⟩ := h'
  rw [hsame, hcontrol'] at hcontrol
  injection hcontrol with hnode
  injection hnode with hdata
  injection hdata with _ hhead hbranches _
  rw [← hhead, ← hbranches] at hbranch
  refine ⟨hhead.symm, ?_⟩
  rw [hshows, hshows', ← hbranch, ← hbranch']

/-- Of two remotes with one place, one branch and one commit, one is served if the other is. -/
theorem Served.congr (h : Served shows place t s) (hsame : place r = place s)
    (hshared : r.branch = s.branch ∧ shows r.url r.branch = shows s.url s.branch) :
    Served shows place t r := by
  obtain ⟨origin, commit, hshows, hclone⟩ := h
  refine ⟨origin, commit, hshared.2.trans hshows, ?_⟩
  rw [hsame, hshared.1]
  exact hclone

/-- What is left of a run after its first turn. -/
structure Completed (hosts : Hosts) (shows : String → String → Option Commit) (root : Path)
    (all : List Remote) (place : Remote → Location) (rest : List Remote)
    (t t' : FileTree) : Prop where
  layout : Layout hosts shows root all place t'
  differs : t.DiffersAt (Places rest place) t'
  sources : ∀ r ∈ rest, ∃ origin head branches tracked, Source place rest t (place r) origin ∧
    t'.at? (place r ++ [controlDirectory]) =
      some (.repository (.clone origin head branches tracked))
  served : (∀ r ∈ rest, Served shows place t' r) ↔ Agreeing shows place rest t

section Step

variable {t₁ : FileTree} (h : Layout hosts shows root all place t) (hr : r ∈ all)
  (hrest : ∀ s ∈ rest, s ∈ all) (ht : t.DiffersAt (· = place r) t₁)
  (hturn : Turn hosts t (place r) r.url r.branch t₁)
  (hafter : Completed hosts shows root all place rest t₁ t')

include h hr hrest ht hturn hafter

theorem differsAt_cons : t.DiffersAt (Places (r :: rest) place) t' := by
  have hsub : ∀ s ∈ r :: rest, s ∈ all := List.forall_mem_cons.mpr ⟨hr, hrest⟩
  have hfirst : t.DiffersAt (Places (r :: rest) place) t₁ := by
    refine ht.widen (fun top heq => ⟨r, List.mem_cons_self .., heq.symm⟩) ?_
    rintro _ ⟨s, hs, rfl⟩
    exact (h.turn hr ht hturn).unlinked s (hsub s hs)
  refine hfirst.trans (hafter.differs.widen ?_ ?_)
  · rintro top ⟨s, hs, heq⟩
    exact ⟨s, List.mem_cons_of_mem r hs, heq⟩
  · rintro _ ⟨s, hs, rfl⟩
    exact hafter.layout.unlinked s (hsub s hs)

omit ht hturn hafter in
/-- The first turn is taken apart from the places of the others. -/
theorem apart_of_first (hs : s ∈ rest) (hne : place s ≠ place r) :
    ∀ top, top = place r → ¬ top <+: place s ∧ ¬ place s <+: top := by
  rintro _ rfl
  exact h.apart_of_ne hr (hrest s hs) (Ne.symm hne)

omit ht hturn hafter in
/-- The others are apart from a place that none of them shares. -/
theorem apart_of_lone (hlone : ¬ ∃ s ∈ rest, place s = place r) :
    ∀ top, Places rest place top → ¬ top <+: place r ∧ ¬ place r <+: top := by
  rintro _ ⟨s, hs, rfl⟩
  exact h.apart_of_ne (hrest s hs) hr fun hsame => hlone ⟨s, hs, hsame⟩

theorem sources_cons : ∀ s ∈ r :: rest, ∃ origin head branches tracked,
    Source place (r :: rest) t (place s) origin ∧ t'.at? (place s ++ [controlDirectory]) =
      some (.repository (.clone origin head branches tracked)) := by
  obtain ⟨origin, branches, tracked, commit, hclone, -, -, hfrom⟩ :=
    hturn.clone (h.shown hr) fun _ _ _ _ => h.origin hr
  have hsource : Source place (r :: rest) t (place r) origin := by
    rcases hfrom with hbefore | ⟨hnone, rfl⟩
    · exact .inl hbefore
    · refine .inr ⟨hnone, ?_⟩
      simp only [List.find?_cons, decide_true, Option.map_some]
  -- The clone of the first remote keeps its origin, whoever else has a turn with it.
  have hfirst : ∃ head branches tracked, t'.at? (place r ++ [controlDirectory]) =
      some (.repository (.clone origin head branches tracked)) := by
    by_cases hex : ∃ s ∈ rest, place s = place r
    · obtain ⟨s, hs, hsame⟩ := hex
      obtain ⟨origin', head', branches', tracked', hsource', hcontrol'⟩ := hafter.sources s hs
      rw [hsame] at hsource' hcontrol'
      rcases hsource' with ⟨head, branches, tracked, hcontrol⟩ | ⟨hnone, -⟩
      · rw [hclone] at hcontrol
        cases hcontrol
        exact ⟨head', branches', tracked', hcontrol'⟩
      · exact absurd hclone (hnone _)
    · exact ⟨r.branch, branches, tracked,
        (control_iff_of_apart hafter.differs (apart_of_lone h hr hrest hex) _).mpr hclone⟩
  refine List.forall_mem_cons.mpr ⟨?_, fun s hs => ?_⟩
  · obtain ⟨head, branches, tracked, hcontrol⟩ := hfirst
    exact ⟨origin, head, branches, tracked, hsource, hcontrol⟩
  by_cases hsame : place s = place r
  · obtain ⟨head, branches, tracked, hcontrol⟩ := hfirst
    rw [hsame]
    exact ⟨origin, head, branches, tracked, hsource, hcontrol⟩
  · obtain ⟨origin', head', branches', tracked', hsource', hcontrol'⟩ := hafter.sources s hs
    refine ⟨origin', head', branches', tracked', ?_, hcontrol'⟩
    have hiff := control_iff_of_apart ht (apart_of_first h hr hrest hs hsame)
    rcases hsource' with ⟨head, branches, tracked, hcontrol⟩ | ⟨hnone, hfind⟩
    · exact .inl ⟨head, branches, tracked, (hiff _).mp hcontrol⟩
    · refine .inr ⟨fun data hdata => hnone data ((hiff data).mpr hdata), ?_⟩
      have hskip : decide (place r = place s) = false := decide_eq_false (Ne.symm hsame)
      simp only [List.find?_cons, hskip]
      exact hfind

/-- **Serving one remote more.** -/
theorem served_cons : (∀ s ∈ r :: rest, Served shows place t' s) ↔
    Agreeing shows place (r :: rest) t := by
  have hself : r ∈ r :: rest := List.mem_cons_self ..
  obtain ⟨origin, branches, tracked, commit, hclone, hbranch, hshows, -⟩ :=
    hturn.clone (h.shown hr) fun _ _ _ _ => h.origin hr
  have hserved : Served shows place t₁ r ↔
      Fits shows t₁ (place r) r.branch (shows r.url r.branch) :=
    cloneAt_iff_fits hclone hbranch hshows
  have hfits : Fits shows t₁ (place r) r.branch (shows r.url r.branch) ↔
      Fits shows t (place r) r.branch (shows r.url r.branch) :=
    hturn.fits_iff (h.shown hr) fun _ _ _ _ => h.origin hr
  have hlone : ¬ (∃ s ∈ rest, place s = place r) →
      (Served shows place t' r ↔ Served shows place t₁ r) := by
    intro hnone
    simp only [Served, cloneAt_iff_of_apart hafter.differs (apart_of_lone h hr hrest hnone)]
  have hother : ∀ s ∈ rest, place s ≠ place r → ∀ target,
      (Fits shows t₁ (place s) s.branch target ↔ Fits shows t (place s) s.branch target) :=
    fun s hs hne => fits_iff_of_apart ht (apart_of_first h hr hrest hs hne)
  constructor
  · intro hall
    obtain ⟨hr', hrest'⟩ := List.forall_mem_cons.mp hall
    have hagree := hafter.served.mp hrest'
    have hshared : ∀ s ∈ r :: rest, ∀ s' ∈ r :: rest, place s = place s' →
        s.branch = s'.branch ∧ shows s.url s.branch = shows s'.url s'.branch :=
      fun s hs s' hs' => shared_of_served (hall s hs) (hall s' hs')
    have hfirst : Fits shows t (place r) r.branch (shows r.url r.branch) := by
      by_cases hex : ∃ s ∈ rest, place s = place r
      · -- A later remote has its turn with this clone, and fitting is all the same before it.
        obtain ⟨s, hs, hsame⟩ := hex
        obtain ⟨hbranches, htargets⟩ := hshared s (List.mem_cons_of_mem r hs) r hself hsame
        have hlater := hagree.fits s hs
        rw [hsame, htargets, hbranches] at hlater
        exact hfits.mp hlater
      · exact hfits.mp (hserved.mp ((hlone hex).mp hr'))
    refine ⟨hshared, List.forall_mem_cons.mpr ⟨hfirst, fun s hs => ?_⟩⟩
    by_cases hsame : place s = place r
    · obtain ⟨hbranches, htargets⟩ := hshared s (List.mem_cons_of_mem r hs) r hself hsame
      rw [hsame, htargets, hbranches]
      exact hfirst
    · exact (hother s hs hsame _).mp (hagree.fits s hs)
  · intro hagree
    have hfirst := hfits.mpr (hagree.fits r hself)
    have hlater : Agreeing shows place rest t₁ := by
      refine ⟨fun s hs s' hs' => hagree.shared s (List.mem_cons_of_mem r hs) s'
        (List.mem_cons_of_mem r hs'), fun s hs => ?_⟩
      by_cases hsame : place s = place r
      · obtain ⟨hbranches, htargets⟩ :=
          hagree.shared s (List.mem_cons_of_mem r hs) r hself hsame
        rw [hsame, htargets, hbranches]
        exact hfirst
      · exact (hother s hs hsame _).mpr (hagree.fits s (List.mem_cons_of_mem r hs))
    have hrest' := hafter.served.mpr hlater
    refine List.forall_mem_cons.mpr ⟨?_, hrest'⟩
    by_cases hex : ∃ s ∈ rest, place s = place r
    · -- Whoever shares the place asks for the same, and has been served last.
      obtain ⟨s, hs, hsame⟩ := hex
      exact (hrest' s hs).congr hsame.symm
        (hagree.shared r hself s (List.mem_cons_of_mem r hs) hsame.symm)
    · exact (hlone hex).mpr (hserved.mpr hfirst)

end Step

theorem syncAll_cons_eq_ok (h : on (syncAll hosts root (r :: rest)) t = (.ok (), t')) :
    ∃ t₁, on (sync hosts (r.cloneDirectory root) r.url r.branch) t = (.ok (), t₁) ∧
      on (syncAll hosts root rest) t₁ = (.ok (), t') := by
  have hunfold : syncAll hosts root (r :: rest) =
      (sync hosts (r.cloneDirectory root) r.url r.branch >>= fun _ =>
        syncAll hosts root rest) := rfl
  rw [hunfold, on_bind] at h
  split at h
  · rename_i done t₁ hcall
    exact ⟨t₁, hcall, h⟩
  · cases h

/-- **What a run over remotes leaves**, by induction on the remotes: the layout is what carries over
from one turn to the next. -/
theorem completed_of_syncAll (h : Layout hosts shows root all place t)
    (hrest : ∀ s ∈ rest, s ∈ all) (hok : on (syncAll hosts root rest) t = (.ok (), t')) :
    Completed hosts shows root all place rest t t' := by
  induction rest generalizing t with
  | nil =>
    cases hok
    refine ⟨h, differsAt_refl ?_, List.forall_mem_nil _, ?_⟩
    · rintro _ ⟨_, hnone, -⟩
      cases hnone
    · exact iff_of_true (List.forall_mem_nil _) ⟨List.forall_mem_nil _, List.forall_mem_nil _⟩
  | cons r rest ih =>
    obtain ⟨hr, hrest⟩ := List.forall_mem_cons.mp hrest
    obtain ⟨t₁, hcall, hok⟩ := syncAll_cons_eq_ok hok
    have hends := ends_sync_of_ready (h.ready hr) r.branch
    rw [hcall] at hends
    obtain ⟨ht, hturn⟩ := hends
    have hafter := ih (h.turn hr ht hturn) hrest hok
    exact ⟨hafter.layout, differsAt_cons h hr hrest ht hturn hafter,
      sources_cons h hr hrest ht hturn hafter, served_cons h hr hrest ht hturn hafter⟩

/-- **A run that succeeds gives every remote a clone at its own commit exactly if the remotes
agree**, with each other and with the clones that were there before. What a clone comes from is
settled by those, or else by the first remote with its place. -/
theorem checkedOut_iff_agreeing (h : Layout hosts (t.remoteCommit? hosts) root remotes place t)
    (hok : on (syncAll hosts root remotes) t = (.ok (), t')) :
    ((∀ r ∈ remotes, ∃ commit, t'.remoteCommit? hosts r.url r.branch = some commit ∧
        t'.CheckedOut (r.cloneDirectory root) r.branch commit) ↔
      Agreeing (t.remoteCommit? hosts) place remotes t) ∧
    ∀ r ∈ remotes, ∃ origin head branches tracked, Source place remotes t (place r) origin ∧
      t'.at? (place r ++ [controlDirectory]) =
        some (.repository (.clone origin head branches tracked)) := by
  have hdone := completed_of_syncAll h (fun _ hr => hr) hok
  refine ⟨?_, hdone.sources⟩
  rw [← hdone.served]
  refine forall₂_congr fun r hr => ?_
  have hstands := h.stands t' hdone.differs r hr
  rw [h.urls r hr t' hdone.differs r.branch]
  constructor
  · rintro ⟨commit, hshows, top, origin, hlocate, hclone⟩
    rw [hstands.found _ _ hlocate] at hclone
    exact ⟨origin, commit, hshows, hclone⟩
  · rintro ⟨origin, commit, hshows, hclone⟩
    exact ⟨commit, hshows, place r, origin, hstands.there hclone.directory_there, hclone⟩

/-! ## Two remotes of one owner and name -/

/-- A clone of a repository on another machine, and a remote of the same owner and name. -/
def pairTree : FileTree :=
  ⟨.directory [("b", .directory [("o", .directory [("r", remoteAt secondCommit)])]),
    ("c", .directory [("o", .directory [("r", .directory [
      (controlDirectory, .repository (.clone hostedUrl "master"
        (SortedMap.empty.insert "master" firstCommit) ["a.essence"])),
      ("a.essence", .file "find x".toUTF8 newFileMode)])])])], [], List.forall_mem_nil _⟩

@[inherit_doc pairTree]
def firstRemote : Remote := ⟨hostedUrl, "master", ⟨"o", "r"⟩⟩

@[inherit_doc pairTree]
def secondRemote : Remote := ⟨"/b/o/r", "master", ⟨"o", "r"⟩⟩

theorem reached_pairTree : ∀ tops ∈ [[["c", "o", "r"]], [["c", "o", "r"], ["c", "o", "r"]]],
    ∀ url ∈ [hostedUrl, "/b/o/r"], ReachedWithout pairTree tops url := by
  have hsecond : ∀ tops ∈ [[["c", "o", "r"]], [["c", "o", "r"], ["c", "o", "r"]]],
      (pairTree.cleared tops).repositoryPlace? ⟨"/b/o/r"⟩ = some ["b", "o", "r"] := by
    decide +kernel
  intro tops htops
  refine List.forall_mem_cons.mpr ⟨?_, List.forall_mem_singleton.mpr ?_⟩
  · exact .inl (by decide +kernel)
  · exact .inr ⟨_, _, by decide +kernel, hsecond tops htops⟩

theorem placeBelow_pairTree : ∀ r ∈ [firstRemote, secondRemote],
    placeBelow ["c"] r = ["c", "o", "r"] := by
  decide +kernel

theorem layout_pairTree (hsub : ∀ r ∈ remotes, r ∈ [firstRemote, secondRemote])
    (htops : remotes.map (placeBelow ["c"]) ∈
      [[["c", "o", "r"]], [["c", "o", "r"], ["c", "o", "r"]]]) :
    Layout hosts (pairTree.remoteCommit? hosts) ⟨"c"⟩ remotes (placeBelow ["c"]) pairTree := by
  have hroot : pairTree.Plain ⟨"c"⟩ ["c"] := by
    refine plain_name (by decide +kernel) (fun target hlink => ?_) (fun target hlink => ?_)
    · cases hlink
    · cases hlink
  have hreached := reached_pairTree _ htops
  have hboth : ∀ r ∈ [firstRemote, secondRemote], r.repository = ⟨"o", "r"⟩ ∧
      r.url ∈ [hostedUrl, "/b/o/r"] := by decide +kernel
  have hname : ∀ r ∈ remotes, r.repository = ⟨"o", "r"⟩ := fun r hr => (hboth r (hsub r hr)).1
  have howner : Text.toBytes "o" = "o" := Text.toBytes_of_ascii (by decide)
  have hplace : ∀ r ∈ remotes, placeBelow ["c"] r = ["c", "o", "r"] :=
    fun r hr => placeBelow_pairTree r (hsub r hr)
  refine layout_of_names hroot (fun r hr => ?_) (fun r hr target hlink => ?_)
    (fun r hr target hlink => ?_) (fun r hr target hlink => ?_) (fun r hr data hdata => ?_)
    (fun r hr => hreached r.url (hboth r (hsub r hr)).2)
    (fun r hr origin head branches tracked hcontrol => ?_)
  · rw [hname r hr]
    decide +kernel
  · rw [hname r hr, howner] at hlink
    cases hlink
  · rw [hplace r hr] at hlink
    cases hlink
  · rw [hplace r hr] at hlink
    cases hlink
  · rw [hplace r hr] at hdata
    cases hdata
  · rw [hplace r hr] at hcontrol
    cases hcontrol
    exact hreached _ (List.mem_cons_self ..)

theorem hasFiles_pairTree : pairTree.HasFiles ["c", "o", "r"] firstCommit.files.get? := by
  intro file content hfile
  have hget : (SortedMap.empty.insert "a.essence" "find x").get? file = some content := hfile
  rw [SortedMap.get?_insert] at hget
  split at hget
  · rename_i hname
    have hnames : fileNames "a.essence" = ["a.essence"] := by decide +kernel
    rw [← hname, hnames, ← Option.some.inj hget]
    exact ⟨newFileMode, rfl⟩
  · cases hget

/-- A remote that finds a clone of its own keeps it, one that finds the clone of another remote goes
without, and so does one of two that share a place. -/
theorem checkedOut_pairTree :
    (∃ t', on (syncAll (hostsAt firstCommit) ⟨"c"⟩ [firstRemote]) pairTree = (.ok (), t') ∧
      ∀ r ∈ [firstRemote], ∃ commit,
        t'.remoteCommit? (hostsAt firstCommit) r.url r.branch = some commit ∧
        t'.CheckedOut (r.cloneDirectory ⟨"c"⟩) r.branch commit) ∧
    (∃ t', on (syncAll (hostsAt firstCommit) ⟨"c"⟩ [secondRemote]) pairTree = (.ok (), t') ∧
      ¬ ∀ r ∈ [secondRemote], ∃ commit,
        t'.remoteCommit? (hostsAt firstCommit) r.url r.branch = some commit ∧
        t'.CheckedOut (r.cloneDirectory ⟨"c"⟩) r.branch commit) ∧
    ∃ t', on (syncAll (hostsAt firstCommit) ⟨"c"⟩ [firstRemote, secondRemote]) pairTree =
        (.ok (), t') ∧
      ¬ ∀ r ∈ [firstRemote, secondRemote], ∃ commit,
        t'.remoteCommit? (hostsAt firstCommit) r.url r.branch = some commit ∧
        t'.CheckedOut (r.cloneDirectory ⟨"c"⟩) r.branch commit := by
  have hdiffer : pairTree.remoteCommit? (hostsAt firstCommit) hostedUrl "master" ≠
      pairTree.remoteCommit? (hostsAt firstCommit) "/b/o/r" "master" := by decide +kernel
  refine ⟨?_, ?_, ?_⟩
  · have hrun : on (syncAll (hostsAt firstCommit) ⟨"c"⟩ [firstRemote]) pairTree = _ :=
      on_eq_of_toOption (by decide +kernel)
    have hlayout : Layout (hostsAt firstCommit) _ ⟨"c"⟩ [firstRemote] (placeBelow ["c"]) pairTree :=
      layout_pairTree (by decide) (by decide +kernel)
    refine ⟨_, hrun, (checkedOut_iff_agreeing hlayout hrun).1.mpr ⟨?_, ?_⟩⟩
    · rintro r hr s hs -
      rw [List.mem_singleton.mp hr, List.mem_singleton.mp hs]
      exact ⟨rfl, rfl⟩
    · refine List.forall_mem_singleton.mpr fun origin head branches tracked hcontrol => ?_
      rw [placeBelow_pairTree firstRemote (by decide)] at hcontrol ⊢
      cases hcontrol
      refine ⟨rfl, fun commit _ hbranch _ => ?_⟩
      have hcommit : firstCommit = commit := Option.some.inj hbranch
      subst hcommit
      exact hasFiles_pairTree
  · have hrun : on (syncAll (hostsAt firstCommit) ⟨"c"⟩ [secondRemote]) pairTree = _ :=
      on_eq_of_toOption (by decide +kernel)
    have hlayout : Layout (hostsAt firstCommit) _ ⟨"c"⟩ [secondRemote] (placeBelow ["c"]) pairTree :=
      layout_pairTree (by decide) (by decide +kernel)
    refine ⟨_, hrun, fun hall => ?_⟩
    have hagree := (checkedOut_iff_agreeing hlayout hrun).1.mp hall
    have hfits := hagree.fits secondRemote (List.mem_cons_self ..)
    rw [placeBelow_pairTree secondRemote (by decide)] at hfits
    exact hdiffer (hfits _ _ _ _ rfl).1
  · have hrun : on (syncAll (hostsAt firstCommit) ⟨"c"⟩ [firstRemote, secondRemote]) pairTree = _ :=
      on_eq_of_toOption (by decide +kernel)
    have hlayout : Layout (hostsAt firstCommit) _ ⟨"c"⟩ [firstRemote, secondRemote]
        (placeBelow ["c"]) pairTree :=
      layout_pairTree (fun r hr => hr) (by decide +kernel)
    refine ⟨_, hrun, fun hall => ?_⟩
    have hagree := (checkedOut_iff_agreeing hlayout hrun).1.mp hall
    exact hdiffer (hagree.shared firstRemote (by decide) secondRemote (by decide) rfl).2

end Remote

end KeywordCensus
