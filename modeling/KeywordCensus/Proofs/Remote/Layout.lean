import KeywordCensus.Proofs.Remote.Turn

/-!
# Where the clones of remotes lie

The clones of remotes are laid out well (`Remote.Layout`) if each directory stands for one place, no
place lies below another one, and what the urls show does not depend on what stands at the places. A
call for one of the remotes keeps the layout (`Remote.Layout.turn`). Below a plain directory, owners
and names that can be names of entries make a layout (`Remote.layout_of_names`); those that are read
from urls can, unless they are empty or steps (`Remote.isName_of_ofUrl`).
-/

namespace KeywordCensus

namespace Remote

open FileTree FileAction

variable {t t' : FileTree} {shows : String → String → Option Commit} {url : String} {root : Path}
  {all remotes : List Remote} {place : Remote → Location} {r s : Remote} {hosts : Hosts}

/-! ## Where the clones lie -/

/-- The places of the clones of some remotes. -/
def Places (remotes : List Remote) (place : Remote → Location) (top : Location) : Prop :=
  ∃ r ∈ remotes, place r = top

/-- Does what a url shows not depend on what stands at certain places? -/
def Shown (hosts : Hosts) (shows : String → String → Option Commit) (t : FileTree)
    (places : Location → Prop) (url : String) : Prop :=
  ∀ t', t.DiffersAt places t' → ∀ branch, t'.remoteCommit? hosts url branch = shows url branch

/-- Where the clones of remotes lie: each directory stands for one place, whatever stands at the
places; no place lies below another one; and what is cloned does not lie at the places. Nothing
there is taken for a control directory but one of that name. -/
structure Layout (hosts : Hosts) (shows : String → String → Option Commit) (root : Path)
    (remotes : List Remote) (place : Remote → Location) (t : FileTree) : Prop where
  stands : ∀ t', t.DiffersAt (Places remotes place) t' → ∀ r ∈ remotes,
    t'.Stands (r.cloneDirectory root) (place r)
  apart : ∀ r ∈ remotes, ∀ s ∈ remotes, place r <+: place s → place r = place s
  urls : ∀ r ∈ remotes, Shown hosts shows t (Places remotes place) r.url
  origins : ∀ r ∈ remotes, ∀ origin head branches tracked,
    t.at? (place r ++ [controlDirectory]) =
      some (.repository (.clone origin head branches tracked)) →
    Shown hosts shows t (Places remotes place) origin
  unlinked : ∀ r ∈ remotes, ∀ target, t.at? (place r) ≠ some (.link target)
  control : ∀ r ∈ remotes, ∀ target, t.at? (place r ++ [controlDirectory]) ≠ some (.link target)
  proper : ∀ r ∈ remotes, ∀ data, t.at? (place r) ≠ some (.repository data)

section Layout

variable (h : Layout hosts shows root all place t) (hr : r ∈ all)

include h

theorem Layout.differsAt : t.DiffersAt (Places all place) t := by
  refine differsAt_refl ?_
  rintro _ ⟨s, hs, rfl⟩
  exact h.unlinked s hs

theorem Layout.shown (hr : r ∈ all) :
    t.remoteCommit? hosts r.url r.branch = shows r.url r.branch :=
  h.urls r hr t h.differsAt r.branch

/-- Places that are not the same are apart. -/
theorem Layout.apart_of_ne (hr : r ∈ all) (hs : s ∈ all) (hne : place r ≠ place s) :
    ¬ place r <+: place s ∧ ¬ place s <+: place r :=
  ⟨fun hbelow => hne (h.apart r hr s hs hbelow), fun hbelow => hne (h.apart s hs r hr hbelow).symm⟩

include hr

/-- A difference at one of the places is one at the places. -/
theorem Layout.widen (ht : t.DiffersAt (· = place r) t') : t.DiffersAt (Places all place) t' := by
  refine h.differsAt.trans_at ⟨r, hr, rfl⟩ ?_ ht
  rintro _ ⟨s, hs, rfl⟩ hbelow
  exact h.apart r hr s hs hbelow

theorem Layout.ready : Ready hosts t (r.cloneDirectory root) (place r) r.url := by
  refine ⟨fun t' ht => h.stands t' (h.widen hr ht) r hr, fun t' ht branch => ?_, h.unlinked r hr,
    h.control r hr, h.proper r hr⟩
  rw [h.urls r hr t' (h.widen hr ht) branch, h.urls r hr t h.differsAt branch]

theorem Layout.origin {origin head : String} {branches : SortedMap Commit}
    {tracked : List String} (hcontrol : t.at? (place r ++ [controlDirectory]) =
      some (.repository (.clone origin head branches tracked))) :
    t.remoteCommit? hosts origin r.branch = shows origin r.branch :=
  h.origins r hr origin head branches tracked hcontrol t h.differsAt r.branch

/-- **A turn keeps the layout.** -/
theorem Layout.turn (ht : t.DiffersAt (· = place r) t')
    (hturn : Turn hosts t (place r) r.url r.branch t') : Layout hosts shows root all place t' := by
  have hwide := h.widen hr ht
  obtain ⟨origin, branches, tracked, commit, hclone, -, -, hfrom⟩ :=
    hturn.clone (h.shown hr) fun _ _ _ _ => h.origin hr
  have hother : ∀ s ∈ all, place s ≠ place r → ∀ top, top = place r →
      ¬ top <+: place s ∧ ¬ place s <+: top := by
    rintro s hs hne _ rfl
    exact h.apart_of_ne hr hs (Ne.symm hne)
  have hshown : ∀ {url}, Shown hosts shows t (Places all place) url →
      Shown hosts shows t' (Places all place) url := fun hurl t'' ht' => hurl t'' (hwide.trans ht')
  refine ⟨fun t'' ht' => h.stands t'' (hwide.trans ht'), h.apart, fun s hs => hshown (h.urls s hs),
    ?_, fun s hs => hwide.unlinked _ ⟨s, hs, rfl⟩, ?_, ?_⟩
  · -- The clone at the place has the origin of the clone before, or is made from the url.
    intro s hs origin' head' branches' tracked' hcontrol
    by_cases hsame : place s = place r
    · rw [hsame, hclone] at hcontrol
      cases hcontrol
      rcases hfrom with ⟨head, branches, tracked, hbefore⟩ | ⟨-, rfl⟩
      · exact hshown (h.origins r hr _ _ _ _ hbefore)
      · exact hshown (h.urls r hr)
    · exact hshown (h.origins s hs _ _ _ _
        ((control_iff_of_apart ht (hother s hs hsame) _).mp hcontrol))
  · intro s hs target hlink
    by_cases hsame : place s = place r
    · rw [hsame, hclone] at hlink
      cases hlink
    · have hne : (Node.link target).shell ≠ .directory [] := Node.link_ne_directory
      exact h.control s hs target ((at?_iff_of_apart ht (hother s hs hsame) _ hne).mp hlink)
  · intro s hs data hdata
    by_cases hsame : place s = place r
    · have htop := directory_of_control hclone
      rw [← hsame, shell?, hdata] at htop
      cases htop
    · have hne : (Node.repository data).shell ≠ .directory [] := Node.repository_ne_directory
      have hiff := at?_iff_of_apart ht (hother s hs hsame) [] hne
      rw [List.append_nil] at hiff
      exact h.proper s hs data (hiff.mp hdata)

end Layout

/-! ## Clones below a plain directory -/

/-- The place of a clone below another place, by the names that its remote has. -/
def placeBelow (base : Location) (r : Remote) : Location :=
  base ++ [Text.toBytes r.repository.owner, Text.toBytes r.repository.name]

/-- Clone places are apart: one lies on the way to another only if they are the same. -/
theorem placeBelow_apart {base : Location} (h : placeBelow base r <+: placeBelow base s) :
    placeBelow base r = placeBelow base s := by
  refine h.eq_of_length ?_
  rw [placeBelow, placeBelow, List.length_append, List.length_append]
  rfl

/-- A clone directory below a plain root is plain when no link stands at its two names. -/
theorem plain_cloneDirectory {base : Location} (hroot : t.Plain root base)
    (howner : Path.IsName r.repository.owner) (hname : Path.IsName r.repository.name)
    (hlink : ∀ target,
      t.at? (base ++ [Text.toBytes r.repository.owner]) ≠ some (.link target))
    (hunlinked : ∀ target, t.at? (placeBelow base r) ≠ some (.link target)) :
    t.Plain (r.cloneDirectory root) (placeBelow base r) := by
  have houter := hroot.child (Path.isName_toBytes.mpr howner) fun target h =>
    hlink target (at?_of_shell? h Node.link_ne_directory)
  have hplace : placeBelow base r =
      base ++ [Text.toBytes r.repository.owner] ++ [Text.toBytes r.repository.name] := by
    rw [placeBelow, List.append_assoc]
    rfl
  rw [hplace] at hunlinked ⊢
  exact houter.child (Path.isName_toBytes.mpr hname) fun target h =>
    hunlinked target (at?_of_shell? h Node.link_ne_directory)

theorem placeBelow_ne_nil {base : Location} : placeBelow base r ≠ [] :=
  List.append_ne_nil_of_right_ne_nil _ (List.cons_ne_nil _ _)

/-- Is the repository of a url on another machine, or reached without what stands at some places? -/
def ReachedWithout (t : FileTree) (tops : List Location) (url : String) : Prop :=
  localPath? url = none ∨
    ∃ p found, localPath? url = some p ∧ (t.cleared tops).repositoryPlace? p = some found

/-- A url that is reached without the places shows the same whatever is done to them. -/
theorem shown_of_reached {tops : List Location} {places : Location → Prop}
    (h : ReachedWithout t tops url) (hself : t.DiffersAt places t)
    (hplaces : ∀ top, places top → top ∈ tops) (htops : ∀ top ∈ tops, top ≠ []) :
    Shown hosts (t.remoteCommit? hosts) t places url := by
  intro t' ht branch
  rcases h with hhost | ⟨p, found, hp, hfound⟩
  · rw [remoteCommit?_of_host hhost, remoteCommit?_of_host hhost]
  rw [remoteCommit?_of_extends (extends_of_cleared ht hplaces htops) hp hfound,
    remoteCommit?_of_extends (extends_of_cleared hself hplaces htops) hp hfound]

/-- **Remotes whose owners and names are names of entries have their clones apart**, below a plain
directory without links, if the clones are not made from each other. -/
theorem layout_of_names {base : Location} (hroot : t.Plain root base)
    (hnames : ∀ r ∈ remotes, Path.IsName r.repository.owner ∧ Path.IsName r.repository.name)
    (howners : ∀ r ∈ remotes, ∀ target,
      t.at? (base ++ [Text.toBytes r.repository.owner]) ≠ some (.link target))
    (hunlinked : ∀ r ∈ remotes, ∀ target, t.at? (placeBelow base r) ≠ some (.link target))
    (hcontrol : ∀ r ∈ remotes, ∀ target,
      t.at? (placeBelow base r ++ [controlDirectory]) ≠ some (.link target))
    (hproper : ∀ r ∈ remotes, ∀ data, t.at? (placeBelow base r) ≠ some (.repository data))
    (hurls : ∀ r ∈ remotes, ReachedWithout t (remotes.map (placeBelow base)) r.url)
    (horigins : ∀ r ∈ remotes, ∀ origin head branches tracked,
      t.at? (placeBelow base r ++ [controlDirectory]) =
        some (.repository (.clone origin head branches tracked)) →
      ReachedWithout t (remotes.map (placeBelow base)) origin) :
    Layout hosts (t.remoteCommit? hosts) root remotes (placeBelow base) t := by
  have hself : t.DiffersAt (Places remotes (placeBelow base)) t := by
    refine differsAt_refl ?_
    rintro _ ⟨r, hr, rfl⟩
    exact hunlinked r hr
  have hplaces : ∀ top, Places remotes (placeBelow base) top →
      top ∈ remotes.map (placeBelow base) := by
    rintro _ ⟨r, hr, rfl⟩
    exact List.mem_map_of_mem hr
  have htops : ∀ top ∈ remotes.map (placeBelow base), top ≠ [] := by
    intro top htop
    obtain ⟨r, -, rfl⟩ := List.mem_map.mp htop
    exact placeBelow_ne_nil
  have hshown : ∀ {url}, ReachedWithout t (remotes.map (placeBelow base)) url →
      Shown hosts (t.remoteCommit? hosts) t (Places remotes (placeBelow base)) url :=
    fun h => shown_of_reached h hself hplaces htops
  refine ⟨fun t' ht r hr => ?_, fun r _ s _ => placeBelow_apart, fun r hr => hshown (hurls r hr),
    fun r hr origin head branches tracked h =>
      hshown (horigins r hr origin head branches tracked h),
    hunlinked, hcontrol, hproper⟩
  have hplain := plain_cloneDirectory hroot (hnames r hr).1 (hnames r hr).2 (howners r hr)
    (hunlinked r hr)
  refine (ht.plain hplain ⟨r, hr, rfl⟩ ?_).stands
  rintro _ ⟨s, hs, rfl⟩ hbelow
  exact placeBelow_apart hbelow

/-! ## Names that are read from urls -/

theorem mem_of_pick? {segments : List (List Char)} {hasHost : Bool} {owner name : List Char}
    (h : RepositoryName.pick? segments hasHost = some (owner, name)) :
    owner ∈ segments ∧ name ∈ segments := by
  unfold RepositoryName.pick? at h
  split at h
  · split at h
    · cases h
      exact ⟨List.mem_cons_self .., List.mem_cons_of_mem _ (List.mem_cons_self ..)⟩
    · cases h
  · split at h
    · rename_i hreversed
      cases h
      have hmem : ∀ segment, segment ∈ segments.reverse → segment ∈ segments :=
        fun _ => List.mem_reverse.mp
      rw [hreversed] at hmem
      exact ⟨hmem _ (List.mem_cons_of_mem _ (List.mem_cons_self ..)),
        hmem _ (List.mem_cons_self ..)⟩
    · cases h

theorem not_mem_dropSuffix {c : Char} {name : List Char} (h : c ∉ name) :
    c ∉ RepositoryName.dropSuffix name := by
  rw [RepositoryName.dropSuffix, Text.beforeEnd?]
  split
  · exact fun hmem => h (List.mem_of_mem_take hmem)
  · exact h

/-- What is read from a url has no slashes, and there is an owner. -/
theorem parts_of_ofUrl {found : RepositoryName} (h : RepositoryName.ofUrl url = .ok found) :
    found.owner ≠ "" ∧ '/' ∉ found.owner.toList ∧ '/' ∉ found.name.toList := by
  rw [RepositoryName.ofUrl] at h
  dsimp only at h
  split at h
  · rename_i owner name hpick
    obtain ⟨hinOwner, hinName⟩ := mem_of_pick? hpick
    obtain ⟨hsplit, hne⟩ := List.mem_filter.mp hinOwner
    have hslash := Text.not_mem_of_mem_splitOn owner hsplit
    have hslash' := Text.not_mem_of_mem_splitOn name (List.mem_filter.mp hinName).1
    cases h
    refine ⟨?_, ?_, ?_⟩
    · exact fun hempty => of_decide_eq_true hne (String.ofList_eq_empty_iff.mp hempty)
    · rw [String.toList_ofList]
      exact hslash
    · rw [String.toList_ofList]
      exact not_mem_dropSuffix hslash'
  · cases h

/-- **The owner and the name that are read from a url are names of entries**, unless they are steps
or the name is nothing but the suffix. -/
theorem isName_of_ofUrl {found : RepositoryName} (h : RepositoryName.ofUrl url = .ok found)
    (howner : found.owner ≠ "." ∧ found.owner ≠ "..")
    (hname : found.name ≠ "" ∧ found.name ≠ "." ∧ found.name ≠ "..") :
    Path.IsName found.owner ∧ Path.IsName found.name := by
  obtain ⟨hempty, hslash, hslash'⟩ := parts_of_ofUrl h
  exact ⟨⟨hempty, howner.1, howner.2, hslash⟩, hname.1, hname.2.1, hname.2.2, hslash'⟩

end Remote

end KeywordCensus
