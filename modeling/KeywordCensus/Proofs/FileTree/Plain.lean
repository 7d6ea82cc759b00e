import KeywordCensus.FileTree.Edit
import KeywordCensus.Proofs.FileTree.Following

/-!
# Plain paths

A path is plain if it is followed by names alone: no link stands on its way, and none of its steps
goes up (`FileTree.Plain`). A plain path stands for its place in every sense: whatever finds
something at the path finds it at the place (`FileTree.Stands`).
-/

namespace KeywordCensus

namespace FileTree

variable {t t' : FileTree} {p : Path} {place found : Location} {name : String}

/-- A path that is followed by names alone: no link stands on its way, and none of its steps goes
up. -/
structure Plain (t : FileTree) (p : Path) (place : Location) : Prop where
  text : p.text ≠ ""
  names : ∀ name ∈ p.segments, Path.IsName name
  ends : startIn t.workDir p ++ p.segments = place
  links : ∀ names, names <+: p.segments → ∀ target,
    t.shell? (startIn t.workDir p ++ names) ≠ some (.link target)

/-- Does a path stand for a place? Whatever is found at the path stands at the place, the last name
of the path is its entry there, and a directory at the place is found. -/
structure Stands (t : FileTree) (p : Path) (place : Location) : Prop where
  text : p.text ≠ ""
  found : ∀ followLast found, t.locate p followLast = .ok found → found = place
  entry : ∀ outer name, t.parentPlace p = .ok (outer, some name) → isStep name = false →
    outer ++ [name] = place
  there : t.shell? place = some (.directory []) → t.locate p true = .ok place

/-- Removing things and making directories puts no link on the way. -/
theorem Plain.clears (h : t.Plain p place) (ht : t.ClearsTo t') : t'.Plain p place := by
  refine ⟨h.text, h.names, ?_, fun names hnames target hlink => ?_⟩
  · rw [ht.workDir]
    exact h.ends
  · rw [ht.workDir] at hlink
    exact h.links names hnames target (ht.known _ _ hlink Node.link_ne_directory)

/-- A name in the working directory is a plain path. -/
theorem plain_name (hname : Path.IsName name)
    (hstart : ∀ target, t.shell? t.workDir ≠ some (.link target))
    (hlink : ∀ target, t.shell? (t.workDir ++ [name]) ≠ some (.link target)) :
    t.Plain ⟨name⟩ (t.workDir ++ [name]) := by
  have hsegments : (Path.mk name).segments = [name] := Path.splitOn_name hname
  have hstartIn : startIn t.workDir ⟨name⟩ = t.workDir := by
    have habsolute : ¬ (Path.mk name).isAbsolute = true := fun h =>
      hname.2.2.2 (List.mem_of_mem_head? (of_decide_eq_true h))
    exact if_neg habsolute
  refine ⟨hname.1, ?_, ?_, fun names hnames target => ?_⟩
  · rw [hsegments]
    exact List.forall_mem_singleton.mpr hname
  · rw [hstartIn, hsegments]
  · rw [hsegments] at hnames
    rw [hstartIn]
    rcases List.prefix_cons_iff.mp hnames with rfl | ⟨rest, rfl, hrest⟩
    · rw [List.append_nil]
      exact hstart target
    · rw [List.prefix_nil.mp hrest]
      exact hlink target

/-- An entry of what a plain path leads to has a plain path. -/
theorem Plain.child (h : t.Plain p place) (hname : Path.IsName name)
    (hlink : ∀ target, t.shell? (place ++ [name]) ≠ some (.link target)) :
    t.Plain (p.child name) (place ++ [name]) := by
  have hsegments := Path.segments_child h.text hname
  have hstartIn : startIn t.workDir (p.child name) = startIn t.workDir p := by
    rw [startIn, Path.isAbsolute_child h.text hname.2.2.2]
    rfl
  refine ⟨Path.text_child_ne h.text hname.2.2.2, ?_, ?_, fun names hnames target => ?_⟩
  · rw [hsegments]
    intro other hother
    rcases List.mem_append.mp hother with hother | hother
    · exact h.names other hother
    · rw [List.mem_singleton.mp hother]
      exact hname
  · rw [hstartIn, hsegments, ← List.append_assoc, h.ends]
  · rw [hstartIn]
    rw [hsegments] at hnames
    rcases List.prefix_concat_iff.mp hnames with rfl | hnames
    · rw [← List.append_assoc, h.ends]
      exact hlink target
    · exact h.links names hnames target

/-- Names without links lead straight down, whether or not a last link would be followed. -/
theorem followFrom_names {followLast : Bool}
    {onLink : Location → List String → Except IoError Target} {start : Location}
    {names dots : List String} (hdots : dots = [] ∨ dots = [""] ∨ dots = ["."])
    (hnames : ∀ name ∈ names, Path.IsName name)
    (hlinks : ∀ first, first <+: names → ∀ target,
      t.shell? (start ++ first) ≠ some (.link target))
    (h : t.followFrom followLast onLink start (names ++ dots) = .ok (.present found)) :
    found = start ++ names := by
  induction names generalizing start with
  | nil =>
    rw [List.append_nil]
    -- A slash at the end, or a step to the current directory, leads to where one is already.
    rcases hdots with rfl | rfl | rfl
    · rw [List.append_nil, followFrom] at h
      cases h
      rfl
    · rw [List.nil_append, followFrom] at h
      split at h
      · cases h
      split at h
      · cases h
      rw [if_pos rfl, followFrom] at h
      cases h
      rfl
    · rw [List.nil_append, followFrom] at h
      split at h
      · cases h
      split at h
      · cases h
      rw [if_neg (by decide)] at h
      split at h
      · cases h
      rw [if_pos rfl, followFrom] at h
      cases h
      rfl
  | cons name rest ih =>
    obtain ⟨hname, hrest⟩ := List.forall_mem_cons.mp hnames
    rw [List.cons_append, followFrom] at h
    split at h
    · cases h
    rename_i here hhere
    split at h
    · cases h
    rw [if_neg hname.1] at h
    split at h
    · cases h
    rw [if_neg hname.2.1, if_neg hname.2.2.1] at h
    split at h
    · split at h <;> cases h
    · -- No link stands on the way.
      rename_i target htarget
      refine absurd ?_ (hlinks [name] ⟨rest, rfl⟩ target)
      rw [shell?, at?_concat, hhere]
      exact congrArg (Option.map Node.shell) htarget
    · have hfound := ih hrest (fun names hbelow target => by
        rw [List.append_assoc]
        exact hlinks (name :: names) ((List.prefix_cons_inj name).mpr hbelow) target) h
      rw [hfound, List.append_assoc]
      rfl

/-- Names lead down to what is no link. -/
theorem follows_names {k : Nat} {start : Location} {names : List String} {node : Node}
    (hnames : ∀ name ∈ names, Path.IsName name) (h : t.shell? (start ++ names) = some node)
    (hnotlink : ∀ target, node ≠ .link target) : t.Follows (k + 1) start names (start ++ names) := by
  induction names generalizing start with
  | nil =>
    rw [List.append_nil]
    exact .done k start
  | cons name rest ih =>
    obtain ⟨hname, hrest⟩ := List.forall_mem_cons.mp hnames
    rw [List.append_cons] at h ⊢
    cases rest with
    | nil =>
      rw [List.append_nil] at h ⊢
      exact .down (isEntry_of_isName hname) h hnotlink (.done k _)
    | cons next rest =>
      have hdirectory := directory_above (List.prefix_append (start ++ [name]) (next :: rest))
        (fun heq => List.cons_ne_nil _ _ (List.append_right_eq_self.mp heq.symm))
        (at?_ne_none h)
      exact .down (isEntry_of_isName hname) hdirectory (fun _ => Node.directory_ne_link)
        (ih hrest h)

/-- **A plain path leads to its place or nowhere.** -/
theorem Plain.locate (h : t.Plain p place) {followLast : Bool}
    (hfound : t.locate p followLast = .ok found) : found = place := by
  have hempty : ¬ p.text.isEmpty = true := fun hempty => h.text (String.isEmpty_iff.mp hempty)
  have htrail : ∃ dots, p.trail = p.segments ++ dots ∧
      (dots = [] ∨ dots = [""] ∨ dots = ["."]) := by
    rw [Path.trail]
    split
    · exact ⟨[""], rfl, .inr (.inl rfl)⟩
    · exact ⟨[], (List.append_nil _).symm, .inl rfl⟩
  obtain ⟨dots, htrail, hdots⟩ := htrail
  rw [FileTree.locate, resolve, if_neg hempty, htrail] at hfound
  split at hfound
  · rename_i other hother
    cases hfound
    rw [← h.ends]
    exact followFrom_names hdots h.names h.links hother
  · cases hfound
  · cases hfound

/-- The last name of a plain path is the entry at its place. -/
theorem Plain.parentPlace (h : t.Plain p place) {outer : Location} {name : String}
    (hparent : t.parentPlace p = .ok (outer, some name)) : outer ++ [name] = place := by
  have hempty : ¬ p.text.isEmpty = true := fun hempty => h.text (String.isEmpty_iff.mp hempty)
  rw [FileTree.parentPlace, parentPlaceIn, if_neg hempty] at hparent
  split at hparent
  · cases hparent
  rename_i last before hreversed
  have hsegments : p.segments = before.reverse ++ [last] := by
    rw [← List.reverse_reverse p.segments, hreversed, List.reverse_cons]
  split at hparent
  · rename_i found hfound
    cases hparent
    have hbefore := followFrom_names (.inr (.inr rfl))
      (fun name hname => h.names name (by rw [hsegments]; exact List.mem_append_left _ hname))
      (fun names hbelow => h.links names (by
        rw [hsegments]
        exact hbelow.trans (List.prefix_append _ _))) hfound
    rw [← h.ends, hsegments, hbefore, List.append_assoc]
  · cases hparent
  · cases hparent

/-- **A plain path stands for its place.** -/
theorem Plain.stands (h : t.Plain p place) : t.Stands p place := by
  refine ⟨h.text, fun _ _ => h.locate, fun _ _ hparent _ => h.parentPlace hparent, fun hplace => ?_⟩
  refine locate_eq_ok.mpr ⟨h.text, ?_⟩
  have hfollows : t.Follows (linkLimit + 1) (startIn t.workDir p) p.segments place := by
    rw [← h.ends] at hplace ⊢
    exact follows_names h.names hplace fun _ => Node.directory_ne_link
  exact hfollows.trail_of_segments hplace rfl

end FileTree

end KeywordCensus
