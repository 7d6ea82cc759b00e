import Mathlib.Data.String.Basic
import KeywordCensus.Proofs.FileTree.Walking

/-!
# The order of a walk

A walk lists what it finds in the order of the names that lead there, compared name by name
(`Node.pairwise_walk`). So the files that are found below a directory stand in this order, and the
first one is the one with the least names (`FileTree.head?_filesBelow`).
-/

namespace KeywordCensus

namespace Path

variable {p q root : Path} {names others : List String}

/-- Different names lead to different paths. -/
theorem descend_inj (h : ∀ name ∈ names, IsName name) (h' : ∀ name ∈ others, IsName name)
    (heq : root.descend names = root.descend others) : names = others := by
  have hcomponents := congrArg components heq
  rw [components_descend root h, components_descend root h'] at hcomponents
  exact (List.map_inj_right fun _ _ => Component.name.inj).mp (List.append_cancel_left hcomponents)

/-- Do names lead down to one path that come before names that lead down to another one? -/
def Precedes (root p q : Path) : Prop :=
  ∃ names others, (∀ name ∈ names, IsName name) ∧ (∀ name ∈ others, IsName name) ∧
    p = root.descend names ∧ q = root.descend others ∧ names < others

/-- What an entry comes before, it comes before from the directory as well. -/
theorem Precedes.of_child {name : String} (hname : IsName name)
    (h : (root.child name).Precedes p q) : root.Precedes p q := by
  obtain ⟨names, others, hnames, hothers, rfl, rfl, hlt⟩ := h
  exact ⟨name :: names, name :: others, List.forall_mem_cons.mpr ⟨hname, hnames⟩,
    List.forall_mem_cons.mpr ⟨hname, hothers⟩, rfl, rfl, List.cons_lt_cons_iff.mpr (.inr ⟨rfl, hlt⟩)⟩

end Path

namespace Node

variable {node found : Node} {names : Location} {entries : List (String × Node)}

/-- What a walk finds in a node in order has a path by names of entries. -/
theorem named_of_mem_walk {path : Path} {e : WalkEntry} (hordered : node.Ordered)
    (h : e ∈ node.walk path) : ∃ names, (∀ name ∈ names, Path.IsName name) ∧
      e.path = path.descend names := by
  obtain ⟨names, kind, hlists, rfl⟩ := (mem_walk path e node).mp h
  exact ⟨names, hlists.named hordered, rfl⟩

/-- A directory comes before its entries: no names at all are less than some names. -/
theorem precedes_entry {name : String} (path : Path) (hname : Path.IsName name)
    (hnames : ∀ name ∈ names, Path.IsName name) :
    path.Precedes path (path.descend (name :: names)) :=
  ⟨[], name :: names, List.forall_mem_nil _, List.forall_mem_cons.mpr ⟨hname, hnames⟩, rfl, rfl,
    List.nil_lt_cons ..⟩

mutual

/-- **A walk lists what it finds in the order of the names that lead there.** -/
theorem pairwise_walk (path : Path) : ∀ node : Node, node.Ordered →
    (node.walk path).Pairwise fun a b => path.Precedes a.path b.path
  | .file bytes mode, _ => by
    rw [walk_file]
    exact List.pairwise_singleton ..
  | .link target, _ => by
    rw [walk_link]
    exact List.pairwise_singleton ..
  | .repository data, _ => by
    rw [walk_repository]
    exact List.pairwise_singleton ..
  | .closed false listed, _ => by
    rw [walk_unreadable]
    exact List.pairwise_singleton ..
  | .closed true listed, hordered => by
    rw [walk_readable, List.pairwise_cons, List.pairwise_map]
    cases hordered with
    | closed hincrease hnamed =>
      refine ⟨List.forall_mem_map.mpr fun e he =>
        precedes_entry path (hnamed e he) (List.forall_mem_nil _), ?_⟩
      -- Names of one directory differ in the first step.
      refine hincrease.imp_of_mem fun {e other} he hother hlt => ?_
      exact ⟨[e.1], [other.1], List.forall_mem_singleton.mpr (hnamed e he),
        List.forall_mem_singleton.mpr (hnamed other hother), rfl, rfl,
        List.cons_lt_cons_iff.mpr (.inl hlt)⟩
  | .directory entries, hordered => by
    rw [walk_directory, List.pairwise_cons]
    cases hordered with
    | directory hincrease hnamed hinner =>
      refine ⟨fun e he => ?_, pairwise_walkEntries path entries hincrease hnamed hinner⟩
      obtain ⟨name, child, names, kind, hmem, hlists, rfl⟩ :=
        (mem_walkEntries path e entries).mp he
      exact precedes_entry path (hnamed _ hmem) (hlists.named (hinner _ hmem))

/-- So do the entries of a directory, those of an entry before those of the next one. -/
theorem pairwise_walkEntries (path : Path) : ∀ entries : List (String × Node),
    KeysIncrease entries → (∀ e ∈ entries, Path.IsName e.1) → (∀ e ∈ entries, e.2.Ordered) →
    (walkEntries path entries).Pairwise fun a b => path.Precedes a.path b.path
  | [], _, _, _ => by
    rw [walkEntries_nil]
    exact List.Pairwise.nil
  | (name, child) :: rest, hincrease, hnamed, hinner => by
    obtain ⟨hless, hincrease⟩ := List.pairwise_cons.mp hincrease
    obtain ⟨hname, hnamed⟩ := List.forall_mem_cons.mp hnamed
    obtain ⟨hchild, hinner⟩ := List.forall_mem_cons.mp hinner
    rw [walkEntries_cons, List.pairwise_append]
    refine ⟨(pairwise_walk (path.child name) child hchild).imp fun h => h.of_child hname,
      pairwise_walkEntries path rest hincrease hnamed hinner, fun a ha b hb => ?_⟩
    -- What an entry holds comes before what a later entry holds, as its name does.
    obtain ⟨names, hnames, hpath⟩ := named_of_mem_walk hchild ha
    obtain ⟨other, inner, others, kind, hmem, hlists, rfl⟩ :=
      (mem_walkEntries path b rest).mp hb
    exact ⟨name :: names, other :: others, List.forall_mem_cons.mpr ⟨hname, hnames⟩,
      List.forall_mem_cons.mpr ⟨hnamed _ hmem, hlists.named (hinner _ hmem)⟩, hpath, rfl,
      List.cons_lt_cons_iff.mpr (.inl (hless _ hmem))⟩

end

end Node

namespace FileTree

variable {t : FileTree} {root p q : Path} {names others : Location} {wanted : Path → Bool}

/-- A walk that begins at a directory is in order, the directory being given by any path. -/
theorem pairwise_walk (hordered : t.root.Ordered) (hroot : t.isDirectory root = true) :
    (t.walk root).Pairwise fun a b => root.Precedes a.path b.path := by
  obtain ⟨top, node, htop, hnode, hdirectory⟩ := isDirectory_eq_true.mp hroot
  have hsorted := Node.pairwise_walk root node (hordered.at? hnode)
  obtain ⟨other, hother, rfl | ⟨target, hlink⟩⟩ := locate_false htop
  · rw [walk, visit, lookup_eq_ok.mpr ⟨other, hother, hnode⟩]
    cases node with
    | link => cases hdirectory
    | _ => exact hsorted
  · -- A root that is a link is listed as one in place of the directory.
    obtain ⟨rest, hrest⟩ := Node.visit_of_isDirectory root hdirectory
    rw [walk, visit, lookup_eq_ok.mpr ⟨other, hother, at?_of_shell? hlink Node.link_ne_directory⟩]
    simp only [lookup_eq_ok.mpr ⟨top, htop, hnode⟩, hdirectory, if_true, hrest, List.tail_cons]
    rw [Node.walk, hrest] at hsorted
    exact List.pairwise_cons.mpr (List.pairwise_cons.mp hsorted)

/-- **The files below a directory are found in the order of the names that lead there.** -/
theorem pairwise_filesBelow (hordered : t.root.Ordered) (hroot : t.isDirectory root = true) :
    (t.filesBelow root wanted).Pairwise root.Precedes :=
  List.pairwise_map.mpr ((pairwise_walk hordered hroot).sublist List.filter_sublist)

/-- The names that lead from a directory to a file are known from its path. -/
theorem Below.names_eq {t' : FileTree} (h : t.Below root p names) (h' : t'.Below root p others) :
    names = others :=
  Path.descend_inj h.named h'.named (h.spelled.symm.trans h'.spelled)

/-- Of two files below a directory, the names tell which one comes first. -/
theorem Below.lt_of_precedes (h : t.Below root p names) (h' : t.Below root q others)
    (hprecedes : root.Precedes p q) : names < others := by
  obtain ⟨first, second, hfirst, hsecond, hp, hq, hlt⟩ := hprecedes
  rw [Path.descend_inj h.named hfirst (h.spelled.symm.trans hp),
    Path.descend_inj h'.named hsecond (h'.spelled.symm.trans hq)]
  exact hlt

/-- The file with the least names is found first. -/
theorem head?_filesBelow (htidy : t.root.Tidy) (hroot : t.isDirectory root = true) :
    (t.filesBelow root wanted).head? = some p ↔ wanted p = true ∧ ∃ names, t.Below root p names ∧
      ∀ q others, t.Below root q others → wanted q = true → names ≤ others := by
  -- The head comes before all others in the order of the walk. The converse follows, as the least
  -- is unique.
  have hfirst {p : Path} (hhead : (t.filesBelow root wanted).head? = some p) :
      wanted p = true ∧ ∃ names, t.Below root p names ∧
        ∀ q others, t.Below root q others → wanted q = true → names ≤ others := by
    obtain ⟨hwanted, names, hbelow⟩ := (mem_filesBelow htidy hroot).mp (List.mem_of_mem_head? hhead)
    refine ⟨hwanted, names, hbelow, fun q others hother htest => ?_⟩
    have hmem := (mem_filesBelow htidy hroot).mpr ⟨htest, others, hother⟩
    obtain ⟨rest, hrest⟩ := List.head?_eq_some_iff.mp hhead
    have hordered : (t.filesBelow root wanted).Pairwise root.Precedes :=
      pairwise_filesBelow htidy.ordered hroot
    rw [hrest] at hmem hordered
    rcases List.mem_cons.mp hmem with rfl | hmem
    · rw [hbelow.names_eq hother]
    · exact (hbelow.lt_of_precedes hother ((List.pairwise_cons.mp hordered).1 _ hmem)).le
  refine ⟨hfirst, ?_⟩
  rintro ⟨hwanted, names, hbelow, hleast⟩
  have hmem := (mem_filesBelow htidy hroot).mpr ⟨hwanted, names, hbelow⟩
  cases hhead : (t.filesBelow root wanted).head? with
  | none =>
    rw [List.head?_eq_none_iff.mp hhead] at hmem
    cases hmem
  | some q =>
    obtain ⟨htest, others, hother, hleast'⟩ := hfirst hhead
    have hsame := le_antisymm (hleast q others hother htest) (hleast' p names hbelow hwanted)
    rw [hbelow.spelled, hother.spelled, hsame]

end FileTree

end KeywordCensus
