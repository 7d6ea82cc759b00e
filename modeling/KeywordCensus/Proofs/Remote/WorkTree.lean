import KeywordCensus.Proofs.FileTree.Growth
import KeywordCensus.Remote.Sync

/-!
# What stands in a work tree

A work tree holds the files of a commit if each of them is there with its content, and whatever
else is there only leads to one of them (`FileTree.Holds`). The control directory is left out of
account. Removing a file together with the directories that it leaves empty changes what is held by
that one file (`holds_removeTracked`), and touches nothing around the work tree.
-/

namespace KeywordCensus

/-- A way to a place below the top ends above the top or below it. -/
theorem prefix_append_cases {names top rest : Location} (h : names <+: top ++ rest) :
    names <+: top ∨ ∃ below, names = top ++ below ∧ below ≠ [] ∧ below <+: rest := by
  obtain ⟨more, hmore⟩ := h
  rcases List.append_eq_append_iff.mp hmore with ⟨middle, htop, -⟩ | ⟨below, hnames, hrest⟩
  · exact .inl ⟨middle, htop.symm⟩
  · by_cases hnil : below = []
    · rw [hnil, List.append_nil] at hnames
      exact .inl ⟨[], by rw [hnames, List.append_nil]⟩
    · exact .inr ⟨below, hnames, hnil, ⟨more, hrest.symm⟩⟩

namespace FileTree

variable {t t' t'' : FileTree} {top : Location} {files : String → Option String}
  {all : SortedMap String} {file content : String}

/-- Does a work tree hold certain files and nothing else? -/
structure Holds (t : FileTree) (top : Location) (files : String → Option String) : Prop where
  /-- The top directory is there. -/
  directory : t.shell? top = some (.directory [])
  /-- Each file is there. -/
  file : ∀ file content, files file = some content →
    t.at? (top ++ fileNames file) = some (.file content.toUTF8 newFileMode)
  /-- What is there, beside the control directory, is a file or leads to one. -/
  only : ∀ name rest, name ≠ controlDirectory → t.at? (top ++ name :: rest) ≠ none →
    ∃ file content, files file = some content ∧ name :: rest <+: fileNames file

/-- Does a place lie in a work tree, below its top directory? -/
def InWork (top place : Location) : Prop :=
  ∃ name rest, name ≠ controlDirectory ∧ place = top ++ name :: rest

/-- Is everything as before except what lies in a work tree? -/
structure KeepsAround (top : Location) (t t' : FileTree) : Prop where
  workDir : t'.workDir = t.workDir
  shell : ∀ place, ¬ InWork top place → t'.shell? place = t.shell? place

theorem keepsAround_refl (top : Location) (t : FileTree) : KeepsAround top t t :=
  ⟨rfl, fun _ _ => rfl⟩

theorem KeepsAround.trans (h : KeepsAround top t t') (h' : KeepsAround top t' t'') :
    KeepsAround top t t'' :=
  ⟨h'.workDir.trans h.workDir, fun place hplace =>
    (h'.shell place hplace).trans (h.shell place hplace)⟩

theorem not_inWork_top : ¬ InWork top top := by
  rintro ⟨name, rest, -, heq⟩
  have hlength := congrArg List.length heq
  rw [List.length_append, List.length_cons] at hlength
  omega

theorem not_inWork_control : ¬ InWork top (top ++ [controlDirectory]) := by
  rintro ⟨name, rest, hname, heq⟩
  exact hname (List.cons.inj (List.append_cancel_left heq)).1.symm

theorem KeepsAround.directory (h : KeepsAround top t t')
    (htop : t.shell? top = some (.directory [])) : t'.shell? top = some (.directory []) := by
  rw [h.shell top not_inWork_top]
  exact htop

theorem KeepsAround.control {data : Repository} (h : KeepsAround top t t')
    (hcontrol : t.at? (top ++ [controlDirectory]) = some (.repository data)) :
    t'.at? (top ++ [controlDirectory]) = some (.repository data) := by
  exact at?_of_shell?_eq (h.shell _ not_inWork_control) hcontrol Node.repository_ne_directory

theorem inWork_append {place : Location} (h : InWork top place) (rest : Location) :
    InWork top (place ++ rest) := by
  obtain ⟨name, more, hname, rfl⟩ := h
  exact ⟨name, more ++ rest, hname, by rw [List.append_assoc, List.cons_append]⟩

/-- A change at one place of the work tree keeps everything around. -/
theorem keepsAround_alter {change : Option Node → Option Node} {place : Location}
    (h : InWork top place) (t : FileTree) : KeepsAround top t (t.alter place change) := by
  refine ⟨rfl, fun other hother => shell?_alter ?_⟩
  rintro ⟨rest, rfl⟩
  exact hother (inWork_append h rest)

/-! ## The files of a record in one work tree -/

theorem fileNames_ne_nil (hfits : FitsWorkTree all) (hfile : file ∈ all.keys) :
    fileNames file ≠ [] := (hfits.1 file hfile).1

theorem ne_controlDirectory (hfits : FitsWorkTree all) (hfile : file ∈ all.keys) {name : String}
    (hname : name ∈ fileNames file) : name ≠ controlDirectory :=
  ((hfits.1 file hfile).2 name hname).2

/-- Every directory of a tracked file is in the work tree. -/
theorem inWork_file (hfits : FitsWorkTree all) (hfile : file ∈ all.keys) {names : Location}
    (hne : names ≠ []) (hnames : names <+: fileNames file) : InWork top (top ++ names) := by
  obtain ⟨name, rest, rfl⟩ := List.exists_cons_of_ne_nil hne
  exact ⟨name, rest, ne_controlDirectory hfits hfile
    (hnames.subset (List.mem_cons_self ..)), rfl⟩

/-- Everything in a work tree that holds certain files may be entered. -/
theorem Holds.not_closed (h : t.Holds top files) {names : Location}
    (hnames : ∀ name ∈ names, name ≠ controlDirectory) {readable : Bool}
    {listed : List (String × EntryKind)} : t.at? (top ++ names) ≠ some (.closed readable listed) := by
  intro hclosed
  have hshell : t.shell? (top ++ names) = some (.closed readable listed) := by
    rw [shell?, hclosed]
    rfl
  cases names with
  | nil =>
    rw [List.append_nil] at hshell
    cases h.directory.symm.trans hshell
  | cons name rest =>
    obtain ⟨file, content, hfile, hleads⟩ :=
      h.only name rest (hnames name List.mem_cons_self) (at?_ne_none hshell)
    have hat := h.file file content hfile
    by_cases hsame : name :: rest = fileNames file
    · rw [hsame, hat] at hclosed
      cases hclosed
    · -- What only leads to a file is a directory.
      have hdirectory := directory_above ((List.prefix_append_right_inj top).mpr hleads)
        (fun heq => hsame (List.append_cancel_left heq)) (by rw [hat]; exact Option.some_ne_none _)
      cases hdirectory.symm.trans hshell

/-- So every place of a file can be reached. -/
theorem Holds.canReach (h : t.Holds top files) (hfits : FitsWorkTree all)
    (hfile : file ∈ all.keys) : t.canReach top file = true := by
  refine List.all_eq_true.mpr fun n _ => ?_
  have hnames : ∀ name ∈ (fileNames file).take n, name ≠ controlDirectory :=
    fun name hname => ne_controlDirectory hfits hfile (List.mem_of_mem_take hname)
  split
  · rename_i hclosed
    exact absurd hclosed (h.not_closed hnames)
  · rfl

theorem fileNames_eq_concat (hfits : FitsWorkTree all) (hfile : file ∈ all.keys) :
    ∃ outer last, fileNames file = outer ++ [last] := by
  rcases List.eq_nil_or_concat (fileNames file) with hnil | ⟨outer, last, hnames⟩
  · exact absurd hnil (fileNames_ne_nil hfits hfile)
  · exact ⟨outer, last, hnames.trans (List.concat_eq_append ..)⟩

/-- Nothing stands where a file of the record belongs that is not held. -/
theorem Holds.absent (h : t.Holds top files) (hfits : FitsWorkTree all)
    (hknown : ∀ f content, files f = some content → f ∈ all.keys) (hfile : file ∈ all.keys)
    (hnone : files file = none) : t.at? (top ++ fileNames file) = none := by
  refine Classical.byContradiction fun hsome => ?_
  obtain ⟨name, rest, hnames⟩ := List.exists_cons_of_ne_nil (fileNames_ne_nil hfits hfile)
  have hname : name ≠ controlDirectory := by
    refine ne_controlDirectory hfits hfile ?_
    rw [hnames]
    exact List.mem_cons_self ..
  rw [hnames] at hsome
  obtain ⟨f, content, hf, hbelow⟩ := h.only name rest hname hsome
  rw [← hnames] at hbelow
  -- What stands there leads to a file that is held, and that can only be the file itself.
  have heq : file = f := hfits.2 file hfile f (hknown f content hf) hbelow
  rw [← heq, hnone] at hf
  cases hf

/-! ## Removing a file -/

/-- Pruning empty directories keeps everything around: the induction goes up the names of the file.
-/
theorem keepsAround_pruneEmpty (reversed : List String)
    (hwork : ∀ names, names ≠ [] → names <+: reversed.reverse → InWork top (top ++ names))
    (t : FileTree) : KeepsAround top t (t.pruneEmpty top reversed) := by
  induction reversed generalizing t with
  | nil => exact keepsAround_refl top t
  | cons name outer ih =>
    rw [pruneEmpty]
    split
    · have hinner := hwork (name :: outer).reverse (by simp) (List.prefix_refl _)
      refine (keepsAround_alter hinner t).trans (ih (fun names hne hbelow => ?_) _)
      rw [List.reverse_cons] at hwork
      exact hwork names hne (hbelow.trans (List.prefix_append _ _))
    · exact keepsAround_refl top t

/-- Removing a file touches nothing around the work tree, whatever the name of the file. -/
theorem keepsAround_removeTracked {data : Repository}
    (htop : t.shell? top = some (.directory []))
    (hcontrol : t.at? (top ++ [controlDirectory]) = some (.repository data)) (file : String) :
    KeepsAround top t (t.removeTracked top file) := by
  rw [removeTracked]
  split
  · exact keepsAround_refl top t
  · exact keepsAround_refl top t
  · exact keepsAround_refl top t
  rename_i node hdirectory hrepository hnode
  obtain ⟨entries, hentries⟩ := shell?_eq_directory.mp htop
  have hne : fileNames file ≠ [] := by
    intro hnil
    rw [hnil, List.append_nil, hentries] at hnode
    exact hdirectory entries (Option.some.inj hnode).symm
  have hwork : ∀ names, names ≠ [] → names <+: fileNames file → InWork top (top ++ names) := by
    rintro names hnames ⟨more, hmore⟩
    obtain ⟨first, rest, rfl⟩ := List.exists_cons_of_ne_nil hnames
    refine ⟨first, rest, ?_, rfl⟩
    rintro rfl
    -- The control directory is no file, and has no entries.
    rw [← hmore, List.cons_append, List.append_cons, at?_append, hcontrol] at hnode
    cases hbelow : rest ++ more with
    | nil =>
      rw [hbelow] at hnode
      exact hrepository data (Option.some.inj hnode).symm
    | cons =>
      rw [hbelow] at hnode
      cases hnode
  refine (keepsAround_alter (hwork _ hne (List.prefix_refl _)) t).trans
    (keepsAround_pruneEmpty _ (fun names hnames hbelow => ?_) _)
  rw [List.reverse_reverse] at hbelow
  exact hwork names hnames (hbelow.trans (List.dropLast_prefix _))

/-- A work tree between the removal of a file and that of the directories it has left empty: these
directories, down to the innermost one, may still be there. -/
structure Pruning (t : FileTree) (top : Location) (files : String → Option String)
    (innermost : Location) : Prop where
  directory : t.shell? top = some (.directory [])
  file : ∀ file content, files file = some content →
    t.at? (top ++ fileNames file) = some (.file content.toUTF8 newFileMode)
  named : ∀ name ∈ innermost, name ≠ controlDirectory
  there : t.shell? (top ++ innermost) = some (.directory [])
  only : ∀ name rest, name ≠ controlDirectory → t.at? (top ++ name :: rest) ≠ none →
    (∃ file content, files file = some content ∧ name :: rest <+: fileNames file) ∨
      name :: rest <+: innermost

/-- When every directory on the way was looked at, the work tree holds the files again. -/
theorem holds_of_pruning (h : t.Pruning top files []) : t.Holds top files := by
  refine ⟨h.directory, h.file, fun name rest hname hsome => ?_⟩
  rcases h.only name rest hname hsome with hfile | hbelow
  · exact hfile
  · exact absurd (List.prefix_nil.mp hbelow) (List.cons_ne_nil name rest)

theorem not_below_outer {names outer : Location} {name : String} (hnames : names <+: outer) :
    ¬ top ++ (outer ++ [name]) <+: top ++ names := by
  intro hbelow
  exact not_below_parent (((List.prefix_append_right_inj top).mp hbelow).trans hnames)

/-- A directory that leads to a file may stay, and so may what leads to it. -/
theorem holds_of_pruning_of_file {innermost : Location} {f : String}
    (h : t.Pruning top files innermost) (hf : files f = some content)
    (hbelow : innermost <+: fileNames f) : t.Holds top files := by
  refine ⟨h.directory, h.file, fun name rest hname hsome => ?_⟩
  rcases h.only name rest hname hsome with hfile | hinner
  · exact hfile
  · exact ⟨f, content, hf, hinner.trans hbelow⟩

/-- Removing the innermost directory once it is empty. -/
theorem pruning_removeAt {outer : Location} {name : String}
    (h : t.Pruning top files (outer ++ [name]))
    (hempty : t.at? (top ++ (outer ++ [name])) = some (.directory [])) :
    (t.removeAt (top ++ (outer ++ [name]))).Pruning top files outer := by
  have hentry : t.at? (top ++ outer ++ [name]) ≠ none := by
    rw [List.append_assoc, hempty]
    exact Option.some_ne_none _
  have hne : top ++ (outer ++ [name]) ≠ [] :=
    List.append_ne_nil_of_right_ne_nil top
      (List.append_ne_nil_of_right_ne_nil outer (List.cons_ne_nil name []))
  constructor
  · have htop : ¬ top ++ (outer ++ [name]) <+: top ++ [] := not_below_outer List.nil_prefix
    rw [List.append_nil] at htop
    rw [shell?_removeAt htop]
    exact h.directory
  · intro file content hfile
    have hat := h.file file content hfile
    have hkeep : ¬ top ++ (outer ++ [name]) <+: top ++ fileNames file := by
      rintro ⟨rest, hrest⟩
      -- Nothing stands below an empty directory, and the directory itself is no file.
      rw [← hrest, at?_append, hempty] at hat
      cases rest with
      | nil => cases hat
      | cons => cases hat
    exact at?_of_shell?_eq (shell?_removeAt hkeep) hat Node.file_ne_directory
  · intro other hother
    exact h.named other (List.mem_append_left _ hother)
  · rw [shell?_removeAt (not_below_outer (List.prefix_refl outer))]
    exact directory_of_entry hentry
  · intro first rest hfirst hsome
    obtain ⟨hnot, hbefore⟩ := left_of_removeAt hne hsome
    rcases h.only first rest hfirst hbefore with hfile | hinner
    · exact .inl hfile
    · rcases List.prefix_concat_iff.mp hinner with heq | hinner
      · exact absurd ⟨[], by rw [heq, List.append_nil]⟩ hnot
      · exact .inr hinner

/-- **Pruning leaves the files and what leads to them.** -/
theorem holds_pruneEmpty (reversed : List String) (h : t.Pruning top files reversed.reverse) :
    (t.pruneEmpty top reversed).Holds top files := by
  induction reversed generalizing t with
  | nil => exact holds_of_pruning h
  | cons name outer ih =>
    rw [List.reverse_cons] at h
    rw [pruneEmpty, List.reverse_cons]
    split
    · rename_i hempty
      exact ih (pruning_removeAt h hempty)
    · rename_i hnot
      obtain ⟨entries, hentries⟩ := shell?_eq_directory.mp h.there
      cases entries with
      | nil => exact absurd hentries hnot
      | cons entry more =>
        -- What is in the way of the removal leads to a file.
        have hchild : t.at? (top ++ (outer.reverse ++ [name] ++ [entry.1])) ≠ none := by
          rw [← List.append_assoc, at?_concat, hentries, Option.bind_some, Node.child?,
            Entries.get?, if_pos rfl]
          exact Option.some_ne_none _
        obtain ⟨first, rest, hfirst⟩ := List.exists_cons_of_ne_nil
          (List.append_ne_nil_of_right_ne_nil outer.reverse (List.cons_ne_nil name []))
        rw [hfirst, List.cons_append] at hchild
        have hname : first ≠ controlDirectory := by
          refine h.named first ?_
          rw [hfirst]
          exact List.mem_cons_self ..
        rcases h.only first (rest ++ [entry.1]) hname hchild with ⟨f, content, hf, hbelow⟩ | hinner
        · refine holds_of_pruning_of_file h hf ?_
          rw [← List.cons_append, ← hfirst] at hbelow
          exact (List.prefix_append _ _).trans hbelow
        · rw [← List.cons_append, ← hfirst] at hinner
          exact absurd hinner not_below_parent

/-- The files that are left when one is taken away. -/
def without (files : String → Option String) (file : String) : String → Option String :=
  fun f => if f = file then none else files f

theorem without_eq_some {f : String} (h : without files file f = some content) :
    f ≠ file ∧ files f = some content := by
  rw [without] at h
  split at h
  · cases h
  · exact ⟨‹_›, h⟩

/-- Once a file is gone, the directories that led to it are left. -/
theorem pruning_of_removed (h : t.Holds top files) (hfits : FitsWorkTree all)
    (hknown : ∀ f content, files f = some content → f ∈ all.keys) (hfile : file ∈ all.keys)
    (hheld : files file = some content) :
    (t.removeAt (top ++ fileNames file)).Pruning top (without files file)
      (fileNames file).dropLast := by
  obtain ⟨outer, name, hnames⟩ := fileNames_eq_concat hfits hfile
  have hat := h.file file content hheld
  have hshorter : ∀ names : Location, names <+: outer →
      ¬ top ++ fileNames file <+: top ++ names := by
    rw [hnames]
    exact fun names => not_below_outer
  have hentry : t.at? (top ++ outer ++ [name]) ≠ none := by
    rw [List.append_assoc, ← hnames, hat]
    exact Option.some_ne_none _
  have hne : top ++ fileNames file ≠ [] :=
    List.append_ne_nil_of_right_ne_nil top (fileNames_ne_nil hfits hfile)
  rw [hnames, List.dropLast_concat, ← hnames]
  constructor
  · have htop := hshorter [] List.nil_prefix
    rw [List.append_nil] at htop
    rw [shell?_removeAt htop]
    exact h.directory
  · intro f content' hf
    obtain ⟨hne, hf⟩ := without_eq_some hf
    have hat' := h.file f content' hf
    have hkeep : ¬ top ++ fileNames file <+: top ++ fileNames f := by
      intro hbelow
      have hsame := hfits.2 file hfile f (hknown f content' hf)
        ((List.prefix_append_right_inj top).mp hbelow)
      exact hne hsame.symm
    exact at?_of_shell?_eq (shell?_removeAt hkeep) hat' Node.file_ne_directory
  · intro other hother
    refine ne_controlDirectory hfits hfile ?_
    rw [hnames]
    exact List.mem_append_left _ hother
  · rw [shell?_removeAt (hshorter outer (List.prefix_refl outer))]
    exact directory_of_entry hentry
  · intro first rest hfirst hsome
    obtain ⟨hnot, hbefore⟩ := left_of_removeAt hne hsome
    obtain ⟨f, content', hf, hleads⟩ := h.only first rest hfirst hbefore
    by_cases hsame : f = file
    · -- What led to the file and is still there is one of the directories to be pruned.
      subst hsame
      rw [hnames] at hleads
      rcases List.prefix_concat_iff.mp hleads with heq | hinner
      · rw [← hnames] at heq
        exact absurd ⟨[], by rw [heq, List.append_nil]⟩ hnot
      · exact .inr hinner
    · exact .inl ⟨f, content', (if_neg hsame).trans hf, hleads⟩

/-- **Removing a file takes that file from the work tree and nothing else.** -/
theorem holds_removeTracked (h : t.Holds top files) (hfits : FitsWorkTree all)
    (hknown : ∀ f content, files f = some content → f ∈ all.keys) (hfile : file ∈ all.keys) :
    (t.removeTracked top file).Holds top (without files file) := by
  rw [removeTracked]
  cases hheld : files file with
  | none =>
    have hsame : without files file = files := by
      funext f
      rw [without]
      split
      · rename_i heq
        rw [heq, hheld]
      · rfl
    rw [h.absent hfits hknown hfile hheld, hsame]
    exact h
  | some content =>
    have hpruning := pruning_of_removed h hfits hknown hfile hheld
    rw [← List.reverse_reverse (fileNames file).dropLast] at hpruning
    rw [h.file file content hheld]
    exact holds_pruneEmpty (fileNames file).dropLast.reverse hpruning

end FileTree

end KeywordCensus
