import KeywordCensus.Proofs.Remote.WorkTree

/-!
# Writing and checking out

Writing a file together with the directories that lead to it changes what a work tree holds by that
one file (`holds_plant`). So checking out goes exactly from the files of one commit to those of
another one (`holds_checkOut`). Where the work tree has been changed by others, something may have
to give way; the files of the commit are there afterwards all the same (`hasFiles_checkOut`).
Nothing around the work tree is touched (`keepsAround_checkOut`).
-/

namespace KeywordCensus

namespace FileTree

variable {t t' : FileTree} {top : Location} {files : String → Option String}
  {all : SortedMap String} {file content : String}

/-! ## Writing a file -/

/-- The files with one of them written anew. -/
def withFile (files : String → Option String) (file content : String) : String → Option String :=
  fun f => if f = file then some content else files f

/-- Is a place out of reach of what gives way when the directories on a way are made? Only what is
there without being a directory gives way, with everything below it. -/
def Spared (t : FileTree) (way place : Location) : Prop :=
  ∀ names, names <+: way → names <+: place → t.at? names = none ∨
    t.shell? names = some (.directory [])

/-- One directory of the way is made unless it is there. -/
theorem shell?_step (here : Location) (hhere : t.HasPlace here) :
    ∃ t', (match t.at? here with
        | some (.directory _) => t
        | _ => t.put here (.directory [])) = t' ∧
      t'.workDir = t.workDir ∧ t'.shell? here = some (.directory []) ∧
      ∀ other, other ≠ here → (here <+: other → t.at? here = none ∨
        t.shell? here = some (.directory [])) → t'.shell? other = t.shell? other := by
  by_cases hdirectory : t.shell? here = some (.directory [])
  · obtain ⟨entries, hentries⟩ := shell?_eq_directory.mp hdirectory
    rw [hentries]
    exact ⟨t, rfl, rfl, hdirectory, fun _ _ _ => rfl⟩
  · refine ⟨t.put here (.directory []), ?_, rfl, ?_, fun other hother hspared => ?_⟩
    · split
      · rename_i entries hentries
        exact absurd (shell?_eq_directory.mpr ⟨entries, hentries⟩) hdirectory
      · rfl
    · rw [shell?, at?_put_self hhere]
      rfl
    · by_cases hbelow : here <+: other
      · have hnone := (hspared hbelow).resolve_right hdirectory
        obtain ⟨rest, rfl⟩ := hbelow
        rw [shell?_eq_none.mpr (at?_eq_none_below hnone (List.prefix_append here rest)), shell?,
          at?_put_append hhere]
        rcases at?_empty rest with hempty | rfl
        · rw [hempty]
          rfl
        · exact absurd (List.append_nil here) hother
      · exact shell?_put hbelow

/-- Making the directories on a way. -/
theorem shell?_clearWay (rest done : Location) (hdone : t.shell? done = some (.directory [])) :
    (t.clearWay done rest).workDir = t.workDir ∧
    (∀ names, names <+: rest → (t.clearWay done rest).shell? (done ++ names) =
      some (.directory [])) ∧
    ∀ other, (∀ names, names ≠ [] → names <+: rest → other ≠ done ++ names) →
      t.Spared (done ++ rest) other → (t.clearWay done rest).shell? other = t.shell? other := by
  induction rest generalizing t done with
  | nil =>
    refine ⟨rfl, fun names hnames => ?_, fun _ _ _ => rfl⟩
    rw [List.prefix_nil.mp hnames, List.append_nil]
    exact hdone
  | cons name rest ih =>
    have hfirst : [name] <+: name :: rest := ⟨rest, rfl⟩
    obtain ⟨t', ht', hworkDir, hhere, hothers⟩ := shell?_step (done ++ [name])
      (hasPlace_concat hdone name)
    have hunfold : t.clearWay done (name :: rest) = t'.clearWay (done ++ [name]) rest := by
      rw [← ht']
      rfl
    obtain ⟨hworkDir', hmade, hkept⟩ := ih (done ++ [name]) hhere
    rw [hunfold]
    have hmade' : ∀ names, names <+: name :: rest →
        (t'.clearWay (done ++ [name]) rest).shell? (done ++ names) = some (.directory []) := by
      intro names hnames
      rcases List.prefix_cons_iff.mp hnames with rfl | ⟨names, rfl, hinner⟩
      · rw [List.append_nil]
        exact directory_of_directory (List.prefix_append done [name])
          (by simpa only [List.append_nil] using hmade [] List.nil_prefix)
      · have hinner := hmade names hinner
        rw [List.append_assoc] at hinner
        exact hinner
    refine ⟨hworkDir'.trans hworkDir, hmade', fun other hother hspared => ?_⟩
    have hbelow : done ++ [name] <+: done ++ name :: rest :=
      (List.prefix_append_right_inj done).mpr hfirst
    -- What is not reached by the first step stays out of reach of the others.
    have hothers' : ∀ place, place ≠ done ++ [name] → (done ++ [name] <+: place →
        done ++ [name] <+: other) → t'.shell? place = t.shell? place :=
      fun place hplace hreach => hothers place hplace fun hhere =>
        hspared _ hbelow (hreach hhere)
    rw [hkept other, hothers' other]
    · exact hother [name] (List.cons_ne_nil _ _) hfirst
    · exact fun h => h
    · intro names hne hnames
      rw [← List.append_cons]
      exact hother (name :: names) (List.cons_ne_nil _ _) ((List.prefix_cons_inj name).mpr hnames)
    · intro names hnames hreach
      rw [← List.append_cons] at hnames
      by_cases hsame : names = done ++ [name]
      · rw [hsame]
        exact .inr hhere
      · have hshell := hothers' names hsame fun h => h.trans hreach
        rw [at?_eq_none_iff hshell, hshell]
        exact hspared names hnames hreach

/-- What stands where after a node has been planted: the node itself, directories on the way, and
else what was there, unless it had to give way. -/
structure Planted (t : FileTree) (way : Location) (last : String) (node : Node)
    (t' : FileTree) : Prop where
  workDir : t'.workDir = t.workDir
  here : ∀ rest, t'.at? (way ++ [last] ++ rest) = node.at? rest
  above : ∀ place, place <+: way → t'.shell? place = some (.directory [])
  others : ∀ place, ¬ way ++ [last] <+: place → ¬ place <+: way → t.Spared way place →
    t'.shell? place = t.shell? place

theorem planted_plant {way : Location} (last : String) (node : Node)
    (hroot : t.shell? [] = some (.directory [])) :
    t.Planted way last node (t.plant (way ++ [last]) node) := by
  obtain ⟨hworkDir, hmade, hkept⟩ := shell?_clearWay way [] hroot
  rw [plant, List.dropLast_concat]
  have hplaced : (t.clearWay [] way).HasPlace (way ++ [last]) :=
    hasPlace_concat (hmade way (List.prefix_refl way)) last
  constructor
  · exact hworkDir
  · intro rest
    exact at?_put_append hplaced rest
  · intro place hplace
    rw [shell?_put fun hbelow => not_below_parent (hbelow.trans hplace)]
    exact hmade place hplace
  · intro place hnot hupper hspared
    rw [shell?_put hnot]
    refine hkept place (fun names _ hnames heq => hupper ?_) hspared
    rw [heq]
    exact hnames

/-- Nothing gives way to a file that fits a work tree. -/
theorem Holds.spared (h : t.Holds top files) (hfits : FitsWorkTree all)
    (hknown : ∀ f content, files f = some content → f ∈ all.keys) (hfile : file ∈ all.keys)
    {outer : Location} {last : String} (hnames : fileNames file = outer ++ [last])
    (place : Location) : t.Spared (top ++ outer) place := by
  intro names hbelow _
  rcases prefix_append_cases hbelow with hupper | ⟨inner, rfl, hinner, hlower⟩
  · exact .inr (directory_of_directory hupper h.directory)
  · -- What stands on the way inside the work tree leads to a file, so it is a directory.
    refine Classical.or_iff_not_imp_left.mpr fun hsome => ?_
    obtain ⟨name, rest, rfl⟩ := List.exists_cons_of_ne_nil hinner
    have hleads : name :: rest <+: fileNames file := by
      rw [hnames]
      exact hlower.trans (List.prefix_append outer [last])
    have hname : name ≠ controlDirectory :=
      ne_controlDirectory hfits hfile (hleads.subset (List.mem_cons_self ..))
    obtain ⟨f, content, hf, hof⟩ := h.only name rest hname hsome
    obtain ⟨more, hmore⟩ := hof
    cases more with
    | nil =>
      -- A file in the way would be the file itself, but its names are too many.
      rw [List.append_nil] at hmore
      rw [hmore] at hleads hlower
      rw [hfits.2 f (hknown f content hf) file hfile hleads, hnames] at hlower
      exact absurd hlower not_below_parent
    | cons next more =>
      have hat := h.file f content hf
      rw [← hmore, ← List.append_assoc] at hat
      exact directory_of_at? (by rw [hat]; exact Option.some_ne_none _)

theorem withFile_self : withFile files file content file = some content := if_pos rfl

/-- The file that has been planted. -/
theorem Planted.at?_file {outer : Location} {last : String} {node : Node}
    (h : t.Planted (top ++ outer) last node t') (hnames : fileNames file = outer ++ [last]) :
    t'.at? (top ++ fileNames file) = some node := by
  have hhere := h.here []
  rw [List.append_nil, List.append_assoc, ← hnames] at hhere
  exact hhere

/-- A file stays where it is when another one of the same record is planted. -/
theorem at?_of_planted {outer : Location} {last f : String} {node : Node} {bytes : ByteArray}
    {mode : Nat} (hfits : FitsWorkTree all) (hfile : file ∈ all.keys) (hf : f ∈ all.keys)
    (hne : f ≠ file) (hnames : fileNames file = outer ++ [last])
    (hplanted : t.Planted (top ++ outer) last node t')
    (hat : t.at? (top ++ fileNames f) = some (.file bytes mode)) :
    t'.at? (top ++ fileNames f) = some (.file bytes mode) := by
  -- Neither file leads to the other one, so the planted one is not in the way.
  have hbelow : ∀ names, names <+: top ++ outer → names ≠ top ++ fileNames f := by
    rintro names hupper rfl
    have hleads : fileNames f <+: fileNames file := by
      rw [hnames]
      exact ((List.prefix_append_right_inj top).mp hupper).trans (List.prefix_append outer [last])
    exact hne (hfits.2 f hf file hfile hleads)
  have hnot : ¬ top ++ outer ++ [last] <+: top ++ fileNames f := by
    rw [List.append_assoc, ← hnames]
    intro hlower
    exact hne (hfits.2 file hfile f hf ((List.prefix_append_right_inj top).mp hlower)).symm
  have hspared : t.Spared (top ++ outer) (top ++ fileNames f) := by
    intro names hupper hlower
    refine .inr (directory_above hlower (hbelow names hupper) ?_)
    rw [hat]
    exact Option.some_ne_none _
  have hshell := hplanted.others _ hnot (fun hupper => hbelow _ hupper rfl) hspared
  exact at?_of_shell?_eq hshell hat Node.file_ne_directory

/-- The files of a work tree after one has been planted. -/
theorem file_of_planted {outer : Location} {last f other : String} (h : t.Holds top files)
    (hfits : FitsWorkTree all) (hknown : ∀ f content, files f = some content → f ∈ all.keys)
    (hfile : file ∈ all.keys) (hnames : fileNames file = outer ++ [last])
    (hplanted : t.Planted (top ++ outer) last (.file content.toUTF8 newFileMode) t')
    (hf : withFile files file content f = some other) :
    t'.at? (top ++ fileNames f) = some (.file other.toUTF8 newFileMode) := by
  by_cases hsame : f = file
  · subst hsame
    rw [withFile_self] at hf
    cases hf
    exact hplanted.at?_file hnames
  · have hf : files f = some other := (if_neg hsame).symm.trans hf
    exact at?_of_planted hfits hfile (hknown f other hf) hsame hnames hplanted (h.file f other hf)

/-- What a work tree has after a file has been planted leads to a file. -/
theorem only_of_planted {outer : Location} {last : String} (h : t.Holds top files)
    (hfits : FitsWorkTree all) (hknown : ∀ f content, files f = some content → f ∈ all.keys)
    (hfile : file ∈ all.keys) (hnames : fileNames file = outer ++ [last])
    (hplanted : t.Planted (top ++ outer) last (.file content.toUTF8 newFileMode) t')
    (name : String) (rest : Location) (hname : name ≠ controlDirectory)
    (hsome : t'.at? (top ++ name :: rest) ≠ none) :
    ∃ f other, withFile files file content f = some other ∧ name :: rest <+: fileNames f := by
  by_cases hbelow : top ++ outer ++ [last] <+: top ++ name :: rest
  · obtain ⟨more, hmore⟩ := hbelow
    rw [← hmore, hplanted.here] at hsome
    cases more with
    | nil =>
      rw [List.append_nil, List.append_assoc, ← hnames] at hmore
      exact ⟨file, content, withFile_self, [],
        (List.append_nil _).trans (List.append_cancel_left hmore).symm⟩
    | cons => exact absurd rfl hsome
  by_cases hupper : top ++ name :: rest <+: top ++ outer
  · refine ⟨file, content, withFile_self, ?_⟩
    rw [hnames]
    exact ((List.prefix_append_right_inj top).mp hupper).trans (List.prefix_append outer [last])
  · -- Elsewhere nothing has changed, for nothing had to give way.
    have hshell := hplanted.others _ hbelow hupper (h.spared hfits hknown hfile hnames _)
    have hbefore : t.at? (top ++ name :: rest) ≠ none :=
      fun hnone => hsome ((at?_eq_none_iff hshell).mpr hnone)
    obtain ⟨f, other, hf, hleads⟩ := h.only name rest hname hbefore
    by_cases hsame : f = file
    · exact ⟨f, content, if_pos hsame, hleads⟩
    · exact ⟨f, other, (if_neg hsame).trans hf, hleads⟩

/-- Planting a file plants its last name in the directory of its other names. -/
theorem planted_file {outer : Location} {last : String}
    (htop : t.shell? top = some (.directory [])) (hnames : fileNames file = outer ++ [last])
    (node : Node) :
    t.Planted (top ++ outer) last node (t.plant (top ++ fileNames file) node) := by
  rw [hnames, ← List.append_assoc]
  exact planted_plant last node (directory_of_directory List.nil_prefix htop)

/-- Writing a file touches nothing around the work tree, whatever has to give way. -/
theorem keepsAround_plant (htop : t.shell? top = some (.directory [])) (hfits : FitsWorkTree all)
    (hfile : file ∈ all.keys) (node : Node) :
    KeepsAround top t (t.plant (top ++ fileNames file) node) := by
  obtain ⟨outer, last, hnames⟩ := fileNames_eq_concat hfits hfile
  have hplanted := planted_file htop hnames node
  refine ⟨hplanted.workDir, fun place hplace => ?_⟩
  have hwork : ∀ {names : Location}, names ≠ [] → names <+: fileNames file →
      InWork top (top ++ names) := inWork_file hfits hfile
  have hnot : ¬ top ++ outer ++ [last] <+: place := by
    rw [List.append_assoc, ← hnames]
    rintro ⟨more, rfl⟩
    exact hplace (inWork_append (hwork (fileNames_ne_nil hfits hfile) (List.prefix_refl _)) more)
  -- What the way and the place have in common lies above the work tree.
  have hcommon : ∀ names, names <+: top ++ outer → names <+: place →
      t.shell? names = some (.directory []) := by
    intro names hupper hreach
    rcases prefix_append_cases hupper with habove | ⟨inner, rfl, hinner, hlower⟩
    · exact directory_of_directory habove htop
    · obtain ⟨more, rfl⟩ := hreach
      refine absurd (inWork_append (hwork hinner ?_) more) hplace
      rw [hnames]
      exact hlower.trans (List.prefix_append outer [last])
  by_cases hupper : place <+: top ++ outer
  · rw [hplanted.above place hupper, hcommon place hupper (List.prefix_refl place)]
  · exact hplanted.others place hnot hupper fun names hway hreach =>
      .inr (hcommon names hway hreach)

/-- **Writing a file adds that file to the work tree or gives it its content, and does nothing
else.** -/
theorem holds_plant (h : t.Holds top files) (hfits : FitsWorkTree all)
    (hknown : ∀ f content, files f = some content → f ∈ all.keys) (hfile : file ∈ all.keys)
    (content : String) :
    (t.plant (top ++ fileNames file) (.file content.toUTF8 newFileMode)).Holds top
      (withFile files file content) := by
  obtain ⟨outer, last, hnames⟩ := fileNames_eq_concat hfits hfile
  have hplanted := planted_file h.directory hnames (.file content.toUTF8 newFileMode)
  exact ⟨hplanted.above top (List.prefix_append top outer),
    fun _ _ hf => file_of_planted h hfits hknown hfile hnames hplanted hf,
    only_of_planted h hfits hknown hfile hnames hplanted⟩

/-! ## Checking out -/

/-- Removing files one by one leaves a work tree that holds the files less those: the induction is
on the list of stale files. -/
theorem holds_removeAll (hfits : FitsWorkTree all) (stale : List String)
    (hstale : ∀ file ∈ stale, file ∈ all.keys) {files : String → Option String}
    (h : t.Holds top files) (hknown : ∀ f content, files f = some content → f ∈ all.keys) :
    (stale.foldl (fun t file => t.removeTracked top file) t).Holds top
      (fun f => if f ∈ stale then none else files f) := by
  induction stale generalizing t files with
  | nil => exact h
  | cons file rest ih =>
    obtain ⟨hfile, hrest⟩ := List.forall_mem_cons.mp hstale
    have hholds := ih hrest (holds_removeTracked h hfits hknown hfile) fun f content hf =>
      hknown f content (without_eq_some hf).2
    have hsame : (fun f => if f ∈ file :: rest then none else files f) =
        fun f => if f ∈ rest then none else without files file f := by
      funext f
      simp only [List.mem_cons, without]
      by_cases hf : f = file <;> by_cases hr : f ∈ rest <;> simp [hf, hr]
    rw [hsame]
    exact hholds

/-- What the entries of a record hold on top of other files, with the first one written before. -/
theorem get?_or_withFile {rest : List (String × String)} (hfresh : file ∉ rest.map (·.1))
    (content : String) (files : String → Option String) :
    (fun f => (Entries.get? f ((file, content) :: rest)).or (files f)) =
      fun f => (Entries.get? f rest).or (withFile files file content f) := by
  funext f
  rw [Entries.get?, withFile]
  by_cases hf : file = f
  · subst hf
    rw [if_pos rfl, if_pos rfl, Entries.get?_eq_none_iff.mpr hfresh]
    rfl
  · rw [if_neg hf, if_neg fun heq => hf heq.symm]

theorem withFile_known {f other : String}
    (hknown : ∀ f content, files f = some content → f ∈ all.keys) (hfile : file ∈ all.keys)
    (hf : withFile files file content f = some other) : f ∈ all.keys := by
  by_cases hsame : f = file
  · rw [hsame]
    exact hfile
  · exact hknown f other ((if_neg hsame).symm.trans hf)

/-- **What planting a file keeps for the files written so far, writing them all keeps**, by
induction on the entries that are left to be written. -/
theorem writeAll_of_plant (good : FileTree → (String → Option String) → Prop)
    (hplant : ∀ t files file, good t files →
      (∀ f content, files f = some content → f ∈ all.keys) → file ∈ all.keys → ∀ content,
      good (t.plant (top ++ fileNames file) (.file content.toUTF8 newFileMode))
        (withFile files file content))
    (entries : List (String × String)) (hentries : ∀ e ∈ entries, e.1 ∈ all.keys)
    (hnodup : (entries.map (·.1)).Nodup) (h : good t files)
    (hknown : ∀ f content, files f = some content → f ∈ all.keys) :
    good (entries.foldl (fun t e =>
      t.plant (top ++ fileNames e.1) (.file e.2.toUTF8 newFileMode)) t)
      (fun f => (Entries.get? f entries).or (files f)) := by
  induction entries generalizing t files with
  | nil => exact h
  | cons entry rest ih =>
    obtain ⟨file, content⟩ := entry
    obtain ⟨hfile, hrest⟩ := List.forall_mem_cons.mp hentries
    obtain ⟨hfresh, hnodup⟩ := List.nodup_cons.mp hnodup
    rw [get?_or_withFile hfresh]
    exact ih hrest hnodup (hplant t files file h hknown hfile content)
      fun _ _ => withFile_known hknown hfile

/-- So it does for the files of a commit, where none has been written before. -/
theorem writeFiles_of_plant (good : FileTree → (String → Option String) → Prop) (commit : Commit)
    (hplant : ∀ t files file, good t files →
      (∀ f content, files f = some content → f ∈ commit.files.keys) →
      file ∈ commit.files.keys → ∀ content,
      good (t.plant (top ++ fileNames file) (.file content.toUTF8 newFileMode))
        (withFile files file content))
    (h : good t fun _ => none) : good (t.writeFiles top commit.files) commit.files.get? := by
  have hknown : ∀ (f content : String), none = some content → f ∈ commit.files.keys := by
    intro f content hnone
    cases hnone
  have hgood := writeAll_of_plant good hplant commit.files.entries
    (fun e he => List.mem_map_of_mem he) commit.files.nodup_keys h hknown
  have hsame : commit.files.get? = fun f => (Entries.get? f commit.files.entries).or none := by
    funext f
    exact Option.or_none.symm
  rw [hsame]
  exact hgood

/-- Writing files of a commit keeps everything around the work tree. -/
theorem keepsAround_writeAll (hfits : FitsWorkTree all) (entries : List (String × String))
    (hentries : ∀ e ∈ entries, e.1 ∈ all.keys) (htop : t.shell? top = some (.directory [])) :
    KeepsAround top t (entries.foldl (fun t e =>
      t.plant (top ++ fileNames e.1) (.file e.2.toUTF8 newFileMode)) t) := by
  induction entries generalizing t with
  | nil => exact keepsAround_refl top t
  | cons entry rest ih =>
    obtain ⟨hfile, hrest⟩ := List.forall_mem_cons.mp hentries
    have hkeeps := keepsAround_plant htop hfits hfile (.file entry.2.toUTF8 newFileMode)
    exact hkeeps.trans (ih hrest (hkeeps.directory htop))

theorem keepsAround_removeAll {data : Repository} (stale : List String)
    (htop : t.shell? top = some (.directory []))
    (hcontrol : t.at? (top ++ [controlDirectory]) = some (.repository data)) :
    KeepsAround top t (stale.foldl (fun t file => t.removeTracked top file) t) := by
  induction stale generalizing t with
  | nil => exact keepsAround_refl top t
  | cons file rest ih =>
    have hkeeps := keepsAround_removeTracked htop hcontrol file
    exact hkeeps.trans (ih (hkeeps.directory htop) (hkeeps.control hcontrol))

/-- Writing the files of a commit touches nothing around the work tree. -/
theorem keepsAround_writeFiles (commit : Commit) (htop : t.shell? top = some (.directory [])) :
    KeepsAround top t (t.writeFiles top commit.files) :=
  keepsAround_writeAll commit.fits commit.files.entries (fun _ he => List.mem_map_of_mem he) htop

/-- **Checking out touches nothing around the work tree**, whatever the work tree holds. -/
theorem keepsAround_checkOut {data : Repository} (tracked : List String) (commit : Commit)
    (htop : t.shell? top = some (.directory []))
    (hcontrol : t.at? (top ++ [controlDirectory]) = some (.repository data)) :
    KeepsAround top t (t.checkOut top tracked commit) := by
  have hkeeps := keepsAround_removeAll (tracked.filter fun file => !commit.files.contains file)
    htop hcontrol
  exact hkeeps.trans (keepsAround_writeFiles commit (hkeeps.directory htop))

/-- **Writing the files of a commit into a work tree without files.** -/
theorem holds_writeFiles (commit : Commit) (h : t.Holds top fun _ => none) :
    (t.writeFiles top commit.files).Holds top commit.files.get? :=
  writeFiles_of_plant (fun t files => t.Holds top files) commit
    (fun _ _ _ hholds hknown hfile => holds_plant hholds commit.fits hknown hfile) h

/-- **Checking out goes exactly from the files of one commit to those of another one.** -/
theorem holds_checkOut (old commit : Commit) (h : t.Holds top old.files.get?) :
    (t.checkOut top old.files.keys commit).Holds top commit.files.get? := by
  have hknown : ∀ f content, old.files.get? f = some content → f ∈ old.files.keys :=
    fun f content hf => SortedMap.mem_keys.mpr ⟨content, hf⟩
  have hremoved := holds_removeAll old.fits
    (old.files.keys.filter fun file => !commit.files.contains file)
    (fun file hfile => (List.mem_filter.mp hfile).1) h hknown
  -- What is not removed is a file of the new commit too, and is written over.
  have hkept : ∀ f content, (if f ∈ old.files.keys.filter fun file =>
      !commit.files.contains file then none else old.files.get? f) = some content →
      f ∈ commit.files.keys := by
    intro f content hf
    split at hf
    · cases hf
    · rename_i hnot
      cases hget : commit.files.get? f with
      | some other => exact SortedMap.mem_keys.mpr ⟨other, hget⟩
      | none =>
        refine absurd (List.mem_filter.mpr ⟨hknown f content hf, ?_⟩) hnot
        rw [SortedMap.contains_eq_false_iff.mpr hget]
        rfl
  have hholds := writeAll_of_plant (fun t files => t.Holds top files)
    (fun _ _ _ hholds hknown hfile => holds_plant hholds commit.fits hknown hfile)
    commit.files.entries (fun e he => List.mem_map_of_mem he) commit.files.nodup_keys hremoved hkept
  have hsame : commit.files.get? = fun f => (Entries.get? f commit.files.entries).or
      (if f ∈ old.files.keys.filter fun file => !commit.files.contains file then none
        else old.files.get? f) := by
    funext f
    cases hget : commit.files.get? f with
    | some content =>
      have hentry : Entries.get? f commit.files.entries = some content := hget
      rw [hentry, Option.some_or]
    | none =>
      have hentry : Entries.get? f commit.files.entries = none := hget
      rw [hentry, Option.none_or]
      cases hleft : (if f ∈ old.files.keys.filter fun file => !commit.files.contains file then none
        else old.files.get? f) with
      | none => rfl
      | some content =>
        obtain ⟨other, hother⟩ := SortedMap.mem_keys.mp (hkept f content hleft)
        rw [hget] at hother
        cases hother
  rw [hsame]
  exact hholds

/-! ## Checking out over anything -/

/-- Are certain files in a work tree, whatever else is there? -/
def HasFiles (t : FileTree) (top : Location) (files : String → Option String) : Prop :=
  ∀ file content, files file = some content →
    ∃ mode, t.at? (top ++ fileNames file) = some (.file content.toUTF8 mode)

theorem Holds.hasFiles (h : t.Holds top files) : t.HasFiles top files :=
  fun file content hfile => ⟨newFileMode, h.file file content hfile⟩

theorem hasFiles_plant (h : t.HasFiles top files) (htop : t.shell? top = some (.directory []))
    (hfits : FitsWorkTree all) (hknown : ∀ f content, files f = some content → f ∈ all.keys)
    (hfile : file ∈ all.keys) (content : String) :
    (t.plant (top ++ fileNames file) (.file content.toUTF8 newFileMode)).HasFiles top
      (withFile files file content) := by
  obtain ⟨outer, last, hnames⟩ := fileNames_eq_concat hfits hfile
  have hplanted := planted_file htop hnames (.file content.toUTF8 newFileMode)
  intro f other hf
  by_cases hsame : f = file
  · subst hsame
    rw [withFile_self] at hf
    cases hf
    exact ⟨newFileMode, hplanted.at?_file hnames⟩
  · have hf : files f = some other := (if_neg hsame).symm.trans hf
    obtain ⟨mode, hat⟩ := h f other hf
    exact ⟨mode, at?_of_planted hfits hfile (hknown f other hf) hsame hnames hplanted hat⟩

/-- **After a check-out the files of the commit are there**, whatever was in the way. -/
theorem hasFiles_checkOut {data : Repository} (tracked : List String) (commit : Commit)
    (htop : t.shell? top = some (.directory []))
    (hcontrol : t.at? (top ++ [controlDirectory]) = some (.repository data)) :
    (t.checkOut top tracked commit).HasFiles top commit.files.get? := by
  have hkeeps := keepsAround_removeAll (tracked.filter fun file => !commit.files.contains file)
    htop hcontrol
  -- The top directory has to stay for the next file, so it is part of what planting keeps.
  have hwritten := writeFiles_of_plant
    (fun t files => t.shell? top = some (.directory []) ∧ t.HasFiles top files) commit
    (fun t files file hgood hknown hfile content =>
      ⟨(keepsAround_plant hgood.1 commit.fits hfile _).directory hgood.1,
        hasFiles_plant hgood.2 hgood.1 commit.fits hknown hfile content⟩)
    ⟨hkeeps.directory htop, fun file content hnone => by cases hnone⟩
  exact hwritten.2

end FileTree

end KeywordCensus
