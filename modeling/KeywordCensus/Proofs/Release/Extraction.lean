import KeywordCensus.Proofs.FileTree.Fixed
import KeywordCensus.Proofs.FileTree.Order
import KeywordCensus.Proofs.Release.Selection

/-!
# Installations that fail

An installation works in the very directory in which the parser is looked for. If it fails, the
entries before the one that it fails at have been extracted, and nothing else has changed
(`Release.Extracted`): no file is gone, and what is new has the permissions of a new file, as those
of the entries would have come last.

A look-up finds what it found before if and only if what it finds was a file before; otherwise it
finds a file that was extracted (`Release.findBinary?_eq_iff`). For the directory of the release
itself that depends on the names of the entries that were extracted
(`Release.cached_of_failed_install`).
-/

namespace KeywordCensus

namespace ArchiveEntry

variable {e : ArchiveEntry} {names : List String}

/-- Resolving keeps to names. -/
theorem named_of_foldlM {components : List Component} {done result : List String}
    (hcomponents : ∀ s, .name s ∈ components → Path.IsName s)
    (hdone : ∀ name ∈ done, Path.IsName name)
    (h : components.foldlM resolveStep done = some result) : ∀ name ∈ result, Path.IsName name := by
  induction components generalizing done with
  | nil =>
    cases h
    exact hdone
  | cons c rest ih =>
    rw [List.foldlM_cons] at h
    obtain ⟨middle, hstep, hrest⟩ := Option.bind_eq_some_iff.mp h
    refine ih (fun s hs => hcomponents s (List.mem_cons_of_mem _ hs)) ?_ hrest
    cases c with
    | root => cases hstep
    | current =>
      cases hstep
      exact hdone
    | parent =>
      cases done with
      | nil => cases hstep
      | cons _ before =>
        cases hstep
        exact fun name hname => hdone name (List.mem_cons_of_mem _ hname)
    | name s =>
      cases hstep
      exact List.forall_mem_cons.mpr ⟨hcomponents s List.mem_cons_self, hdone⟩

/-- The names that lead to an entry are names of entries of directories. -/
theorem named (h : e.names? = some names) : ∀ name ∈ names, Path.IsName name := by
  obtain ⟨reversed, hresult, rfl⟩ := Option.map_eq_some_iff.mp h
  have hnamed := named_of_foldlM (fun _ => Path.isName_of_mem_components) (List.forall_mem_nil _)
    hresult
  exact fun name hname => hnamed name (List.mem_reverse.mp hname)

/-- Is this what an entry puts at a place when it is extracted in a directory? Where the directory is
fixed and holds directories and files only, the names of the entry lead to that place. -/
def Lands (t : FileTree) (directory : Path) (e : ArchiveEntry) (place : Location)
    (bytes : ByteArray) : Prop :=
  e.makesDirectory = false ∧ bytes = e.content ∧ ∃ names, e.names? = some names ∧
    ∀ top, t.FixedEntry directory top → t.OnlyFiles top → place = top ++ names

/-- Is what an entry stands for below a directory, provided that the directory is fixed and held
directories and files only? -/
def Stays (t : FileTree) (directory : Path) (e : ArchiveEntry) (t' : FileTree) : Prop :=
  e.makesDirectory = false → ∀ names, e.names? = some names → names ≠ [] →
    ∀ top, t.FixedEntry directory top → t.OnlyFiles top →
      t'.Below directory (directory.descend names) names

/-- What stays below the directory stays there when more is written. -/
theorem Stays.writes {t t₁ t' : FileTree} {directory : Path}
    {written : Location → ByteArray → Prop} (ht : t₁.WritesTo written t')
    (h : e.Stays t directory t₁) : e.Stays t directory t' :=
  fun hfile names hnames hne top hfixed honly =>
    (h hfile names hnames hne top hfixed honly).writes ht

end ArchiveEntry

namespace Release

open FileTree FileAction

variable {t t₁ t₂ t' : FileTree} {target cache root binary : Path} {e : ReleaseError}
  {entry : ArchiveEntry} {entries done : List ArchiveEntry} {names : Location} {bytes : ByteArray}
  {top place : Location} {written : Location → ByteArray → Prop}

/-! ## One entry -/

/-- An entry is extracted as a directory, or as a file in a directory that has been made. -/
theorem extractEntry_eq_ok {made : Option (Path × Nat)}
    (h : on (extractEntry target entry) t = (.ok made, t')) :
    ∃ names, entry.names? = some names ∧
      ((entry.makesDirectory = true ∧ t.WritesTo written t') ∨
        (entry.makesDirectory = false ∧ ∃ t₁, t.WritesTo written t₁ ∧
          on (writeBytes (target.descend names) entry.content) t₁ = (.ok (), t'))) := by
  rw [extractEntry] at h
  split at h
  · cases h
  rename_i names hnames
  refine ⟨names, hnames, ?_⟩
  split at h
  · rename_i hmark
    obtain ⟨_, t₁, hmake, h⟩ := on_bind_eq_ok.mp h
    cases h
    exact .inl ⟨hmark, (writes_makeDirectories _).of_on (on_adapt_eq_ok.mp hmake)⟩
  · rename_i hmark
    obtain ⟨_, t₁, hmake, h⟩ := on_bind_eq_ok.mp h
    obtain ⟨_, t₂, hwrite, h⟩ := on_bind_eq_ok.mp h
    cases h
    exact .inr ⟨Bool.eq_false_iff.mpr hmark, t₁,
      (writes_makeDirectories _).of_on (on_adapt_eq_ok.mp hmake), on_adapt_eq_ok.mp hwrite⟩

/-- An entry that cannot be extracted leaves nothing behind but directories. -/
theorem extractEntry_eq_error (h : on (extractEntry target entry) t = (.error e, t')) :
    t.WritesTo written t' := by
  rw [extractEntry] at h
  split at h
  · cases h
    exact writesTo_refl t
  split at h
  · rcases on_bind_eq_error.mp h with hmake | ⟨-, t₁, -, h⟩
    · obtain ⟨cause, -, hmake⟩ := on_adapt_eq_error.mp hmake
      exact (writes_makeDirectories _).of_on hmake
    · cases h
  · rcases on_bind_eq_error.mp h with hmake | ⟨_, t₁, hmake, h⟩
    · obtain ⟨cause, -, hmake⟩ := on_adapt_eq_error.mp hmake
      exact (writes_makeDirectories _).of_on hmake
    · rcases on_bind_eq_error.mp h with hwrite | ⟨-, t₂, -, h⟩
      · obtain ⟨cause, -, hwrite⟩ := on_adapt_eq_error.mp hwrite
        rw [writeBytes_eq_error hwrite]
        exact (writes_makeDirectories _).of_on (on_adapt_eq_ok.mp hmake)
      · cases h

/-- What is written by the names of an entry is what the entry puts there. -/
theorem lands_of_writeBytes (ht : t.WritesTo (fun _ _ => True) t₁)
    (hnames : entry.names? = some names) (hfile : entry.makesDirectory = false)
    (h : on (writeBytes (target.descend names) entry.content) t₁ = (.ok (), t')) :
    t₁.WritesTo (entry.Lands t target) t' ∧ entry.Stays t target t' := by
  obtain ⟨place, hplace, hover, htidy⟩ := overwrites_writeBytes h
  have hwrites := hover.writes htidy
  have hall : t.WritesTo (fun _ _ => True) t' := ht.trans (hwrites.imp fun _ _ _ => trivial)
  constructor
  · refine hwrites.imp ?_
    rintro other new ⟨rfl, rfl⟩
    exact ⟨hfile, rfl, names, hnames, fun top hfixed honly => locate_descend_eq hfixed.text
      (honly.writes hall) (hfixed.leads t' hall) (entry.named hnames) hplace⟩
  · intro _ others hothers hne top hfixed honly
    cases hnames.symm.trans hothers
    exact below_of_writeBytes hfixed.text (honly.writes hall) (hfixed.leads t' hall)
      (entry.named hnames) hne h

/-- **An entry that is extracted writes what it puts there, and nothing else.** -/
theorem extractEntry_lands {made : Option (Path × Nat)} (ht : t.WritesTo (fun _ _ => True) t₁)
    (h : on (extractEntry target entry) t₁ = (.ok made, t')) :
    t₁.WritesTo (entry.Lands t target) t' ∧ entry.Stays t target t' := by
  obtain ⟨names, hnames, ⟨hmark, hwrites⟩ | ⟨hfile, t₂, hwrites, hwrite⟩⟩ := extractEntry_eq_ok h
  · exact ⟨hwrites, fun hfile => by rw [hmark] at hfile; cases hfile⟩
  · obtain ⟨hlands, hstays⟩ :=
      lands_of_writeBytes (ht.trans (hwrites.imp fun _ _ _ => trivial)) hnames hfile hwrite
    exact ⟨hwrites.trans hlands, hstays⟩

/-! ## The entries before the one that fails -/

/-- Have just these entries been extracted between two trees? What they put where is told for the tree
before the first one. -/
structure Extracted (t : FileTree) (target : Path) (done : List ArchiveEntry)
    (t₁ t' : FileTree) : Prop where
  /-- Nothing has been written but what the entries put there. -/
  writes : t₁.WritesTo (fun place bytes => ∃ entry ∈ done, entry.Lands t target place bytes) t'
  /-- What the entries put there is there. -/
  stays : ∀ entry ∈ done, entry.Stays t target t'

/-- With no entries left nothing more is extracted. -/
theorem extracted_nothing (h : ∀ written, t₁.WritesTo written t') :
    Extracted t target [] t₁ t' :=
  ⟨h _, List.forall_mem_nil _⟩

/-- Directories may have been made before. -/
theorem Extracted.after (hmake : ∀ written, t₁.WritesTo written t₂)
    (h : Extracted t target done t₂ t') : Extracted t target done t₁ t' :=
  ⟨(hmake _).trans h.writes, h.stays⟩

/-- One entry may have been extracted before. -/
theorem Extracted.cons {made : Option (Path × Nat)} (ht : t.WritesTo (fun _ _ => True) t₁)
    (hentry : on (extractEntry target entry) t₁ = (.ok made, t₂))
    (h : Extracted t target done t₂ t') : Extracted t target (entry :: done) t₁ t' := by
  obtain ⟨hlands, hstays⟩ := extractEntry_lands ht hentry
  refine ⟨(hlands.imp ?_).trans (h.writes.imp ?_),
    List.forall_mem_cons.mpr ⟨hstays.writes h.writes, h.stays⟩⟩
  · exact fun place bytes hland => ⟨entry, List.mem_cons_self, hland⟩
  · rintro place bytes ⟨other, hother, hland⟩
    exact ⟨other, List.mem_cons_of_mem _ hother, hland⟩

/-- **An extraction that fails has extracted the entries before the one that it fails at.** -/
theorem extracted_of_mapM (ht : t.WritesTo (fun _ _ => True) t₁)
    (h : on (entries.mapM (extractEntry target)) t₁ = (.error e, t')) :
    ∃ done bad rest, entries = done ++ bad :: rest ∧ Extracted t target done t₁ t' := by
  induction entries generalizing t₁ with
  | nil => cases h
  | cons entry rest ih =>
    rw [List.mapM_cons] at h
    rcases on_bind_eq_error.mp h with hentry | ⟨made, t₂, hentry, h⟩
    · exact ⟨[], entry, rest, rfl, extracted_nothing fun _ => extractEntry_eq_error hentry⟩
    rcases on_bind_eq_error.mp h with hrest | ⟨_, t₃, -, h⟩
    · obtain ⟨hlands, -⟩ := extractEntry_lands ht hentry
      obtain ⟨done, bad, rest, rfl, hdone⟩ :=
        ih (ht.trans (hlands.imp fun _ _ _ => trivial)) hrest
      exact ⟨entry :: done, bad, rest, rfl, hdone.cons ht hentry⟩
    · cases h

/-- An extraction that succeeds has only written, too. -/
theorem writes_of_mapM {made : List (Option (Path × Nat))}
    (ht : t.WritesTo (fun _ _ => True) t₁)
    (h : on (entries.mapM (extractEntry target)) t₁ = (.ok made, t')) :
    t.WritesTo (fun _ _ => True) t' := by
  induction entries generalizing t₁ made with
  | nil =>
    cases h
    exact ht
  | cons entry rest ih =>
    rw [List.mapM_cons] at h
    obtain ⟨first, t₂, hentry, h⟩ := on_bind_eq_ok.mp h
    obtain ⟨others, t₃, hrest, h⟩ := on_bind_eq_ok.mp h
    cases h
    exact ih (ht.trans ((extractEntry_lands ht hentry).1.imp fun _ _ _ => trivial)) hrest

/-- Giving a file its permissions keeps a tree tidy. -/
theorem tidy_setMode (htidy : t.root.Tidy) (path : Path) (mode : Nat) :
    (setMode t path mode).root.Tidy := by
  rw [setMode]
  split
  · rename_i place hplace
    refine tidy_alter htidy (locate_named hplace) fun node? hnode? => ?_
    split
    · rintro _ ⟨⟩
      exact .file _ _
    · exact hnode?
  · exact htidy

theorem tidy_extract (htidy : t.root.Tidy) (ht : t.WritesTo (fun _ _ => True) t₁)
    (h : on (extract target entries) t₁ = (.ok (), t')) : t'.root.Tidy := by
  rw [extract] at h
  obtain ⟨made, t₂, hmade, h⟩ := on_bind_eq_ok.mp h
  have hwritten := (writes_of_mapM ht hmade).tidy htidy
  cases h
  -- All that is left is to set the permissions, file by file.
  exact List.foldlRecOn (motive := fun t : FileTree => t.root.Tidy) (made.filterMap id) _ hwritten
    fun t htidy w _ => tidy_setMode htidy w.1 w.2

/-! ## Making files executable -/

mutual

theorem tidy_executableNode : ∀ node : Node, node.Tidy → (executableNode node).Tidy
  | .file bytes mode, _ => by
    rw [executableNode]
    exact .file _ _
  | .link _, h => by rwa [executableNode] <;> nofun
  | .repository _, h => by rwa [executableNode] <;> nofun
  | .closed .., h => by cases h
  | .directory entries, h => by
    rw [executableNode]
    cases h with
    | directory hincrease hnamed hinner =>
      obtain ⟨hkeys, hall⟩ := tidy_executableEntries entries hinner
      refine .directory ?_ (fun e he => ?_) hall
      · have hsorted : (entries.map (·.1)).Pairwise (· < ·) := List.pairwise_map.mpr hincrease
        rw [← hkeys] at hsorted
        exact List.pairwise_map.mp hsorted
      · have hkey := List.mem_map_of_mem (f := (·.1)) he
        rw [hkeys] at hkey
        obtain ⟨old, hold, heq⟩ := List.mem_map.mp hkey
        exact heq ▸ hnamed old hold

theorem tidy_executableEntries : ∀ entries : List (String × Node), (∀ e ∈ entries, e.2.Tidy) →
    (executableEntries entries).map (·.1) = entries.map (·.1) ∧
      ∀ e ∈ executableEntries entries, e.2.Tidy
  | [], _ => ⟨rfl, List.forall_mem_nil _⟩
  | (name, node) :: rest, h => by
    obtain ⟨hnode, hrest⟩ := List.forall_mem_cons.mp h
    obtain ⟨hkeys, hall⟩ := tidy_executableEntries rest hrest
    rw [executableEntries]
    exact ⟨congrArg (name :: ·) hkeys, List.forall_mem_cons.mpr ⟨tidy_executableNode node hnode, hall⟩⟩

end

theorem tidy_makeExecutable (htidy : t.root.Tidy) : (makeExecutable target t).root.Tidy := by
  rw [makeExecutable]
  split
  · rename_i place hplace
    refine tidy_alter htidy (locate_named hplace) fun node? hnode? => ?_
    cases node? with
    | none => exact hnode?
    | some node =>
      rintro _ ⟨⟩
      exact tidy_executableNode node (hnode? node rfl)
  · exact htidy

/-- In a tidy tree all files can be made executable. -/
theorem on_markExecutable (htidy : t.root.Tidy) :
    on (markExecutable target) t = (.ok (), makeExecutable target t) := by
  have hreached : listsOutOfReach (makeExecutable target t) target = false := by
    rw [listsOutOfReach, Bool.and_eq_false_imp]
    intro hdirectory
    refine List.any_eq_false.mpr fun p hp => ?_
    obtain ⟨-, names, hbelow⟩ := (mem_filesBelow (tidy_makeExecutable htidy) hdirectory).mp hp
    rw [hbelow.isFile]
    exact Bool.false_ne_true
  show on (if listsOutOfReach (makeExecutable target t) target then
    throw (ReleaseError.io .permissionDenied) else pure ()) (makeExecutable target t) = _
  rw [hreached]
  rfl

/-- An installation that fails has extracted the entries before the one that it fails at, or none. -/
theorem extracted_of_install {archive : Archive} (htidy : t.root.Tidy)
    (h : on (install archive target) t = (.error e, t')) :
    ∃ done, (done = [] ∨ ∃ bad rest, archive = .entries (done ++ bad :: rest)) ∧
      Extracted t target done t t' := by
  unfold install at h
  rcases on_bind_eq_error.mp h with hmake | ⟨_, t₁, hmake, h⟩
  · obtain ⟨cause, -, hmake⟩ := on_adapt_eq_error.mp hmake
    exact ⟨[], .inl rfl, extracted_nothing fun _ => (writes_makeDirectories _).of_on hmake⟩
  have hmade (written : Location → ByteArray → Prop) : t.WritesTo written t₁ :=
    (writes_makeDirectories _).of_on (on_adapt_eq_ok.mp hmake)
  cases archive with
  | missing =>
    cases h
    exact ⟨[], .inl rfl, extracted_nothing hmade⟩
  | broken =>
    cases h
    exact ⟨[], .inl rfl, extracted_nothing hmade⟩
  | entries list =>
    rcases on_bind_eq_error.mp h with hextract | ⟨_, t₂, hextract, h⟩
    · rw [extract] at hextract
      rcases on_bind_eq_error.mp hextract with hrun | ⟨_, t₂, -, h⟩
      · obtain ⟨done, bad, rest, rfl, hdone⟩ := extracted_of_mapM (hmade _) hrun
        exact ⟨done, .inr ⟨bad, rest, rfl⟩, hdone.after hmade⟩
      · cases h
    · have htidy' := tidy_extract htidy (hmade _) hextract
      cases (on_markExecutable htidy').symm.trans h

/-! ## Look-ups -/

/-- The parser that is found is the one with the least names below the directory. -/
theorem findBinary?_eq_some_iff (htidy : t.root.Tidy) :
    findBinary? t root = some binary ↔ ∃ names, t.Below root binary names ∧
      names.getLast? = some binaryName ∧ ∀ other others, t.Below root other others →
        others.getLast? = some binaryName → names ≤ others := by
  rw [findBinary?]
  split
  · rename_i hroot
    rw [head?_filesBelow htidy hroot]
    constructor
    · rintro ⟨hwanted, names, hbelow, hleast⟩
      refine ⟨names, hbelow, hbelow.fileName?.symm.trans (of_decide_eq_true hwanted), ?_⟩
      exact fun other others hother hname =>
        hleast other others hother (decide_eq_true (hother.fileName?.trans hname))
    · rintro ⟨names, hbelow, hname, hleast⟩
      refine ⟨decide_eq_true (hbelow.fileName?.trans hname), names, hbelow, ?_⟩
      exact fun other others hother hwanted =>
        hleast other others hother (hother.fileName?.symm.trans (of_decide_eq_true hwanted))
  · rename_i hroot
    refine ⟨fun h => absurd h.symm (Option.some_ne_none _), ?_⟩
    rintro ⟨names, hbelow, -⟩
    exact absurd hbelow.isDirectory hroot

/-- After writing, a parser that was a file before is the one that was found before. -/
theorem findBinary?_of_isFile (htidy : t.root.Tidy) (hwrites : t.WritesTo written t')
    (h : findBinary? t' root = some binary) (hfile : t.isFile binary = true) :
    findBinary? t root = some binary := by
  obtain ⟨names, hbelow, hname, hleast⟩ :=
    (findBinary?_eq_some_iff (hwrites.tidy htidy)).mp h
  exact (findBinary?_eq_some_iff htidy).mpr ⟨names, hbelow.of_isFile hwrites hfile, hname,
    fun other others hother => hleast other others (hother.writes hwrites)⟩

/-- **After writing, a look-up finds what it found before if and only if it finds what was a file
before.** -/
theorem findBinary?_eq_iff (htidy : t.root.Tidy) (hwrites : t.WritesTo written t') :
    findBinary? t' root = findBinary? t root ↔
      ∀ binary, findBinary? t' root = some binary → t.isFile binary = true := by
  constructor
  · intro heq binary hbinary
    obtain ⟨names, hbelow, -⟩ := below_of_findBinary? htidy (heq ▸ hbinary)
    exact hbelow.isFile
  · intro hfile
    cases hbinary : findBinary? t' root with
    | some binary => exact (findBinary?_of_isFile htidy hwrites hbinary (hfile binary hbinary)).symm
    | none =>
      -- What had been found before would still be there.
      cases hbefore : findBinary? t root with
      | none => rfl
      | some binary =>
        obtain ⟨names, hbelow, hname⟩ := below_of_findBinary? htidy hbefore
        exact absurd hbinary
          (findBinary?_ne_none (hwrites.tidy htidy).ordered (.inl (hbelow.writes hwrites)) hname)

/-- A parser that was no file before is one that an entry has put there. -/
theorem Extracted.new_binary (htidy : t.root.Tidy) (h : Extracted t target done t t')
    (hroot : t.Fixed root top) (hbinary : findBinary? t' root = some binary)
    (hfile : t.isFile binary = false) :
    ∃ names, ∃ entry ∈ done, t'.Below root binary names ∧ names.getLast? = some binaryName ∧
      entry.Lands t target (top ++ names) entry.content ∧ t.at? (top ++ names) = none ∧
      t'.at? (top ++ names) = some (.file entry.content newFileMode) := by
  obtain ⟨names, hbelow, hname⟩ := below_of_findBinary? (h.writes.tidy htidy) hbinary
  obtain ⟨hnone, bytes, ⟨entry, hentry, hland⟩, hat⟩ :=
    hbelow.of_not_isFile h.writes hroot hfile
  obtain rfl := hland.2.1
  exact ⟨names, entry, hentry, hbelow, hname, hland, hnone, hat⟩

/-- The look-up in the directory of the release is as before if and only if no entry has put a parser
there that comes first. -/
theorem Extracted.findBinary?_own_iff (htidy : t.root.Tidy) (h : Extracted t target done t t')
    (hfixed : t.FixedEntry target top) (honly : t.OnlyFiles top) :
    findBinary? t' target = findBinary? t target ↔
      ∀ entry ∈ done, entry.makesDirectory = false → ∀ names, entry.names? = some names →
        names.getLast? = some binaryName → ∃ binary first,
          findBinary? t target = some binary ∧ t.Below target binary first ∧
          first ≤ names := by
  constructor
  · intro heq entry hentry hfile names hnames hname
    have hne : names ≠ [] := by
      rintro rfl
      cases hname
    have hbelow := h.stays entry hentry hfile names hnames hne top hfixed honly
    cases hbinary : findBinary? t' target with
    | none =>
      exact absurd hbinary (findBinary?_ne_none (h.writes.tidy htidy).ordered (.inl hbelow) hname)
    | some binary =>
      have hbefore := heq.symm.trans hbinary
      obtain ⟨first, hfirst, hlast, hleast⟩ :=
        (findBinary?_eq_some_iff (h.writes.tidy htidy)).mp hbinary
      obtain ⟨before, hbelow', -⟩ := below_of_findBinary? htidy hbefore
      exact ⟨binary, before, hbefore, hbelow',
        hfirst.names_eq hbelow' ▸ hleast _ names hbelow hname⟩
  · intro hentries
    refine (findBinary?_eq_iff htidy h.writes).mpr fun binary hbinary => ?_
    cases hfile : t.isFile binary with
    | true => rfl
    | false =>
      obtain ⟨names, entry, hentry, hbelow, hname, ⟨hmark, -, others, hothers, hplace⟩, -, -⟩ :=
        h.new_binary htidy hfixed.toFixed hbinary hfile
      cases List.append_cancel_left (hplace top hfixed honly)
      obtain ⟨before, first, hbefore, hfirst, hle⟩ :=
        hentries entry hentry hmark names hothers hname
      -- What was found before comes no later, so it is what is found now.
      obtain ⟨least, hfound, -, hleast⟩ :=
        (findBinary?_eq_some_iff (h.writes.tidy htidy)).mp hbinary
      have hlast : first.getLast? = some binaryName := by
        obtain ⟨others, hbelow', hname'⟩ := below_of_findBinary? htidy hbefore
        rw [hfirst.names_eq hbelow', hname']
      have hge := hleast before first (hfirst.writes h.writes) hlast
      rw [hfound.names_eq hbelow] at hge
      rw [hbelow.spelled, le_antisymm hge hle, ← hfirst.spelled, hfirst.isFile] at hfile
      cases hfile

/-- The directory of a release is a fixed entry of a cache that is there, unless it is a link. -/
theorem fixedEntry_directory {outer : Location} {tag : String}
    (hcache : t.locate cache true = .ok outer) (htag : Pinnable tag)
    (hlink : ∀ target, t.shell? (outer ++ [directoryName tag]) ≠ some (.link target)) :
    t.FixedEntry (directory cache tag) (outer ++ [directoryName tag]) :=
  fixedEntry_child (isName_directoryName.mpr htag) hcache hlink

/-- **An installation that fails may leave a parser behind that is served from then on.** It has
extracted the entries before the one that it fails at. A version is served what it was served before
if and only if it is served what was a file before; otherwise it is served a file that has just been
extracted, without the permission to execute it. In the directory of the release, which holds
directories and files only, that is so unless every parser that was extracted stands behind the one
that was found before. -/
theorem cached_of_failed_install (archive : Archive) (cache : Path) (tag : String)
    (htidy : t.root.Tidy)
    (hfail : on (install archive (directory cache tag)) t = (.error e, t')) :
    ∃ done, (done = [] ∨ ∃ bad rest, archive = .entries (done ++ bad :: rest)) ∧
      (∀ root, findBinary? t' root = findBinary? t root ↔
        ∀ binary, findBinary? t' root = some binary → t.isFile binary = true) ∧
      (∀ version, cached? t' cache version = cached? t cache version ↔
        ∀ binary, cached? t' cache version = some binary → t.isFile binary = true) ∧
      (∀ root top binary, t.Fixed root top → findBinary? t' root = some binary →
        t.isFile binary = false → ∃ names, ∃ entry ∈ done, entry.makesDirectory = false ∧
          t'.Below root binary names ∧ t.at? (top ++ names) = none ∧
          t'.at? (top ++ names) = some (.file entry.content newFileMode)) ∧
      (∀ top, t.FixedEntry (directory cache tag) top → t.OnlyFiles top →
        (findBinary? t' (directory cache tag) = findBinary? t (directory cache tag) ↔
          ∀ entry ∈ done, entry.makesDirectory = false → ∀ names, entry.names? = some names →
            names.getLast? = some binaryName → ∃ binary first,
              findBinary? t (directory cache tag) = some binary ∧
              t.Below (directory cache tag) binary first ∧ first ≤ names)) ∧
      ∀ (s : Service) (source : ReleaseSource) (binary : Path),
        cached? t' cache source.version = some binary →
        (provide s cache source).run t' = (some binary, t') := by
  obtain ⟨done, hdone, hextracted⟩ := extracted_of_install htidy hfail
  refine ⟨done, hdone, fun root => findBinary?_eq_iff htidy hextracted.writes, fun version => ?_, ?_,
    fun top hfixed honly => hextracted.findBinary?_own_iff htidy hfixed honly,
    fun s source binary hcached => provide_of_cached s hcached⟩
  · rw [cached?, cached?]
    split
    · exact findBinary?_eq_iff htidy hextracted.writes
    · exact findBinary?_eq_iff htidy hextracted.writes
  · intro root top binary hfixed hbinary hfile
    obtain ⟨names, entry, hentry, hbelow, -, hland, hnone, hat⟩ :=
      hextracted.new_binary htidy hfixed hbinary hfile
    exact ⟨names, entry, hentry, hland.1, hbelow, hnone, hat⟩

/-- A cache without releases. -/
def emptyCache : FileTree :=
  ⟨.directory [("c", .directory [])], [], List.forall_mem_nil _⟩

theorem tidy_emptyCache : emptyCache.root.Tidy := by
  decide +kernel

/-- An archive whose second entry leads out of the directory. -/
def strayArchive : Archive :=
  .entries [⟨"conjure", ByteArray.empty, 0o755, false⟩, ⟨"../x", ByteArray.empty, 0o755, false⟩]

/-- After the installation of such an archive has failed, its first entry is served to the version and
to those who ask for the newest one, and it cannot be executed. -/
theorem cached_strayArchive :
    cached? emptyCache ⟨"c"⟩ "v1" = none ∧
    ∃ t', on (install strayArchive (directory ⟨"c"⟩ "v1")) emptyCache = (.error .zip, t') ∧
      cached? t' ⟨"c"⟩ "v1" = some ⟨"c/v1/conjure"⟩ ∧
      cached? t' ⟨"c"⟩ latest = some ⟨"c/v1/conjure"⟩ ∧
      (∃ bytes, t'.at? ["c", "v1", "conjure"] = some (.file bytes newFileMode)) ∧
      newFileMode &&& 0o111 = 0 ∧
      ∀ (s : Service) (source : ReleaseSource), source.version = "v1" →
        (provide s ⟨"c"⟩ source).run t' = (some ⟨"c/v1/conjure"⟩, t') := by
  have hresult : (on (install strayArchive (directory ⟨"c"⟩ "v1")) emptyCache).1 = .error .zip := by
    decide +kernel
  have hpinned : cached? (on (install strayArchive (directory ⟨"c"⟩ "v1")) emptyCache).2 ⟨"c"⟩ "v1" =
      some ⟨"c/v1/conjure"⟩ := by decide +kernel
  have hlatest : cached? (on (install strayArchive (directory ⟨"c"⟩ "v1")) emptyCache).2 ⟨"c"⟩ latest =
      some ⟨"c/v1/conjure"⟩ := by decide +kernel
  have hlocate : emptyCache.locate ⟨"c"⟩ true = .ok ["c"] := by decide +kernel
  generalize hrun : on (install strayArchive (directory ⟨"c"⟩ "v1")) emptyCache = out
    at hresult hpinned hlatest
  obtain ⟨result, t'⟩ := out
  cases hresult
  obtain ⟨done, -, -, -, hnew, -, hserved⟩ :=
    cached_of_failed_install strayArchive ⟨"c"⟩ "v1" tidy_emptyCache hrun
  have hname : directoryName "v1" = "v1" := Text.toBytes_of_ascii (by decide)
  have hfixed : emptyCache.FixedEntry (directory ⟨"c"⟩ "v1") (["c"] ++ [directoryName "v1"]) := by
    refine fixedEntry_directory hlocate (by decide) fun target hlink => ?_
    rw [hname] at hlink
    cases hlink
  rw [hname] at hfixed
  obtain ⟨names, entry, -, -, hbelow, -, hat⟩ :=
    hnew _ _ _ hfixed.toFixed hpinned (by decide +kernel)
  have hnames : names = ["conjure"] :=
    Path.descend_inj hbelow.named (by decide +kernel) (hbelow.spelled.symm.trans (by decide +kernel))
  rw [hnames] at hat
  refine ⟨by decide +kernel, t', rfl, hpinned, hlatest, ⟨entry.content, hat⟩, by decide, ?_⟩
  rintro s ⟨url, version, platform, base⟩ rfl
  exact hserved s _ _ hpinned

end Release

end KeywordCensus
