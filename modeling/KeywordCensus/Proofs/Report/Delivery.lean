import KeywordCensus.Proofs.FileTree.Paving
import KeywordCensus.Report.Basic

/-!
# Writing a report

A report that is written stands in its file, and all else that is new is the directories that lead to
it (`FileTree.Delivered`). A report that is not written leaves such directories behind: they are made
before the file is opened and not removed when that fails. Otherwise nothing has changed, with one
exception. When the file is open it is empty already, so that a disk on which the writing breaks off
then keeps a beginning of the new report in place of the old one (`FileTree.Undelivered`).
-/

namespace KeywordCensus

open FileAction

namespace FileTree

variable {t t' t'' : FileTree} {p : Path} {place : Location} {text : String} {e : ReportError}
  {bytes : ByteArray}

/-- Has a tree come from another one by writing bytes to the file at a path? -/
structure Written (t : FileTree) (p : Path) (bytes : ByteArray) (t' : FileTree) : Prop where
  workDir : t'.workDir = t.workDir
  /-- The path leads to a file with the bytes, a new one or one that was there and keeps its
  permissions; everything else is as it was or a directory that leads to the path. -/
  written : ∃ place mode, t'.locate p true = .ok place ∧
    t'.at? place = some (.file bytes mode) ∧
    ((t.shell? place = none ∧ mode = newFileMode) ∨
      ∃ old, t.shell? place = some (.file old mode)) ∧
    ∀ other, other ≠ place → PavedAt (Path.Above · p) t t' other

/-- Has a tree come from another one by writing a text to the file at a path? -/
structure Delivered (t : FileTree) (p : Path) (text : String) (t' : FileTree) : Prop where
  written : t.Written p text.toUTF8 t'
  /-- The text is what is read there. -/
  reads : t'.readText p = .ok text

/-- What may a report leave behind whose file is not opened? -/
structure Unopened (t : FileTree) (p : Path) (e : ReportError) (t' : FileTree) : Prop where
  /-- Nothing is new but directories that lead to the path. -/
  paves : t.PavesTo (Path.Above · p) t'
  /-- A file that was there reads as before. -/
  reads : ∀ text, t.readText p = .ok text → t'.readText p = .ok text
  /-- A refusal names the path and changes nothing, -/
  refused : ∀ q, e = .notAFile q → q = p ∧ t' = t
  /-- and neither does a failure once the directory of the file is there. -/
  ready : (∀ parent, p.parent? = some parent → parent.text ≠ "" → t.isDirectory parent = true) →
    t' = t

/-- What may a report leave behind that is not written? -/
inductive Undelivered (d : Disk) (t : FileTree) (p : Path) (text : String) (e : ReportError)
    (t' : FileTree) : Prop
  /-- Its file was not opened. -/
  | unopened (h : t.Unopened p e t')
  /-- The disk broke off the writing, after so many bytes of the text. -/
  | brokenOff {before : FileTree} {count : Nat} {cause : IoError}
      (fault : d.writingFault before p text.toUTF8 = some (count, cause)) (reason : e = .io cause)
      (written : t.Written p (text.toUTF8.extract 0 count) t')

/-- A text is read exactly from a file that holds the bytes of one. -/
theorem readText_eq_ok : t.readText p = .ok text ↔ ∃ place bytes mode, t.locate p true = .ok place ∧
    t.at? place = some (.file bytes mode) ∧ String.fromUTF8? bytes = some text := by
  rw [readText, readBytes]
  constructor
  · intro h
    split at h
    · rename_i bytes hbytes
      split at hbytes
      · rename_i mode hfile
        cases hbytes
        obtain ⟨place, hplace, hat⟩ := lookup_eq_ok.mp hfile
        split at h
        · rename_i hread
          cases h
          exact ⟨place, bytes, mode, hplace, hat, hread⟩
        · cases h
      · cases hbytes
      · cases hbytes
    · cases h
  · rintro ⟨place, bytes, mode, hplace, hat, hread⟩
    -- The three tests on the way are met.
    rw [lookup_eq_ok.mpr ⟨place, hplace, hat⟩]
    simp only [hread]

/-- What was read before a way was paved is read after it. -/
theorem PavesTo.reads {ways : Path → Prop} (h : t.PavesTo ways t') (htext : t.readText p = .ok text) :
    t'.readText p = .ok text := by
  obtain ⟨place, bytes, mode, hplace, hfile, hread⟩ := readText_eq_ok.mp htext
  exact readText_eq_ok.mpr ⟨place, bytes, mode, locate_mono h.extends_ hplace,
    h.extends_.at? hfile Node.file_ne_directory, hread⟩

/-- A file that is written once the directories for it have been made. -/
theorem written_of_placeToWrite (hpaves : t.PavesTo (Path.Above · p) t')
    (hplace : t'.placeToWrite p = .ok place) (bytes : ByteArray) :
    t.Written p bytes (t'.alter place (overwrite bytes)) := by
  obtain ⟨hleads, hover, -⟩ := overwrites_of_placeToWrite hplace bytes
  obtain ⟨mode, hfile, hbefore⟩ := hover.file
  have hat := at?_of_shell? hfile Node.file_ne_directory
  have hways := keepsWays_of_kept hover.workDir hover.kept
  refine ⟨hover.workDir.trans hpaves.workDir, place, mode, hleads, hat, ?_, fun other hne => ?_⟩
  · -- Where the file is, no directory has been made.
    rcases hpaves.paved place with hsame | ⟨-, hnew, -⟩
    · rwa [hsame] at hbefore
    · rcases hbefore with ⟨hnone, -⟩ | ⟨old, hold⟩
      · cases hnew.symm.trans hnone
      · cases hnew.symm.trans hold
  · exact (hpaves.paved other).after hways (hover.apart other hne)

/-- A text that has been written is read back. -/
theorem Written.delivered (h : t.Written p text.toUTF8 t') : t.Delivered p text t' := by
  obtain ⟨place, mode, hplace, hat, -⟩ := h.written
  exact ⟨h, readText_eq_ok.mpr ⟨place, _, mode, hplace, hat, dif_pos text.isValidUTF8⟩⟩

end FileTree

namespace Disk

variable {d : Disk} {t t' t'' : FileTree} {p : Path} {bytes : ByteArray} {cause : IoError}

/-- One write: either it fails with the tree as it was, or the old content gives way to the bytes,
or to as many of them as there was space for. -/
theorem on_writeBytes : on (d.writeBytes p bytes) t = match t.placeToWrite p with
    | .error e => (.error e, t)
    | .ok place => match d.openingFault t p with
      | some e => (.error e, t)
      | none => match d.writingFault t p bytes with
        | none => (.ok (), t.alter place (FileTree.overwrite bytes))
        | some (count, e) =>
          (.error e, t.alter place (FileTree.overwrite (bytes.extract 0 count))) := by
  rw [writeBytes, on_get_bind]
  cases t.placeToWrite p with
  | error e => rfl
  | ok place =>
    cases d.openingFault t p with
    | some e => rfl
    | none =>
      cases d.writingFault t p bytes with
      | none => rfl
      | some fault => rfl

/-- Bytes that are written once the directories for them have been made. -/
theorem written_writeBytes (hpaves : t.PavesTo (Path.Above · p) t')
    (h : on (d.writeBytes p bytes) t' = (.ok (), t'')) : t.Written p bytes t'' := by
  rw [on_writeBytes] at h
  split at h
  · cases h
  rename_i place hplace
  split at h
  · cases h
  split at h
  · cases h
    exact FileTree.written_of_placeToWrite hpaves hplace bytes
  · cases h

/-- A failure to write leaves everything as it was, or it comes when the file is open. -/
theorem writeBytes_eq_error (hpaves : t.PavesTo (Path.Above · p) t')
    (h : on (d.writeBytes p bytes) t' = (.error cause, t'')) : t'' = t' ∨
      ∃ count, d.writingFault t' p bytes = some (count, cause) ∧
        t.Written p (bytes.extract 0 count) t'' := by
  rw [on_writeBytes] at h
  split at h
  · cases h
    exact .inl rfl
  rename_i place hplace
  split at h
  · cases h
    exact .inl rfl
  split at h
  · cases h
  · rename_i count fault hfault
    cases h
    exact .inr ⟨count, hfault, FileTree.written_of_placeToWrite hpaves hplace _⟩

end Disk

namespace Census

variable {t t' : FileTree} {settings : ReportSettings} {c : Census} {moment : String} {d : Disk}

/-- The delivery as a whole: the page is refused where something other than a file stands, else the
way is made and the text written. -/
theorem on_writeReport : on (c.writeReport d settings moment) t =
    if t.pathExists settings.output && !t.isFile settings.output then
      (.error (.notAFile settings.output), t)
    else on (ExceptT.adapt ReportError.io do
      d.makeWay settings.output
      d.writeText settings.output (c.report settings moment) :
        FileAction ReportError Unit) t := by
  rw [writeReport, on_get_bind]
  by_cases hrefused : (t.pathExists settings.output && !t.isFile settings.output) = true
  · simp only [if_pos hrefused]
    rfl
  · simp only [if_neg hrefused]

/-- **A report is written, or next to nothing has happened**, unless the disk breaks off the writing
of a file that it has opened. -/
theorem leaves_writeReport (c : Census) (d : Disk) (settings : ReportSettings) (moment : String)
    (t : FileTree) : match on (c.writeReport d settings moment) t with
      | (.ok (), t') => t.Delivered settings.output (c.report settings moment) t'
      | (.error e, t') =>
        t.Undelivered d settings.output (c.report settings moment) e t' := by
  rw [on_writeReport]
  split
  · rename_i hdone
    split at hdone
    · cases hdone
    obtain ⟨_, t₁, hway, hwrite⟩ := on_bind_eq_ok.mp (on_adapt_eq_ok.mp hdone)
    exact (d.written_writeBytes ((d.paves_makeWay _).of_on hway) hwrite).delivered
  · rename_i e t' hfailed
    split at hfailed
    · cases hfailed
      -- What stands there is not a file: the report is refused before anything is done.
      refine .unopened ⟨FileTree.pavesTo_refl t, fun _ h => h, ?_, fun _ => rfl⟩
      rintro q ⟨⟩
      exact ⟨rfl, rfl⟩
    obtain ⟨cause, rfl, hcause⟩ := on_adapt_eq_error.mp hfailed
    have hunopened (hpaves : t.PavesTo (Path.Above · settings.output) t')
        (hready : (∀ parent, settings.output.parent? = some parent → parent.text ≠ "" →
          t.isDirectory parent = true) → t' = t) :
        t.Unopened settings.output (.io cause) t' :=
      ⟨hpaves, fun _ => hpaves.reads, nofun, hready⟩
    -- The way could not be made, or the file could not be written.
    rcases on_bind_eq_error.mp hcause with hway | ⟨_, t₁, hway, hwrite⟩
    · refine .unopened (hunopened ((d.paves_makeWay _).of_on hway) fun hready => ?_)
      rw [d.on_makeWay hready] at hway
      cases hway
    · have hpaves : t.PavesTo (Path.Above · settings.output) t₁ := (d.paves_makeWay _).of_on hway
      rcases Disk.writeBytes_eq_error hpaves hwrite with rfl | ⟨count, hfault, hwritten⟩
      · refine .unopened (hunopened hpaves fun hready => ?_)
        rw [d.on_makeWay hready] at hway
        cases hway
        rfl
      · exact .brokenOff hfault rfl hwritten

/-- A tree without anything in it. -/
def emptyTree : FileTree := ⟨.directory [], [], List.forall_mem_nil _⟩

/-- A tree with a report. -/
def reportTree : FileTree :=
  ⟨.directory [("out", .file "old".toUTF8 0o644)], [], List.forall_mem_nil _⟩

/-- A disk without any space left. -/
def fullDisk : Disk := ⟨fun _ _ => none, fun _ _ => none, fun _ _ _ => some (0, .noSpace)⟩

/-- A census of no files. -/
def ofNothing : Census := ⟨Index.empty, [], none⟩

/-- The settings of a table in the file at a path. -/
def tableAt (output : Path) : ReportSettings := ⟨output, .csv, 2, none, 1, .mostUsed⟩

/-- A report fails and leaves a directory behind: the slash at the end is noticed only when the file
is opened, and by then the directory for it has been made. Another one fails and takes the old report
with it: the file is emptied when it is opened, and by then there is no space for a new report. -/
theorem directory_of_failed_report :
    ((on (ofNothing.writeReport .reliable (tableAt ⟨"new/out/"⟩) "") emptyTree).1 =
        .error (.io .isADirectory) ∧
      emptyTree.at? ["new"] = none ∧
      (on (ofNothing.writeReport .reliable (tableAt ⟨"new/out/"⟩) "") emptyTree).2.at? ["new"] =
        some (.directory [])) ∧
    (on (ofNothing.writeReport fullDisk (tableAt ⟨"out"⟩) "") reportTree).1 =
        .error (.io .noSpace) ∧
      reportTree.readText ⟨"out"⟩ = .ok "old" ∧
      (on (ofNothing.writeReport fullDisk (tableAt ⟨"out"⟩) "") reportTree).2.readText ⟨"out"⟩ =
        .ok "" :=
  ⟨⟨by rfl, rfl, by rfl⟩, by rfl, by rfl, eq_ok_of_toOption (by decide +kernel)⟩

example : (on (ofNothing.writeReport .reliable (tableAt ⟨"new/out"⟩) "") emptyTree).1 = .ok () := by
  rfl

end Census

end KeywordCensus
