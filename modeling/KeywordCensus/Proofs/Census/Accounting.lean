import Mathlib.Data.Set.Card
import KeywordCensus.Proofs.Census.Discovery
import KeywordCensus.Proofs.FileTree.Canonical
import KeywordCensus.Proofs.FileTree.Growth

/-!
# What a census under a cap accounts for

The cap counts candidates, and a candidate is a path. A file that is met by two paths, because a root
is listed twice, lies inside another one or is a link to it, takes two places under the cap, and two
lines of the ledger if it is refused. A candidate that is out of reach takes a place and a line, too,
and leads to no file at all. So the files that are accounted for, by the index or by the ledger, are
among those of the first candidates (`Census.Accounting`).

Each of these is accounted for, but for one case: an index knows its files by what is shown of their
paths, so of two files that are shown alike only the first one is indexed, and nothing is said about
the other (`Census.Overshadowed`). The files that are accounted for are as many as the cap allows
exactly if the first candidates lead to different ones, all accounted for, or if these are all.
-/

namespace KeywordCensus

section Distinct

variable {α β : Type} [DecidableEq β] {f : α → Option β} {xs : List α} {n : Nat} {A : Finset β}

/-- Of what the first items give there is not more than there are first ones, or than all give, -/
theorem card_le_min (hA : ∀ b ∈ A, b ∈ (xs.take n).filterMap f) :
    A.card ≤ min n (xs.filterMap f).toFinset.card := by
  have hfirst : A ⊆ ((xs.take n).filterMap f).toFinset :=
    fun b hb => List.mem_toFinset.mpr (hA b hb)
  have hall : A ⊆ (xs.filterMap f).toFinset := fun b hb =>
    List.mem_toFinset.mpr (((List.take_sublist n xs).filterMap f).subset (hA b hb))
  have hlength : ((xs.take n).filterMap f).toFinset.card ≤ n :=
    (List.toFinset_card_le _).trans ((List.length_filterMap_le f _).trans (List.length_take_le n xs))
  exact Nat.le_min.mpr ⟨(Finset.card_le_card hfirst).trans hlength, Finset.card_le_card hall⟩

/-- and there is as much exactly if they give different things, none of which is missing, or if nothing
is missing at all. -/
theorem card_eq_min_iff (hA : ∀ b ∈ A, b ∈ (xs.take n).filterMap f) :
    A.card = min n (xs.filterMap f).toFinset.card ↔
      ((∀ x ∈ xs.take n, ∃ b ∈ A, f x = some b) ∧ ((xs.take n).filterMap f).Nodup) ∨
        ∀ b ∈ xs.filterMap f, b ∈ A := by
  have hle := card_le_min hA
  have hfirst : A ⊆ ((xs.take n).filterMap f).toFinset :=
    fun b hb => List.mem_toFinset.mpr (hA b hb)
  have hall : A ⊆ (xs.filterMap f).toFinset := fun b hb =>
    List.mem_toFinset.mpr (((List.take_sublist n xs).filterMap f).subset (hA b hb))
  have hcard := Finset.card_le_card hfirst
  have hdistinct : ((xs.take n).filterMap f).toFinset.card ≤ ((xs.take n).filterMap f).length :=
    List.toFinset_card_le _
  have hgiven : ((xs.take n).filterMap f).length ≤ (xs.take n).length := List.length_filterMap_le f _
  have htake : (xs.take n).length = min n xs.length := List.length_take
  have htotal : (xs.filterMap f).toFinset.card ≤ xs.length :=
    (List.toFinset_card_le _).trans (List.length_filterMap_le f _)
  constructor
  · intro heq
    rcases Nat.le_total n (xs.filterMap f).toFinset.card with hn | hn
    · -- Nothing is lost between the first items and what they give.
      left
      have hsame := Finset.eq_of_subset_of_card_le hfirst (by omega)
      have hnodup : ((xs.take n).filterMap f).dedup = (xs.take n).filterMap f := by
        refine (List.dedup_sublist _).eq_of_length ?_
        rw [← List.card_toFinset]
        omega
      have hsome := List.filterMap_length_eq_length.mp
        (by omega : ((xs.take n).filterMap f).length = (xs.take n).length)
      refine ⟨fun x hx => ?_, List.dedup_eq_self.mp hnodup⟩
      obtain ⟨b, hb⟩ := Option.isSome_iff_exists.mp (hsome x hx)
      exact ⟨b, hsame ▸ List.mem_toFinset.mpr (List.mem_filterMap.mpr ⟨x, hx, hb⟩), hb⟩
    · right
      intro b hb
      -- There are no more files than that, so none is left out.
      have hsame := Finset.eq_of_subset_of_card_le hall (by omega)
      exact hsame ▸ List.mem_toFinset.mpr hb
  · rintro (⟨hgives, hnodup⟩ | hnone)
    · -- Every one of the first items gives its own file, and that is accounted for.
      have hsubset : ((xs.take n).filterMap f).toFinset ⊆ A := by
        intro b hb
        obtain ⟨x, hx, hxb⟩ := List.mem_filterMap.mp (List.mem_toFinset.mp hb)
        obtain ⟨a, ha, hxa⟩ := hgives x hx
        cases hxb.symm.trans hxa
        exact ha
      have hmore := Finset.card_le_card hsubset
      have hlength : ((xs.take n).filterMap f).length = (xs.take n).length := by
        refine List.filterMap_length_eq_length.mpr fun x hx => ?_
        obtain ⟨b, -, hb⟩ := hgives x hx
        exact Option.isSome_iff_exists.mpr ⟨b, hb⟩
      rw [List.toFinset_card_of_nodup hnodup] at hmore
      omega
    · have hsubset : (xs.filterMap f).toFinset ⊆ A :=
        fun b hb => hnone b (List.mem_toFinset.mp hb)
      have hmore := Finset.card_le_card hsubset
      omega

omit [DecidableEq β] in
/-- Items that give something stand beside what they give. -/
theorem forall₂_filterMap (f : α → Option β) (xs : List α) :
    List.Forall₂ (fun b x => f x = some b) (xs.filterMap f) (xs.filter fun x => (f x).isSome) := by
  induction xs with
  | nil => exact .nil
  | cons x rest ih =>
    rw [List.filterMap_cons, List.filter_cons]
    cases hx : f x with
    | none => exact ih
    | some b => exact .cons hx ih

end Distinct

namespace Census

variable {settings : CensusSettings} {t : FileTree} {oracle : Oracle} {blocked : TextSet}
  {cs refused : List Candidate} {hit other : Candidate} {file : Path} {c : Census}

/-- The file that a path leads to, by its canonical path. -/
def fileAt? (t : FileTree) (p : Path) : Option Path := (t.canonicalize p).toOption

/-- The files that are met with some candidates, one for each of them that leads to one. -/
def filesMet (t : FileTree) (cs : List Candidate) : List Path :=
  cs.filterMap fun c => fileAt? t c.path

/-- The files that are indexed. -/
def indexed (c : Census) : List Path := c.files.map Specification.path

/-- Are these the candidates that the lines of the ledger were put down for? -/
def LedgerOf (t : FileTree) (oracle : Oracle) (blocked : TextSet) (c : Census)
    (refused : List Candidate) : Prop :=
  List.Forall₂ (fun s hit => Scan.refused? t oracle blocked hit = some s) c.skipped refused

/-- Is a file indexed or skipped, if the lines of the ledger were put down for these candidates? -/
def Accounted (t : FileTree) (c : Census) (refused : List Candidate) (file : Path) : Prop :=
  file ∈ c.indexed ∨ file ∈ filesMet t refused

/-- May a census have a file? It is one that some path below a root leads to, which is not left
out. -/
def Eligible (settings : CensusSettings) (t : FileTree) (file : Path) : Prop :=
  ∃ root ∈ settings.roots, ∃ p names, t.Below root.1 p names ∧ p.isEssence = true ∧
    settings.admission.excluded p = false ∧ t.canonicalize p = .ok file

/-- The files that some candidates give, in their order. -/
def given (t : FileTree) (oracle : Oracle) (blocked : TextSet) (cs : List Candidate) :
    List Specification := cs.filterMap (Scan.accepted? t oracle blocked)

/-- Does a file come after another one that is shown alike? -/
def Overshadowed (t : FileTree) (oracle : Oracle) (blocked : TextSet) (cs : List Candidate)
    (file : Path) : Prop :=
  (∃ f ∈ given t oracle blocked cs, f.path = file) ∧
    ∃ f, (given t oracle blocked cs).find? (fun f => f.path.shown = file.shown) = some f ∧
      f.path ≠ file

/-! ## Candidates and files -/

/-- Is what candidates lead to an Essence file? -/
def Lead (t : FileTree) (cs : List Candidate) : Prop :=
  ∀ c ∈ cs, ∀ file, fileAt? t c.path = some file → Specification.canonicalPath? t c.path = some file

theorem fileAt?_eq_some {p : Path} : fileAt? t p = some file ↔ t.canonicalize p = .ok file := by
  rw [fileAt?]
  cases t.canonicalize p with
  | error e =>
    show none = some file ↔ Except.error e = .ok file
    exact iff_of_false (Option.some_ne_none file).symm fun h => by cases h
  | ok other =>
    show some other = some file ↔ Except.ok other = .ok file
    rw [Option.some.injEq, Except.ok.injEq]

theorem mem_filesMet : file ∈ filesMet t cs ↔ ∃ hit ∈ cs, fileAt? t hit.path = some file :=
  List.mem_filterMap

/-- What a candidate gives is the file that it leads to. -/
theorem fileAt?_of_load {found : Specification}
    (h : Specification.load t oracle blocked hit.path = .ok found) :
    fileAt? t hit.path = some found.path :=
  fileAt?_eq_some.mpr (Specification.canonicalPath?_eq_some (Specification.load_eq_ok h).1)

/-- All candidates that lead to a file can be loaded, or none of them. -/
theorem load_of_fileAt? (hlead : Lead t cs) (hhit : hit ∈ cs) (hother : other ∈ cs)
    (hfile : fileAt? t hit.path = some file) (hsame : fileAt? t other.path = some file) :
    Specification.load t oracle blocked hit.path = Specification.load t oracle blocked other.path :=
  Specification.load_congr (hlead hit hhit file hfile) (hlead other hother file hsame)

theorem refused?_isSome : (Scan.refused? t oracle blocked hit).isSome = true ↔
    ∃ e, Specification.load t oracle blocked hit.path = .error e := by
  rw [Scan.refused?]
  cases Specification.load t oracle blocked hit.path with
  | ok found =>
    refine iff_of_false Bool.false_ne_true ?_
    rintro ⟨e, he⟩
    cases he
  | error e => exact iff_of_true rfl ⟨e, rfl⟩

/-- The candidates that are refused, of some. -/
def refusedAmong (t : FileTree) (oracle : Oracle) (blocked : TextSet) (cs : List Candidate) :
    List Candidate := cs.filter fun hit => (Scan.refused? t oracle blocked hit).isSome

theorem mem_refusedAmong : hit ∈ refusedAmong t oracle blocked cs ↔
    hit ∈ cs ∧ ∃ e, Specification.load t oracle blocked hit.path = .error e := by
  rw [refusedAmong, List.mem_filter, refused?_isSome]

theorem mem_given {f : Specification} : f ∈ given t oracle blocked cs ↔ ∃ hit ∈ cs, ∃ found,
    Specification.load t oracle blocked hit.path = .ok found ∧
      f = found.inRepository hit.repository := by
  rw [given, List.mem_filterMap]
  refine exists_congr fun hit => and_congr_right fun _ => ?_
  constructor
  · exact Scan.accepted?_eq_some
  · rintro ⟨found, hload, rfl⟩
    rw [Scan.accepted?, hload]

/-- A census of some candidates, however they were cut into parts. -/
structure HoldsScan (t : FileTree) (oracle : Oracle) (blocked : TextSet) (cs : List Candidate)
    (c : Census) : Prop where
  files : c.index.files = (Scan.ofCandidates t oracle blocked cs).index.files
  skipped : c.skipped = (Scan.ofCandidates t oracle blocked cs).skipped

section Scanned

variable (hlead : Lead t cs) (hscan : HoldsScan t oracle blocked cs c)

include hscan

/-- A file is indexed if it is the first one that is shown as it is. -/
theorem mem_indexed : file ∈ c.indexed ↔ ∃ f,
    (given t oracle blocked cs).find? (fun f => f.path.shown = file.shown) = some f ∧
      f.path = file := by
  rw [indexed, files, hscan.files, Scan.ofCandidates_eq, List.mem_map]
  constructor
  · rintro ⟨f, hf, rfl⟩
    obtain ⟨key, hkey⟩ := SortedMap.mem_values.mp hf
    rw [Index.get?_ofFiles fun _ hfile => Scan.sound_of_accepted hfile] at hkey
    have hshown := List.find?_some hkey
    obtain rfl : f.path.shown = key := of_decide_eq_true hshown
    exact ⟨f, hkey, rfl⟩
  · rintro ⟨f, hf, rfl⟩
    refine ⟨f, SortedMap.mem_values.mpr ⟨f.path.shown, ?_⟩, rfl⟩
    rw [Index.get?_ofFiles fun _ hfile => Scan.sound_of_accepted hfile]
    exact hf

/-- The lines of the ledger were put down for the candidates that are refused. -/
theorem ledgerOf_refusedAmong :
    LedgerOf t oracle blocked c (refusedAmong t oracle blocked cs) := by
  rw [LedgerOf, hscan.skipped, Scan.ofCandidates_eq]
  exact forall₂_filterMap ..

include hlead

/-- No file is both indexed and in the ledger, -/
theorem not_mem_ledger (h : file ∈ c.indexed) :
    file ∉ filesMet t (refusedAmong t oracle blocked cs) := by
  intro hmem
  obtain ⟨f, hf, rfl⟩ := (mem_indexed hscan).mp h
  obtain ⟨hit, hhit, found, hload, rfl⟩ := mem_given.mp (List.mem_of_find?_eq_some hf)
  obtain ⟨other, hother, hsame⟩ := mem_filesMet.mp hmem
  obtain ⟨hother, e, he⟩ := mem_refusedAmong.mp hother
  have hfile : fileAt? t hit.path = some found.path := fileAt?_of_load hload
  rw [load_of_fileAt? hlead hhit hother hfile hsame, he] at hload
  cases hload

/-- **and a file that is met is in one of them**, unless another one comes before that is shown
alike. -/
theorem accounted_iff : Accounted t c (refusedAmong t oracle blocked cs) file ↔
    file ∈ filesMet t cs ∧ ¬ Overshadowed t oracle blocked cs file := by
  constructor
  · rintro (hindexed | hledger)
    · obtain ⟨f, hf, rfl⟩ := (mem_indexed hscan).mp hindexed
      obtain ⟨hit, hhit, found, hload, rfl⟩ := mem_given.mp (List.mem_of_find?_eq_some hf)
      have hfile : fileAt? t hit.path = some found.path := fileAt?_of_load hload
      refine ⟨mem_filesMet.mpr ⟨hit, hhit, hfile⟩, ?_⟩
      rintro ⟨-, g, hg, hne⟩
      exact hne (Option.some.inj (hf.symm.trans hg) ▸ rfl)
    · obtain ⟨hit, hhit, hfile⟩ := mem_filesMet.mp hledger
      obtain ⟨hhit, e, he⟩ := mem_refusedAmong.mp hhit
      refine ⟨mem_filesMet.mpr ⟨hit, hhit, hfile⟩, ?_⟩
      -- Were it given by a candidate, this one would not be refused.
      rintro ⟨⟨f, hf, rfl⟩, -⟩
      obtain ⟨other, hother, found, hload, rfl⟩ := mem_given.mp hf
      have hsame : fileAt? t other.path = some found.path := fileAt?_of_load hload
      rw [load_of_fileAt? hlead hother hhit hsame hfile, he] at hload
      cases hload
  · rintro ⟨hmet, hshadow⟩
    obtain ⟨hit, hhit, hfile⟩ := mem_filesMet.mp hmet
    cases hload : Specification.load t oracle blocked hit.path with
    | error e => exact .inr (mem_filesMet.mpr ⟨hit, mem_refusedAmong.mpr ⟨hhit, e, hload⟩, hfile⟩)
    | ok found =>
      left
      cases (fileAt?_of_load hload).symm.trans hfile
      have hmem := mem_given.mpr ⟨hit, hhit, found, hload, rfl⟩
      have hsome : ((given t oracle blocked cs).find?
          fun f => f.path.shown = found.path.shown).isSome = true :=
        List.find?_isSome.mpr ⟨_, hmem, decide_eq_true rfl⟩
      obtain ⟨f, hf⟩ := Option.isSome_iff_exists.mp hsome
      refine (mem_indexed hscan).mpr ⟨f, hf, ?_⟩
      by_contra hne
      exact hshadow ⟨⟨_, hmem, rfl⟩, f, hf, hne⟩

omit hscan in
/-- A file in the ledger has as many lines as it is met. -/
theorem count_ledger (h : file ∈ filesMet t (refusedAmong t oracle blocked cs)) :
    (filesMet t (refusedAmong t oracle blocked cs)).count file = (filesMet t cs).count file := by
  obtain ⟨hit, hhit, hfile⟩ := mem_filesMet.mp h
  obtain ⟨hhit, e, he⟩ := mem_refusedAmong.mp hhit
  rw [filesMet, filesMet, List.count_filterMap, List.count_filterMap, refusedAmong,
    List.countP_filter]
  refine List.countP_congr fun other hother => ?_
  rw [Bool.and_eq_true]
  refine and_iff_left_of_imp fun hsame => refused?_isSome.mpr ⟨e, ?_⟩
  rw [← load_of_fileAt? hlead hhit hother hfile (beq_iff_eq.mp hsame)]
  exact he

end Scanned

/-- A candidate that leads to no file is refused. -/
theorem mem_refusedAmong_of_none (hhit : hit ∈ cs) (h : fileAt? t hit.path = none) :
    hit ∈ refusedAmong t oracle blocked cs := by
  refine mem_refusedAmong.mpr ⟨hhit, ?_⟩
  cases hload : Specification.load t oracle blocked hit.path with
  | ok found => cases h.symm.trans (fileAt?_of_load hload)
  | error e => exact ⟨e, rfl⟩

/-- Where files are told apart by what is shown of their paths, none is overshadowed. -/
theorem not_overshadowed (h : Index.ToldApart (· ∈ given t oracle blocked cs)) :
    ¬ Overshadowed t oracle blocked cs file := by
  rintro ⟨⟨f, hf, rfl⟩, g, hg, hne⟩
  have hshown := List.find?_some hg
  exact hne (h _ _ (List.mem_of_find?_eq_some hg) hf (of_decide_eq_true hshown))

/-! ## The files below the roots -/

section Roots

variable (hordered : t.root.Ordered)
  (hroots : ∀ root ∈ settings.roots, t.isDirectory root.1 = true)

include hordered hroots

/-- A candidate leads to a file below a root, or is out of reach. -/
theorem below_of_mem_hits (h : hit ∈ settings.hits t) :
    ∃ root ∈ settings.roots, hit.path.isEssence = true ∧
      settings.admission.excluded hit.path = false ∧
      ∃ names, t.Below root.1 hit.path names ∨ t.OutOfReach root.1 hit.path names := by
  obtain ⟨root, hroot, hbelow, hkept, -⟩ := CensusSettings.mem_hits.mp h
  obtain ⟨hessence, hnames⟩ :=
    (FileTree.mem_filesBelow_iff hordered (hroots root hroot)).mp hbelow
  exact ⟨root, hroot, hessence, hkept, hnames⟩

theorem lead_hits : Lead t (settings.hits t) := by
  intro hit hhit file hfile
  obtain ⟨root, -, hessence, -, names, hbelow | hhidden⟩ := below_of_mem_hits hordered hroots hhit
  · obtain ⟨other, hother, hcanonical⟩ := hbelow.canonical hessence
    cases (fileAt?_eq_some.mp hfile).symm.trans hother
    exact hcanonical
  · cases (fileAt?_eq_some.mp hfile).symm.trans hhidden.canonicalPath?_eq.1

/-- The files that are met are those that a census may have. -/
theorem mem_filesMet_hits : file ∈ filesMet t (settings.hits t) ↔ Eligible settings t file := by
  rw [mem_filesMet]
  constructor
  · rintro ⟨hit, hhit, hfile⟩
    obtain ⟨root, hroot, hessence, hkept, names, hbelow | hhidden⟩ :=
      below_of_mem_hits hordered hroots hhit
    · exact ⟨root, hroot, hit.path, names, hbelow, hessence, hkept, fileAt?_eq_some.mp hfile⟩
    · cases (fileAt?_eq_some.mp hfile).symm.trans hhidden.canonicalPath?_eq.1
  · rintro ⟨root, hroot, p, names, hnames, hessence, hkept, hfile⟩
    have hbelow := (FileTree.mem_filesBelow_iff hordered (hroots root hroot)).mpr
      ⟨hessence, names, .inl hnames⟩
    exact ⟨⟨p, _⟩, CensusSettings.mem_hits.mpr ⟨root, hroot, hbelow, hkept, rfl⟩,
      fileAt?_eq_some.mpr hfile⟩

end Roots

/-! ## The account of a census -/

/-- What a census accounts for that has taken some candidates, the first ones below its roots, and has
put down lines in its ledger for some of these. -/
structure Accounting (settings : CensusSettings) (t : FileTree) (oracle : Oracle)
    (first : List Candidate) (c : Census) (refused : List Candidate) : Prop where
  /-- A line of the ledger is put down for each refused candidate, in their order. -/
  ledger : LedgerOf t oracle settings.blocked c refused
  among : refused.Sublist first
  /-- Candidates are met in walking order and root by root. What they lead to are the eligible files;
  a candidate that leads to none is out of reach, and it is refused. -/
  eligible : ∀ file, file ∈ filesMet t (settings.hits t) ↔ Eligible settings t file
  nowhere : ∀ hit ∈ settings.hits t, fileAt? t hit.path = none →
    (∃ root ∈ settings.roots, ∃ names, t.OutOfReach root.1 hit.path names) ∧
      (hit ∈ first → hit ∈ refused)
  /-- The files of the first candidates are accounted for, unless they are overshadowed. -/
  accounted : ∀ file, Accounted t c refused file ↔
    file ∈ filesMet t first ∧ ¬ Overshadowed t oracle settings.blocked first file
  /-- No file is indexed twice, or indexed and skipped. -/
  indexedOnce : c.indexed.Nodup
  either : ∀ file ∈ c.indexed, file ∉ filesMet t refused
  /-- A file in the ledger has a line for every time it is met. -/
  lines : ∀ file ∈ filesMet t refused, (filesMet t refused).count file = (filesMet t first).count file
  /-- Where files are told apart by what is shown of their paths, none is overshadowed. -/
  apart : Index.ToldApart (· ∈ given t oracle settings.blocked first) →
    ∀ file, ¬ Overshadowed t oracle settings.blocked first file
  /-- Without a cap all candidates are taken. -/
  all : settings.maxFiles = none → first = settings.hits t
  /-- A cap is not exceeded, and it is used up by different files exactly if the first candidates lead
  to different ones, all accounted for, or if all files are accounted for. -/
  number : ∀ limit, settings.maxFiles = some limit →
    Set.ncard {file | Accounted t c refused file} ≤
      min limit (Set.ncard {file | Eligible settings t file}) ∧
    (Set.ncard {file | Accounted t c refused file} =
      min limit (Set.ncard {file | Eligible settings t file}) ↔
      ((∀ hit ∈ first, ∃ file, Accounted t c refused file ∧ fileAt? t hit.path = some file) ∧
        (filesMet t first).Nodup) ∨
      ∀ file, Eligible settings t file → Accounted t c refused file)

/-- The numbers of files under a cap. -/
theorem ncard_accounted {limit : Nat} (hlimit : settings.maxFiles = some limit)
    (heligible : ∀ file, file ∈ filesMet t (settings.hits t) ↔ Eligible settings t file)
    (haccounted : ∀ file, Accounted t c refused file →
      file ∈ filesMet t (settings.admission.cap (settings.hits t))) :
    Set.ncard {file | Accounted t c refused file} ≤
      min limit (Set.ncard {file | Eligible settings t file}) ∧
    (Set.ncard {file | Accounted t c refused file} =
      min limit (Set.ncard {file | Eligible settings t file}) ↔
      ((∀ hit ∈ settings.admission.cap (settings.hits t),
          ∃ file, Accounted t c refused file ∧ fileAt? t hit.path = some file) ∧
        (filesMet t (settings.admission.cap (settings.hits t))).Nodup) ∨
      ∀ file, Eligible settings t file → Accounted t c refused file) := by
  rw [settings.admission.cap_of_some hlimit] at haccounted ⊢
  -- Both sets are those of lists, so their sizes are compared there.
  have hfinite : ∀ file, file ∈ (c.indexed ++ filesMet t refused).toFinset ↔
      Accounted t c refused file := by
    intro file
    rw [List.mem_toFinset, List.mem_append, Accounted]
  have hsome : {file | Accounted t c refused file} =
      (c.indexed ++ filesMet t refused).toFinset := by
    ext file
    exact (hfinite file).symm
  have hall : {file | Eligible settings t file} = (filesMet t (settings.hits t)).toFinset := by
    ext file
    rw [List.coe_toFinset]
    exact (heligible file).symm
  have hfirst : ∀ file ∈ (c.indexed ++ filesMet t refused).toFinset,
      file ∈ ((settings.hits t).take limit).filterMap fun hit => fileAt? t hit.path :=
    fun file hfile => haccounted file ((hfinite file).mp hfile)
  rw [hsome, hall, Set.ncard_coe_finset, Set.ncard_coe_finset]
  refine ⟨card_le_min hfirst, (card_eq_min_iff hfirst).trans (or_congr ?_ ?_)⟩
  · refine and_congr_left' (forall₂_congr fun hit _ => exists_congr fun file => ?_)
    rw [hfinite]
  · exact forall_congr' fun file => imp_congr (heligible file) (hfinite file)

/-- **A census accounts for the files of its first candidates** that are not overshadowed, however the
candidates are cut into parts, and each of these is indexed or has as many lines in the ledger as it is
met. -/
theorem accounting_ofOracle (settings : CensusSettings) (t : FileTree) (oracle : Oracle)
    (hordered : t.root.Ordered) (hroots : ∀ root ∈ settings.roots, t.isDirectory root.1 = true) :
    settings.candidates t = .ok (settings.admission.cap (settings.hits t)) ∧
    (∃ c, ofOracle settings t oracle = .ok c ∧ Outcome settings t oracle c) ∧
    ∀ c, Outcome settings t oracle c → ∃ refused,
      Accounting settings t oracle (settings.admission.cap (settings.hits t)) c refused := by
  have hcandidates := CensusSettings.candidates_eq (t := t) hroots
  have hfirst : Lead t (settings.admission.cap (settings.hits t)) := fun hit hhit =>
    lead_hits hordered hroots hit ((settings.admission.cap_prefix _).subset hhit)
  have hcensus : ∃ c, ofOracle settings t oracle = .ok c := by
    rw [ofOracle, hcandidates]
    exact ⟨_, rfl⟩
  refine ⟨hcandidates, ?_, fun c hc => ?_⟩
  · obtain ⟨c, hc⟩ := hcensus
    exact ⟨c, hc, outcome_of_ofOracle hc⟩
  obtain ⟨cs, hcs, hfiles, hskipped⟩ := files_of_outcome hc
  cases hcandidates.symm.trans hcs
  have hscan : HoldsScan t oracle settings.blocked _ c := ⟨hfiles, hskipped⟩
  refine ⟨refusedAmong t oracle settings.blocked (settings.admission.cap (settings.hits t)), ?_⟩
  constructor
  case ledger => exact ledgerOf_refusedAmong hscan
  case among => exact List.filter_sublist
  case eligible => exact fun file => mem_filesMet_hits hordered hroots
  case nowhere =>
    -- What is below its root leads to a file, so this candidate is out of reach there.
    intro hit hhit hnone
    refine ⟨?_, fun hmem => mem_refusedAmong_of_none hmem hnone⟩
    obtain ⟨root, hroot, hessence, -, names, hbelow | hhidden⟩ :=
      below_of_mem_hits hordered hroots hhit
    · obtain ⟨file, hfile, -⟩ := hbelow.canonical hessence
      cases hnone.symm.trans (fileAt?_eq_some.mpr hfile)
    · exact ⟨root, hroot, names, hhidden⟩
  case accounted => exact fun file => accounted_iff hfirst hscan
  case indexedOnce =>
    rw [indexed, files, hfiles]
    exact Index.nodup_paths (Scan.consistent_ofCandidates _)
  case either => exact fun file hfile => not_mem_ledger hfirst hscan hfile
  case lines => exact fun file hfile => count_ledger hfirst hfile
  case apart => exact fun hapart file => not_overshadowed hapart
  case all => exact fun hnone => Admission.cap_of_none hnone _
  case number =>
    intro limit hlimit
    exact ncard_accounted hlimit (fun file => mem_filesMet_hits hordered hroots)
      fun file hfile => ((accounted_iff hfirst hscan).mp hfile).1

/-- A tree with the clones of two repositories. -/
def clonesTree : FileTree :=
  ⟨.directory [("c", .directory
    [("a", .directory [("r", .directory [("x.essence", .file "find x\n".toUTF8 0o644)])]),
      ("b", .directory [("s", .directory [("y.essence", .file "find y\n".toUTF8 0o644)])])])],
    [], List.forall_mem_nil _⟩

/-- The settings for two files, with two branches of the first repository. -/
def branchesSettings : CensusSettings :=
  ⟨⟨"/c"⟩, [⟨"a/r", "master", ⟨"a", "r"⟩⟩, ⟨"a/r", "main", ⟨"a", "r"⟩⟩,
    ⟨"b/s", "master", ⟨"b", "s"⟩⟩], .binary ⟨"/conjure"⟩, ⟨60000⟩, SortedMap.empty, none, some 2,
    false⟩

/-- An oracle that refuses everything. -/
def refusingOracle : Oracle :=
  ⟨fun _ => .error (.rejected "exit status: 1" "no answer"), .ok ⟨none, none⟩⟩

theorem tidy_clonesTree : clonesTree.root.Tidy := by
  decide +kernel

theorem isDirectory_clonesTree :
    ∀ root ∈ branchesSettings.roots, clonesTree.isDirectory root.1 = true := by
  decide +kernel

/-- The first candidates in that tree: one file, met for both branches. -/
def firstClones : List Candidate :=
  [⟨⟨"/c/a/r/x.essence"⟩, "a/r"⟩, ⟨⟨"/c/a/r/x.essence"⟩, "a/r"⟩]

theorem cap_clonesTree :
    branchesSettings.admission.cap (branchesSettings.hits clonesTree) = firstClones := by
  decide +kernel

/-- The account with two branches of one repository. -/
theorem accounting_branches : clonesTree.root.Ordered ∧
    (∀ root ∈ branchesSettings.roots, clonesTree.isDirectory root.1 = true) ∧
    ∃ c refused, ofOracle branchesSettings clonesTree refusingOracle = .ok c ∧
      Accounting branchesSettings clonesTree refusingOracle firstClones c refused := by
  obtain ⟨-, ⟨c, hc, houtcome⟩, haccounting⟩ := accounting_ofOracle branchesSettings clonesTree
    refusingOracle tidy_clonesTree.ordered isDirectory_clonesTree
  obtain ⟨refused, hrefused⟩ := haccounting c houtcome
  rw [cap_clonesTree] at hrefused
  exact ⟨tidy_clonesTree.ordered, isDirectory_clonesTree, c, refused, hc, hrefused⟩

/-- A tree with a file out of reach, and another one after it. -/
def hiddenTree : FileTree :=
  ⟨.directory [("c", .directory [("a", .directory [("r", .directory
    [("d", .closed true [("x.essence", .file)]), ("y.essence", .file "find y\n".toUTF8 0o644)])])])],
    [], List.forall_mem_nil _⟩

/-- The settings for one file of one repository. -/
def firstSettings : CensusSettings :=
  { branchesSettings with remotes := [⟨"a/r", "master", ⟨"a", "r"⟩⟩], maxFiles := some 1 }

theorem ordered_hiddenTree : hiddenTree.root.Ordered := by
  decide +kernel

theorem isDirectory_hiddenTree :
    ∀ root ∈ firstSettings.roots, hiddenTree.isDirectory root.1 = true := by
  decide +kernel

/-- The eligible files are as many as different ones are met. -/
theorem ncard_eligible (hordered : t.root.Ordered)
    (hroots : ∀ root ∈ settings.roots, t.isDirectory root.1 = true) {files : List Path}
    (hmet : filesMet t (settings.hits t) = files) :
    Set.ncard {file | Eligible settings t file} = files.toFinset.card := by
  have heligible : {file | Eligible settings t file} = files.toFinset := by
    ext file
    rw [List.coe_toFinset, ← hmet]
    exact (mem_filesMet_hits hordered hroots).symm
  rw [heligible, Set.ncard_coe_finset]

/-- With nothing indexed, the files accounted for are as many as different ones are refused. -/
theorem ncard_refused (hindexed : c.indexed = []) {files : List Path}
    (hmet : filesMet t refused = files) :
    Set.ncard {file | Accounted t c refused file} = files.toFinset.card := by
  have haccounted : {file | Accounted t c refused file} = files.toFinset := by
    ext file
    rw [List.coe_toFinset, ← hmet]
    show Accounted t c refused file ↔ file ∈ filesMet t refused
    rw [Accounted, hindexed]
    exact or_iff_right List.not_mem_nil
  rw [haccounted, Set.ncard_coe_finset]

/-- What a census that indexes nothing has in its ledger. -/
theorem ledger_of_refusing
    (hroots : ∀ root ∈ settings.roots, t.isDirectory root.1 = true) {texts : List String}
    (h : (ofOracle settings t refusingOracle).toOption.map
      (fun c => (c.skipped.map fun s => s.path, c.indexed)) = some (texts, [])) :
    ∃ c, ofOracle settings t refusingOracle = .ok c ∧ (c.skipped.map fun s => s.path) = texts ∧
      c.indexed = [] ∧ LedgerOf t refusingOracle settings.blocked c
        (refusedAmong t refusingOracle settings.blocked
          (settings.admission.cap (settings.hits t))) := by
  obtain ⟨c, hc, hread⟩ := Option.map_eq_some_iff.mp h
  obtain ⟨htexts, hindexed⟩ := Prod.mk.inj hread
  have hc := eq_ok_of_toOption hc
  obtain ⟨cs, hcandidates, hindex, hskipped, -⟩ := ofOracle_eq_ok hc
  rw [CensusSettings.candidates_eq hroots] at hcandidates
  obtain rfl := Except.ok.inj hcandidates
  exact ⟨c, hc, htexts, hindexed, ledgerOf_refusedAmong ⟨by rw [hindex], hskipped⟩⟩

/-- **A file that is met twice uses up the cap and has two lines in the ledger.** A file out of reach
uses it up as well, and leaves the one after it without a line. -/
theorem fewer_accounted :
    (clonesTree.root.Tidy ∧
      (∀ root ∈ branchesSettings.roots, clonesTree.isDirectory root.1 = true) ∧
      branchesSettings.maxFiles = some 2 ∧
      ∃ c refused, ofOracle branchesSettings clonesTree refusingOracle = .ok c ∧
        (c.skipped.map fun s => s.path) = ["/c/a/r/x.essence", "/c/a/r/x.essence"] ∧
        LedgerOf clonesTree refusingOracle branchesSettings.blocked c refused ∧
        ¬ (filesMet clonesTree refused).Nodup ∧
        Set.ncard {file | Eligible branchesSettings clonesTree file} = 2 ∧
        Set.ncard {file | Accounted clonesTree c refused file} = 1) ∧
    (hiddenTree.root.Ordered ∧
      (∀ root ∈ firstSettings.roots, hiddenTree.isDirectory root.1 = true) ∧
      firstSettings.maxFiles = some 1 ∧
      ∃ c refused, ofOracle firstSettings hiddenTree refusingOracle = .ok c ∧
        (c.skipped.map fun s => s.path) = ["/c/a/r/d/x.essence"] ∧
        LedgerOf hiddenTree refusingOracle firstSettings.blocked c refused ∧
        Set.ncard {file | Eligible firstSettings hiddenTree file} = 1 ∧
        Set.ncard {file | Accounted hiddenTree c refused file} = 0) := by
  constructor
  · -- Both branches are cloned to one place, so the first clone is searched twice and fills the cap.
    have hread : (ofOracle branchesSettings clonesTree refusingOracle).toOption.map
        (fun c => (c.skipped.map fun s => s.path, c.indexed)) =
          some (["/c/a/r/x.essence", "/c/a/r/x.essence"], []) := by
      decide +kernel
    obtain ⟨c, hc, htexts, hindexed, hledger⟩ := ledger_of_refusing isDirectory_clonesTree hread
    have hrefused : filesMet clonesTree (refusedAmong clonesTree refusingOracle
        branchesSettings.blocked (branchesSettings.admission.cap (branchesSettings.hits clonesTree))) =
          [⟨"/c/a/r/x.essence"⟩, ⟨"/c/a/r/x.essence"⟩] := by
      decide +kernel
    have hmet : filesMet clonesTree (branchesSettings.hits clonesTree) =
        [⟨"/c/a/r/x.essence"⟩, ⟨"/c/a/r/x.essence"⟩, ⟨"/c/b/s/y.essence"⟩] := by
      decide +kernel
    refine ⟨tidy_clonesTree, isDirectory_clonesTree, rfl, c, _, hc, htexts, hledger, ?_, ?_, ?_⟩
    · rw [hrefused]
      decide
    · rw [ncard_eligible tidy_clonesTree.ordered isDirectory_clonesTree hmet]
      decide
    · rw [ncard_refused hindexed hrefused]
      decide
  · -- The file out of reach comes first, and it fills the cap without leading to a file.
    have hread : (ofOracle firstSettings hiddenTree refusingOracle).toOption.map
        (fun c => (c.skipped.map fun s => s.path, c.indexed)) =
          some (["/c/a/r/d/x.essence"], []) := by
      decide +kernel
    obtain ⟨c, hc, htexts, hindexed, hledger⟩ := ledger_of_refusing isDirectory_hiddenTree hread
    have hrefused : filesMet hiddenTree (refusedAmong hiddenTree refusingOracle
        firstSettings.blocked (firstSettings.admission.cap (firstSettings.hits hiddenTree))) = [] := by
      decide +kernel
    have hmet : filesMet hiddenTree (firstSettings.hits hiddenTree) = [⟨"/c/a/r/y.essence"⟩] := by
      decide +kernel
    refine ⟨ordered_hiddenTree, isDirectory_hiddenTree, rfl, c, _, hc, htexts, hledger, ?_, ?_⟩
    · rw [ncard_eligible ordered_hiddenTree isDirectory_hiddenTree hmet]
      decide
    · rw [ncard_refused hindexed hrefused]
      decide

end Census

end KeywordCensus
