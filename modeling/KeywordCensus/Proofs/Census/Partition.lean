import KeywordCensus.Census.Basic
import KeywordCensus.Proofs.Corpus.Splitting

/-!
# A scan in parts and a scan in one pass

A list of candidates may be cut into neighbouring parts, each part scanned from nothing, and the
results put together two by two. `Scan.Yields` is what such a plan may give, with the files of each
usage met in any order, and it comes down to indexing the accepted files by the plan
(`yields_iff_gathers`).

Every plan gives the files and the skipped candidates of one pass, and every plan gives the usages of
one pass unless files are mixed up that are shown alike (`Scan.Unmixed`): an index knows its files by
what is shown of their paths, a usage knows them by the paths themselves, and merging leaves files out
of each for itself. So a usage may come to have a file that the index lacks (`yields_mixed`). Files
whose paths are texts are never mixed up.
-/

namespace KeywordCensus

namespace Scan

variable {t : FileTree} {oracle : Oracle} {blocked : TextSet} {cs : List Candidate}
  {plan : Split Candidate} {s : Scan}

/-- The specification that a candidate gives, if it gives one. -/
def accepted? (t : FileTree) (oracle : Oracle) (blocked : TextSet) (c : Candidate) :
    Option Specification :=
  match Specification.load t oracle blocked c.path with
  | .ok file => some (file.inRepository c.repository)
  | .error _ => none

/-- What is put down about a candidate, if it is refused. -/
def refused? (t : FileTree) (oracle : Oracle) (blocked : TextSet) (c : Candidate) :
    Option SkippedFile :=
  match Specification.load t oracle blocked c.path with
  | .ok _ => none
  | .error e => some ⟨c.path.shown, e.message⟩

/-- A pass over candidates adds the files it accepts, in order, and lists the ones it refuses, in
order. -/
theorem foldl_add (cs : List Candidate) (s : Scan) :
    cs.foldl (add t oracle blocked) s =
      ⟨(cs.filterMap (accepted? t oracle blocked)).foldl Index.add s.index,
        s.skipped ++ cs.filterMap (refused? t oracle blocked)⟩ := by
  induction cs generalizing s with
  | nil =>
    rw [List.filterMap_nil, List.filterMap_nil, List.append_nil]
    rfl
  | cons c rest ih =>
    rw [List.foldl_cons, ih, List.filterMap_cons, List.filterMap_cons, add, accepted?, refused?]
    cases Specification.load t oracle blocked c.path with
    | ok file => rfl
    | error e =>
      rw [addResult, List.append_assoc]
      rfl

/-- A scan is the index of the accepted files and the list of the refused ones. -/
theorem ofCandidates_eq (cs : List Candidate) :
    ofCandidates t oracle blocked cs =
      ⟨Index.ofFiles (cs.filterMap (accepted? t oracle blocked)),
        cs.filterMap (refused? t oracle blocked)⟩ :=
  foldl_add cs empty

theorem accepted?_eq_some {c : Candidate} {file : Specification}
    (h : accepted? t oracle blocked c = some file) :
    ∃ found, Specification.load t oracle blocked c.path = .ok found ∧
      file = found.inRepository c.repository := by
  rw [accepted?] at h
  split at h
  · rename_i found hload
    exact ⟨found, hload, (Option.some.inj h).symm⟩
  · cases h

theorem sound_of_accepted {cs : List Candidate} {file : Specification}
    (h : file ∈ cs.filterMap (accepted? t oracle blocked)) : file.Sound := by
  obtain ⟨c, -, hc⟩ := List.mem_filterMap.mp h
  obtain ⟨found, hload, rfl⟩ := accepted?_eq_some hc
  exact Specification.sound_inRepository (Specification.sound_of_load hload) _

/-- Accepted files with one path have been parsed to one tree. -/
theorem counts_of_accepted {cs : List Candidate} {f g : Specification}
    (hf : f ∈ cs.filterMap (accepted? t oracle blocked))
    (hg : g ∈ cs.filterMap (accepted? t oracle blocked)) (h : f.path = g.path) :
    f.counts = g.counts := by
  obtain ⟨c, -, hc⟩ := List.mem_filterMap.mp hf
  obtain ⟨d, -, hd⟩ := List.mem_filterMap.mp hg
  obtain ⟨found, hload, rfl⟩ := accepted?_eq_some hc
  obtain ⟨other, hother, rfl⟩ := accepted?_eq_some hd
  obtain ⟨-, hparse, -, hcounts, -⟩ := Specification.load_eq_ok hload
  obtain ⟨-, hparse', -, hcounts', -⟩ := Specification.load_eq_ok hother
  have hpath : found.path = other.path := h
  rw [← hpath, hparse] at hparse'
  show found.counts = other.counts
  rw [hcounts, hcounts', Except.ok.inj hparse']

/-- The index of a scan is consistent. -/
theorem consistent_ofCandidates (cs : List Candidate) :
    (ofCandidates t oracle blocked cs).index.Consistent := by
  rw [ofCandidates_eq]
  exact Index.consistent_ofFiles fun _ hfile => sound_of_accepted hfile

/-! ## Scanning by a plan -/

/-- What putting together the scans of neighbouring parts may give. -/
structure MergesTo (s next result : Scan) : Prop where
  index : Index.MergesTo s.index next.index result.index
  skipped : result.skipped = s.skipped ++ next.skipped

/-- Merging two scans is one of the merges the relation allows. -/
theorem mergesTo_merge (s next : Scan) : MergesTo s next (s.merge next) :=
  ⟨Index.mergesTo_merge s.index next.index, rfl⟩

/-- What scanning by a plan may give: every part is scanned from nothing, and neighbours are merged
with the files of each usage met in any order. -/
inductive Yields (t : FileTree) (oracle : Oracle) (blocked : TextSet) :
    Split Candidate → Scan → Prop
  /-- A part is scanned in one pass. -/
  | piece (cs : List Candidate) :
      Yields t oracle blocked (.piece cs) (ofCandidates t oracle blocked cs)
  /-- Neighbours are merged. -/
  | join {left right : Split Candidate} {s next result : Scan} :
      Yields t oracle blocked left s → Yields t oracle blocked right next →
      MergesTo s next result → Yields t oracle blocked (.join left right) result

/-- **Scanning by a plan is indexing the accepted files by it**, with the refused candidates put down
in order. -/
theorem yields_iff_gathers : Yields t oracle blocked plan s ↔
    Index.Gathers (plan.filterMap (accepted? t oracle blocked)) s.index ∧
      s.skipped = plan.toList.filterMap (refused? t oracle blocked) := by
  constructor
  · intro h
    -- Over the pieces of the run, as they are joined.
    induction h with
    | piece cs =>
      rw [ofCandidates_eq]
      exact ⟨.piece _, rfl⟩
    | join _ _ hmerge ihs ihnext =>
      obtain ⟨hs, hskipped⟩ := ihs
      obtain ⟨hnext, hskipped'⟩ := ihnext
      refine ⟨.join hs hnext hmerge.index, ?_⟩
      rw [hmerge.skipped, hskipped, hskipped', Split.toList, List.filterMap_append]
  · rintro ⟨hindex, hskipped⟩
    -- Back over those of the plan: an index and a ledger for each side.
    induction plan generalizing s with
    | piece cs =>
      obtain ⟨index, skipped⟩ := s
      cases hindex
      cases hskipped
      have hpiece : Yields t oracle blocked (.piece cs) (ofCandidates t oracle blocked cs) := .piece cs
      rw [ofCandidates_eq] at hpiece
      exact hpiece
    | join left right ihleft ihright =>
      cases hindex with
      | @join _ _ i j _ hi hj hmerge =>
        rw [Split.toList, List.filterMap_append] at hskipped
        have hleft := ihleft (s := ⟨i, left.toList.filterMap (refused? t oracle blocked)⟩) hi rfl
        have hright := ihright (s := ⟨j, right.toList.filterMap (refused? t oracle blocked)⟩) hj rfl
        exact .join hleft hright ⟨hmerge, hskipped⟩

theorem toList_accepted (plan : Split Candidate) :
    (plan.filterMap (accepted? t oracle blocked)).toList =
      plan.toList.filterMap (accepted? t oracle blocked) := Split.toList_filterMap ..

theorem sound_of_plan : ∀ f ∈ (plan.filterMap (accepted? t oracle blocked)).toList, f.Sound := by
  rw [toList_accepted]
  exact fun _ hfile => sound_of_accepted hfile

/-- **Every plan gives the files and the skipped candidates of one pass.** -/
theorem files_of_yields (h : Yields t oracle blocked plan s) :
    s.index.files = (ofCandidates t oracle blocked plan.toList).index.files ∧
      s.skipped = (ofCandidates t oracle blocked plan.toList).skipped := by
  obtain ⟨hindex, hskipped⟩ := yields_iff_gathers.mp h
  rw [ofCandidates_eq]
  refine ⟨SortedMap.ext_get? fun key => ?_, hskipped⟩
  rw [Index.get?_of_gathers hindex sound_of_plan, toList_accepted,
    Index.get?_ofFiles fun _ hfile => sound_of_accepted hfile]

/-- Does every accepted file with a keyword have the path of the first one that is shown alike? -/
def Unmixed (t : FileTree) (oracle : Oracle) (blocked : TextSet) (cs : List Candidate) : Prop :=
  Index.Unmixed (cs.filterMap (accepted? t oracle blocked))

/-- **Where no files are mixed up, a plan gives the scan of one pass, and nothing else.** -/
theorem yields_iff (hunmixed : Unmixed t oracle blocked plan.toList) :
    Yields t oracle blocked plan s ↔ s = ofCandidates t oracle blocked plan.toList := by
  have hindex {i : Index} (hi : Index.Gathers (plan.filterMap (accepted? t oracle blocked)) i) :
      i = Index.ofFiles (plan.toList.filterMap (accepted? t oracle blocked)) := by
    rw [← toList_accepted]
    refine Index.eq_ofFiles_of_gathers hi sound_of_plan ?_ (by rwa [toList_accepted])
    rw [toList_accepted]
    exact fun f hf g hg => counts_of_accepted hf hg
  rw [yields_iff_gathers, ofCandidates_eq]
  constructor
  · rintro ⟨hi, hskipped⟩
    obtain ⟨index, skipped⟩ := s
    obtain rfl : index = _ := hindex hi
    obtain rfl : skipped = _ := hskipped
    rfl
  · rintro rfl
    obtain ⟨i, hi⟩ := Index.exists_gathers (plan.filterMap (accepted? t oracle blocked))
    exact ⟨hindex hi ▸ hi, rfl⟩

/-- **Where files are mixed up, some plan gives another scan**: it cuts the list before the candidate
whose file is not the first one. -/
theorem exists_yields_ne (hmixed : ¬ Unmixed t oracle blocked cs) :
    ∃ plan s, plan.toList = cs ∧ Yields t oracle blocked plan s ∧
      s ≠ ofCandidates t oracle blocked cs := by
  rw [Unmixed, Index.Unmixed] at hmixed
  push Not at hmixed
  obtain ⟨g, hg, hused, hfirst⟩ := hmixed
  obtain ⟨c, hc, haccepted⟩ := List.mem_filterMap.mp hg
  -- The plan is cut before the file that is not the first of its path.
  obtain ⟨before, after, rfl⟩ := List.append_of_mem hc
  have hfiles : (before ++ c :: after).filterMap (accepted? t oracle blocked) =
      before.filterMap (accepted? t oracle blocked) ++
        g :: after.filterMap (accepted? t oracle blocked) := by
    rw [List.filterMap_append, List.filterMap_cons, haccepted]
  have hmerge := mergesTo_merge (ofCandidates t oracle blocked before)
    (ofCandidates t oracle blocked (c :: after))
  refine ⟨.join (.piece before) (.piece (c :: after)), _, rfl,
    .join (.piece before) (.piece (c :: after)) hmerge, fun heq => ?_⟩
  have hindex := hmerge.index
  rw [heq, ofCandidates_eq, ofCandidates_eq, ofCandidates_eq, List.filterMap_cons,
    haccepted] at hindex
  have hsound : ∀ f ∈ (before ++ c :: after).filterMap (accepted? t oracle blocked), f.Sound :=
    fun _ hfile => sound_of_accepted hfile
  rw [hfiles] at hsound hfirst hindex
  exact Index.ne_ofFiles_of_mergesTo hsound hused hfirst hindex rfl

/-- Are candidates, and the files that they lead to, told apart by what is shown of their paths? -/
structure ToldApart (t : FileTree) (oracle : Oracle) (blocked : TextSet)
    (cs : List Candidate) : Prop where
  paths : ∀ c ∈ cs, ∀ d ∈ cs, c.path.shown = d.path.shown → c.path = d.path
  files : Index.ToldApart (· ∈ cs.filterMap (accepted? t oracle blocked))

/-! ## What becomes of each candidate -/

/-- The specification that a candidate gives, if its path is shown as a key. -/
def acceptedAs? (t : FileTree) (oracle : Oracle) (blocked : TextSet) (key : String)
    (c : Candidate) : Option Specification :=
  (accepted? t oracle blocked c).filter fun file => file.path.shown == key

/-- Is the file that a candidate leads to in the index, under what is shown of its canonical path? -/
def Indexed (t : FileTree) (s : Scan) (c : Candidate) : Prop :=
  ∃ canonical file, Specification.canonicalPath? t c.path = some canonical ∧
    s.index.files.get? canonical.shown = some file ∧ file.path = canonical

/-- Is a candidate put down as skipped? -/
def Listed (s : Scan) (c : Candidate) : Prop := ∃ entry ∈ s.skipped, entry.path = c.path.shown

/-- What a scan of some candidates is, candidate by candidate. -/
structure Accounts (t : FileTree) (oracle : Oracle) (blocked : TextSet) (cs : List Candidate)
    (s : Scan) : Prop where
  /-- Of the candidates whose files are shown alike, the first one gives the entry. -/
  files : ∀ key, s.index.files.get? key = cs.findSome? (acceptedAs? t oracle blocked key)
  /-- The usages are those of the files. -/
  keywords : ∀ keyword,
    s.index.keywords.get? keyword = Usage.of? keyword (Index.byPath s.index.files)
  /-- The refused candidates are put down in order. -/
  skipped : s.skipped = cs.filterMap (refused? t oracle blocked)
  /-- No candidate is lost, and none is both indexed and put down, if they are told apart. -/
  once : ToldApart t oracle blocked cs → ∀ c ∈ cs, Indexed t s c ↔ ¬ Listed s c

theorem find?_accepted (key : String) (cs : List Candidate) :
    ((cs.filterMap (accepted? t oracle blocked)).find? fun file => file.path.shown = key) =
      cs.findSome? (acceptedAs? t oracle blocked key) := by
  induction cs with
  | nil => rfl
  | cons c rest ih =>
    rw [List.filterMap_cons, List.findSome?_cons, acceptedAs?]
    cases accepted? t oracle blocked c with
    | none => exact ih
    | some file =>
      rw [List.find?_cons, Option.filter_some]
      by_cases hkey : file.path.shown = key
      · rw [decide_eq_true hkey, if_pos (beq_iff_eq.mpr hkey)]
      · rw [decide_eq_false hkey, if_neg (fun heq => hkey (beq_iff_eq.mp heq))]
        exact ih

/-- Under a key stands what the first accepted candidate of that key loads as. -/
theorem get?_ofCandidates (key : String) (cs : List Candidate) :
    (ofCandidates t oracle blocked cs).index.files.get? key =
      cs.findSome? (acceptedAs? t oracle blocked key) := by
  rw [ofCandidates_eq, Index.get?_ofFiles (fun _ hfile => sound_of_accepted hfile)]
  exact find?_accepted key cs

theorem acceptedAs?_eq_some {key : String} {c : Candidate} {file : Specification} :
    acceptedAs? t oracle blocked key c = some file ↔
      accepted? t oracle blocked c = some file ∧ file.path.shown = key := by
  rw [acceptedAs?, Option.filter_eq_some_iff, beq_iff_eq]

/-- Every file of the index has been loaded from the path of a candidate. -/
theorem load_of_mem_files {cs : List Candidate} {file : Specification}
    (h : file ∈ (ofCandidates t oracle blocked cs).index.files.values) :
    ∃ c ∈ cs, ∃ found, Specification.load t oracle blocked c.path = .ok found ∧
      file = found.inRepository c.repository := by
  obtain ⟨key, hkey⟩ := SortedMap.mem_values.mp h
  rw [get?_ofCandidates] at hkey
  obtain ⟨c, hc, haccepted⟩ := List.exists_of_findSome?_eq_some hkey
  obtain ⟨found, hload, rfl⟩ := accepted?_eq_some (acceptedAs?_eq_some.mp haccepted).1
  exact ⟨c, hc, found, hload, rfl⟩

/-- A candidate is put down if it cannot be loaded. -/
theorem listed_iff (hapart : ToldApart t oracle blocked cs) {c : Candidate} (hc : c ∈ cs) :
    Listed (ofCandidates t oracle blocked cs) c ↔
      ∃ e, Specification.load t oracle blocked c.path = .error e := by
  rw [Listed, ofCandidates_eq]
  constructor
  · rintro ⟨entry, hentry, hpath⟩
    obtain ⟨d, hd, hrefused⟩ := List.mem_filterMap.mp hentry
    rw [refused?] at hrefused
    split at hrefused
    · cases hrefused
    · rename_i e hload
      cases hrefused
      exact ⟨e, hapart.paths d hd c hc hpath ▸ hload⟩
  · rintro ⟨e, hload⟩
    refine ⟨⟨c.path.shown, e.message⟩, List.mem_filterMap.mpr ⟨c, hc, ?_⟩, rfl⟩
    rw [refused?, hload]

/-- A candidate is indexed if it can be loaded. -/
theorem indexed_iff (hapart : Index.ToldApart (· ∈ cs.filterMap (accepted? t oracle blocked)))
    {c : Candidate} (hc : c ∈ cs) :
    Indexed t (ofCandidates t oracle blocked cs) c ↔
      ∃ found, Specification.load t oracle blocked c.path = .ok found := by
  constructor
  · rintro ⟨canonical, file, hcanonical, hfile, hpath⟩
    rw [get?_ofCandidates] at hfile
    -- The entry may be due to another candidate, but that one leads to the same file.
    obtain ⟨d, -, hd⟩ := List.exists_of_findSome?_eq_some hfile
    obtain ⟨haccepted, -⟩ := acceptedAs?_eq_some.mp hd
    obtain ⟨found, hload, rfl⟩ := accepted?_eq_some haccepted
    have hother : Specification.canonicalPath? t d.path = some canonical :=
      (Specification.load_eq_ok hload).1.trans (congrArg some hpath)
    exact ⟨found, (Specification.load_congr hcanonical hother).trans hload⟩
  · rintro ⟨found, hload⟩
    have hgiven : accepted? t oracle blocked c = some (found.inRepository c.repository) := by
      rw [accepted?, hload]
    have haccepted : acceptedAs? t oracle blocked found.path.shown c =
        some (found.inRepository c.repository) := acceptedAs?_eq_some.mpr ⟨hgiven, rfl⟩
    -- This candidate need not be the first one that leads to its file.
    have hsome : (cs.findSome? (acceptedAs? t oracle blocked found.path.shown)).isSome := by
      refine List.findSome?_isSome_iff.mpr ⟨c, hc, ?_⟩
      rw [haccepted]
      rfl
    obtain ⟨file, hfile⟩ := Option.isSome_iff_exists.mp hsome
    obtain ⟨d, hd, hfirst⟩ := List.exists_of_findSome?_eq_some hfile
    obtain ⟨hother, hshown⟩ := acceptedAs?_eq_some.mp hfirst
    have hpath := hapart _ _ (List.mem_filterMap.mpr ⟨d, hd, hother⟩)
      (List.mem_filterMap.mpr ⟨c, hc, hgiven⟩) hshown
    refine ⟨found.path, file, (Specification.load_eq_ok hload).1, ?_, hpath⟩
    rw [get?_ofCandidates]
    exact hfile

/-- A scan in one pass accounts for every candidate. -/
theorem accounts_ofCandidates (cs : List Candidate) :
    Accounts t oracle blocked cs (ofCandidates t oracle blocked cs) := by
  constructor
  · intro key
    exact get?_ofCandidates key cs
  · intro keyword
    exact (consistent_ofCandidates cs).counted keyword
  · rw [ofCandidates_eq]
  · intro hapart c hc
    rw [indexed_iff hapart.files hc, listed_iff hapart hc]
    -- A candidate is loaded or refused, and which of the two decides where it is listed.
    cases Specification.load t oracle blocked c.path with
    | ok found =>
      constructor
      · rintro - ⟨e, he⟩
        cases he
      · intro _
        exact ⟨found, rfl⟩
    | error e =>
      constructor
      · rintro ⟨found, hfound⟩
        cases hfound
      · intro hlisted
        exact absurd ⟨e, rfl⟩ hlisted

/-- **Whether a census depends on how its candidates are cut into parts.** A plan gives the files and
the skipped candidates of one pass in any case. It gives the scan of one pass and nothing else, for all
plans, exactly if no file with a keyword is mixed up with another one that is shown alike, which files
that are told apart are not. One pass accounts for every candidate, merging two scans gives one of the
possible results, and where no files are mixed up, what any plan gives is what a census holds whose
candidates they are. -/
theorem census_of_parts (t : FileTree) (oracle : Oracle) (blocked : TextSet) :
    (∀ plan s, Yields t oracle blocked plan s →
      s.index.files = (ofCandidates t oracle blocked plan.toList).index.files ∧
      s.skipped = (ofCandidates t oracle blocked plan.toList).skipped) ∧
    (∀ cs, Unmixed t oracle blocked cs ↔ ∀ plan s, plan.toList = cs →
      (Yields t oracle blocked plan s ↔ s = ofCandidates t oracle blocked cs)) ∧
    (∀ cs, ToldApart t oracle blocked cs → Unmixed t oracle blocked cs) ∧
    (∀ cs, Accounts t oracle blocked cs (ofCandidates t oracle blocked cs)) ∧
    (∀ s next, MergesTo s next (s.merge next)) ∧
    ∀ settings plan s, settings.blocked = blocked → settings.candidates t = .ok plan.toList →
      Unmixed t oracle blocked plan.toList → Yields t oracle blocked plan s →
      Census.ofOracle settings t oracle = .ok ⟨s.index, s.skipped, none⟩ := by
  refine ⟨fun _ _ => files_of_yields, fun cs => ⟨?_, fun hall => ?_⟩,
    fun _ hapart => Index.unmixed_of_toldApart hapart.files, accounts_ofCandidates, mergesTo_merge, ?_⟩
  · rintro hunmixed plan s rfl
    exact yields_iff hunmixed
  · -- One plan that yields something else is enough.
    by_contra hmixed
    obtain ⟨plan, s, hplan, hyields, hne⟩ := exists_yields_ne hmixed
    exact hne ((hall plan s hplan).mp hyields)
  · rintro settings plan s rfl hcandidates hunmixed h
    rw [Census.ofOracle, hcandidates, (yields_iff hunmixed).mp h]
    rfl

/-- The candidates in a tree with two files that are shown alike. -/
def mixedCandidates : List Candidate :=
  [⟨⟨"/a\u00FE.essence"⟩, ""⟩, ⟨⟨"/a\u00FF.essence"⟩, ""⟩]

/-- Cut in two, the candidates give a keyword one use more than in one pass, in a file that is not
listed. -/
theorem yields_mixed : ∃ plan s, plan.toList = mixedCandidates ∧
    Yields Index.mixedTree Index.steadyOracle SortedMap.empty plan s ∧
    s.index.files.keys = ["/a\uFFFD.essence"] ∧
    (s.index.keywords.get? "find").map Usage.total = some 2 ∧
    ((ofCandidates Index.mixedTree Index.steadyOracle SortedMap.empty
      mixedCandidates).index.keywords.get? "find").map Usage.total = some 1 := by
  refine ⟨.join (.piece [⟨⟨"/a\u00FE.essence"⟩, ""⟩]) (.piece [⟨⟨"/a\u00FF.essence"⟩, ""⟩]), _, rfl,
    .join (.piece _) (.piece _) (mergesTo_merge _ _), ?_, ?_, ?_⟩
  · decide +kernel
  · decide +kernel
  · decide +kernel

end Scan

namespace Census

variable {settings : CensusSettings} {t : FileTree} {oracle : Oracle} {c : Census}

/-- Is this what a census may be, however its candidates are cut into parts? -/
def Outcome (settings : CensusSettings) (t : FileTree) (oracle : Oracle) (c : Census) : Prop :=
  ∃ plan s, settings.candidates t = .ok plan.toList ∧
    Scan.Yields t oracle settings.blocked plan s ∧ c = ⟨s.index, s.skipped, none⟩

/-- Are no files of a census mixed up that are shown alike? -/
def Unmixed (settings : CensusSettings) (t : FileTree) (oracle : Oracle) : Prop :=
  ∀ cs, settings.candidates t = .ok cs → Scan.Unmixed t oracle settings.blocked cs

/-- One pass gives one of the outcomes, -/
theorem outcome_of_ofOracle (h : ofOracle settings t oracle = .ok c) :
    Outcome settings t oracle c := by
  rw [ofOracle] at h
  cases hcandidates : settings.candidates t with
  | error e =>
    rw [hcandidates] at h
    cases h
  | ok cs =>
    rw [hcandidates] at h
    cases h
    exact ⟨.piece cs, _, hcandidates, .piece cs, rfl⟩

/-- and where no files are mixed up, it gives the only one. -/
theorem ofOracle_of_outcome (h : Outcome settings t oracle c) (hunmixed : Unmixed settings t oracle) :
    ofOracle settings t oracle = .ok c := by
  obtain ⟨plan, s, hcandidates, hyields, rfl⟩ := h
  rw [ofOracle, hcandidates, (Scan.yields_iff (hunmixed _ hcandidates)).mp hyields]
  rfl

/-- The files of an outcome are those of one pass. -/
theorem files_of_outcome (h : Outcome settings t oracle c) :
    ∃ cs, settings.candidates t = .ok cs ∧
      c.index.files = (Scan.ofCandidates t oracle settings.blocked cs).index.files ∧
      c.skipped = (Scan.ofCandidates t oracle settings.blocked cs).skipped := by
  obtain ⟨plan, s, hcandidates, hyields, rfl⟩ := h
  exact ⟨plan.toList, hcandidates, Scan.files_of_yields hyields⟩

/-- **Files are not mixed up if the usages of all outcomes have as many files as the files say.** -/
theorem unmixed_of_fileCounts (hcounts : ∀ c, Outcome settings t oracle c →
      ∀ keyword u, c.index.keywords.get? keyword = some u → u.name = keyword →
        u.fileCount ≤ (c.files.filterMap (Usage.useOf? keyword)).length) :
    Unmixed settings t oracle := by
  intro cs hcandidates
  by_contra hmixed
  obtain ⟨plan, s, rfl, hyields, hne⟩ := Scan.exists_yields_ne hmixed
  have houtcome : Outcome settings t oracle ⟨s.index, s.skipped, none⟩ :=
    ⟨plan, s, hcandidates, hyields, rfl⟩
  -- The outcome of that plan is consistent, and it has the files of one pass.
  have hconsistent : s.index.Consistent :=
    Index.consistent_of_fileCounts (Scan.yields_iff_gathers.mp hyields).1 Scan.sound_of_plan
      (hcounts _ houtcome)
  obtain ⟨hfiles, hskipped⟩ := Scan.files_of_yields hyields
  have hindex := Index.eq_of_files hconsistent (Scan.consistent_ofCandidates plan.toList) hfiles
  obtain ⟨index, skipped⟩ := s
  exact hne (by rw [show index = _ from hindex, show skipped = _ from hskipped])

end Census

end KeywordCensus
