import KeywordCensus.Proofs.Corpus.Splitting

/-!
# The order in which files are gathered

The files of a corpus may come in any order, more than once, and in parts whose indexes are merged in
any order. All plans for the same files (`Index.Gathers`) give indexes that agree (`Index.Agrees`), if
files are told apart by what is shown of their paths: the same paths are listed, every keyword has the
same uses path by path and the same numbers, and what the files of one path have in common is the same
on both sides. What they do not have in common, such as the repository, is that of the file met first.

Merging indexes that can be built is therefore commutative up to agreement, and as it stands it is
associative, has a unit and absorbs what is known already (`Index.agrees_of_gathers`).
-/

namespace KeywordCensus

/-! ## The numbers of a usage -/

/-- All that a usage says without its files: how often the keyword is used on each path. -/
structure UsageNumbers where
  /-- The keyword. -/
  name : String
  /-- All uses. -/
  total : Nat
  /-- The least number of uses on a path. -/
  least : Option Nat
  /-- The greatest number of uses on a path. -/
  greatest : Option Nat
  /-- The number of uses on each path. -/
  uses : SortedMap Nat

namespace Usage

/-- The numbers of a usage. -/
def numbers (u : Usage) : UsageNumbers :=
  ⟨u.name, u.total, u.least, u.greatest, u.files.map FileUse.uses⟩

/-- The numbers of a keyword that is used a number of times on each of some paths. -/
def numbersOf? (keyword : String) (uses : SortedMap Nat) : Option UsageNumbers :=
  if uses.isEmpty then none
  else some ⟨keyword, uses.values.sum, uses.values.min?, uses.values.max?, uses⟩

/-- The numbers of a recomputed usage follow from the uses path by path. -/
theorem map_numbers_of? (keyword : String) (files : SortedMap Specification) :
    (of? keyword files).map numbers =
      numbersOf? keyword ((usesOf keyword files).map FileUse.uses) := by
  have hempty : ((usesOf keyword files).map FileUse.uses).isEmpty =
      (usesOf keyword files).isEmpty := by
    rw [SortedMap.isEmpty, SortedMap.entries_map, List.isEmpty_map]
    rfl
  rw [of?, tally?, numbersOf?, hempty, SortedMap.values_map]
  split
  · rfl
  · rfl

end Usage

namespace Index

variable {collection : Specification → Prop} {i j k r s : Index}
  {plan : Split Specification}

/-! ## Indexes that agree -/

/-- Do two indexes of files of a collection agree in all but what files of the same path differ
in? -/
structure Agrees (collection : Specification → Prop) (i j : Index) : Prop where
  /-- The same paths are listed. -/
  paths : i.files.keys = j.files.keys
  /-- What the files of one path have in common is the same. -/
  common : ∀ (key : String) {α : Type} (view : Specification → α),
    (∀ f g, collection f → collection g → f.path.shown = key → g.path.shown = key →
      view f = view g) →
    (i.files.get? key).map view = (j.files.get? key).map view
  /-- Every keyword has the same numbers, in total and path by path. -/
  numbers : ∀ keyword, (i.keywords.get? keyword).map Usage.numbers =
    (j.keywords.get? keyword).map Usage.numbers

/-- Are the files of an index those of a collection, and the usages those of the files? -/
structure Sound (collection : Specification → Prop) (i : Index) : Prop where
  consistent : i.Consistent
  within : Within collection i

/-- Two indexes of one collection with the same keys show the same at a key where every file of that
key in the collection shows the same. -/
theorem common_of_paths {α : Type} {view : Specification → α} (hi : i.Sound collection)
    (hj : j.Sound collection) (hpaths : i.files.keys = j.files.keys) {key : String}
    (hview : ∀ f g, collection f → collection g → f.path.shown = key → g.path.shown = key →
      view f = view g) :
    (i.files.get? key).map view = (j.files.get? key).map view := by
  cases hf : i.files.get? key with
  | none =>
    have hunlisted : key ∉ j.files.keys := hpaths ▸ SortedMap.get?_eq_none_iff.mp hf
    rw [SortedMap.get?_eq_none_iff.mpr hunlisted]
  | some f =>
    have hlisted : key ∈ j.files.keys := hpaths ▸ SortedMap.mem_keys.mpr ⟨f, hf⟩
    obtain ⟨g, hg⟩ := SortedMap.mem_keys.mp hlisted
    rw [hg]
    exact congrArg some (hview f g (hi.within key f hf) (hj.within key g hg)
      (hi.consistent.keyed key f hf) (hj.consistent.keyed key g hg))

/-- What is shown of a path finds the same file as the path. -/
theorem byPath_get?_of_shown (hapart : ToldApart collection) (hi : i.Sound collection)
    {f : Specification} (hf : collection f) :
    (byPath i.files).get? f.path.text = i.files.get? f.path.shown := by
  refine Option.ext fun other => ?_
  rw [get?_byPath hi.consistent.keyed]
  constructor
  · rintro ⟨hother, htext⟩
    have hpath : other.path = f.path := congrArg Path.mk htext
    rwa [← hpath]
  · intro hother
    have hpath := hapart _ _ (hi.within _ _ hother) hf (hi.consistent.keyed _ _ hother)
    exact ⟨hpath ▸ hother, congrArg Path.text hpath⟩

/-- Neither index has a file under the bytes of a path unless the other one has. -/
theorem exists_byPath (hapart : ToldApart collection) (hi : i.Sound collection)
    (hj : j.Sound collection) (hpaths : i.files.keys = j.files.keys) {text : String}
    {f : Specification} (hf : (byPath i.files).get? text = some f) :
    ∃ g, (byPath j.files).get? text = some g ∧ collection f ∧ collection g ∧ f.path = g.path := by
  obtain ⟨hfile, rfl⟩ := (get?_byPath hi.consistent.keyed).mp hf
  have hcollected := hi.within _ _ hfile
  have hlisted : f.path.shown ∈ j.files.keys := hpaths ▸ SortedMap.mem_keys.mpr ⟨f, hfile⟩
  obtain ⟨g, hg⟩ := SortedMap.mem_keys.mp hlisted
  have hpath := hapart _ _ hcollected (hj.within _ _ hg) (hj.consistent.keyed _ _ hg).symm
  exact ⟨g, (byPath_get?_of_shown hapart hj hcollected).trans hg, hcollected, hj.within _ _ hg, hpath⟩

/-- **Indexes with the same paths agree**, if a path always comes with the same counts. -/
theorem agrees_of_paths (hapart : ToldApart collection)
    (hequal : ∀ f g, collection f → collection g → f.path = g.path → f.counts = g.counts)
    (hi : i.Sound collection) (hj : j.Sound collection)
    (hpaths : i.files.keys = j.files.keys) : i.Agrees collection j := by
  refine ⟨hpaths, fun key _ view => common_of_paths hi hj hpaths, fun keyword => ?_⟩
  rw [hi.consistent.counted, hj.consistent.counted, Usage.map_numbers_of?, Usage.map_numbers_of?]
  refine congrArg (Usage.numbersOf? keyword) (SortedMap.ext_get? fun text => ?_)
  rw [SortedMap.get?_map, SortedMap.get?_map, Usage.get?_usesOf, Usage.get?_usesOf]
  cases hf : (byPath i.files).get? text with
  | some f =>
    obtain ⟨g, hg, hf, hg', hpath⟩ := exists_byPath hapart hi hj hpaths hf
    rw [hg]
    -- How often a file uses the keyword is decided by its path.
    have huses : f.uses keyword = g.uses keyword := congrArg (Tally.count · keyword)
      (hequal f g hf hg' hpath)
    show (Usage.useOf? keyword f).map FileUse.uses = (Usage.useOf? keyword g).map FileUse.uses
    rw [Usage.useOf?, Usage.useOf?, huses]
    split
    · rfl
    · rfl
  | none =>
    have hnone : (byPath j.files).get? text = none := by
      refine Option.eq_none_iff_forall_ne_some.mpr fun g hg => ?_
      obtain ⟨f, hfile, -⟩ := exists_byPath hapart hj hi hpaths.symm hg
      rw [hf] at hfile
      cases hfile
    rw [hnone]

/-! ## Plans for files -/

/-- Whatever is built of a collection of sound files, told apart by what they show, is sound with
respect to it. -/
theorem sound_of_built (hsound : ∀ f, collection f → f.Sound) (hapart : ToldApart collection)
    (hequal : ∀ f g, collection f → collection g → f.path = g.path → f.counts = g.counts)
    (h : Built collection i) : i.Sound collection := by
  obtain ⟨hconsistent, hwithin⟩ := consistent_of_built hsound hapart hequal h
  exact ⟨hconsistent, hwithin⟩

/-- A plan builds an index of its files. -/
theorem built_of_gathers (h : Gathers plan i) (hfiles : ∀ f ∈ plan.toList, collection f) :
    Built collection i := by
  induction h with
  | piece files => exact built_ofFiles hfiles
  | join _ _ hmerge ihleft ihright =>
    obtain ⟨hleft, hright⟩ := List.forall_mem_append.mp hfiles
    exact .merge (ihleft hleft) (ihright hright) hmerge

/-- What is listed is what is shown of the files of the plan. -/
theorem mem_keys_of_gathers (h : Gathers plan i) (hsound : ∀ f ∈ plan.toList, f.Sound)
    {key : String} : key ∈ i.files.keys ↔ ∃ f ∈ plan.toList, f.path.shown = key := by
  rw [SortedMap.mem_keys]
  constructor
  · rintro ⟨f, hf⟩
    exact ⟨f, mem_of_gathers h hsound hf⟩
  · rintro ⟨f, hf, rfl⟩
    exact Option.ne_none_iff_exists'.mp (get?_ne_none h hsound hf)

/-! ## The laws of merging -/

section Laws

variable (hsound : ∀ f, collection f → f.Sound) (hapart : ToldApart collection)
  (hequal : ∀ f g, collection f → collection g → f.path = g.path → f.counts = g.counts)
  (hi : Built collection i) (hj : Built collection j)

include hsound hapart hequal

/-- Indexes that can be built are equal if their files are. -/
theorem eq_of_built (hi : Built collection i) (hj : Built collection j)
    (h : ∀ key, i.files.get? key = j.files.get? key) : i = j :=
  eq_of_files (consistent_of_built hsound hapart hequal hi).1
    (consistent_of_built hsound hapart hequal hj).1
    (SortedMap.ext_get? h)

include hi hj

/-- Nothing is taken over from an index whose paths are known already. -/
theorem mergesTo_absorbed (hknown : ∀ key ∈ j.files.keys, key ∈ i.files.keys)
    (h : MergesTo i j r) : r = i := by
  refine eq_of_built hsound hapart hequal (.merge hi hj h) hi fun key => ?_
  rw [h.files, SortedMap.get?_union]
  cases hfile : i.files.get? key with
  | some f => rfl
  | none =>
    have hfree : key ∉ j.files.keys := fun hmem =>
      SortedMap.get?_eq_none_iff.mp hfile (hknown key hmem)
    rw [SortedMap.get?_eq_none_iff.mpr hfree]
    rfl

/-- It does not matter which index takes over which, but for what files of one path differ in. -/
theorem mergesTo_comm (h : MergesTo i j r) (h' : MergesTo j i s) : r.Agrees collection s := by
  refine agrees_of_paths hapart hequal (sound_of_built hsound hapart hequal (.merge hi hj h))
    (sound_of_built hsound hapart hequal (.merge hj hi h')) (SortedMap.keys_eq_of_mem_iff fun key => ?_)
  rw [h.files, h'.files, SortedMap.mem_keys_union, SortedMap.mem_keys_union, or_comm]

/-- Three indexes may be merged from the left or from the right. -/
theorem mergesTo_assoc (hk : Built collection k) {left right : Index} (hleft : MergesTo i j left)
    (h : MergesTo left k r) (hright : MergesTo j k right) (h' : MergesTo i right s) : r = s := by
  refine eq_of_built hsound hapart hequal (.merge (.merge hi hj hleft) hk h)
    (.merge hi (.merge hj hk hright) h') fun key => ?_
  rw [h.files, hleft.files, h'.files, hright.files, SortedMap.get?_union, SortedMap.get?_union,
    SortedMap.get?_union, SortedMap.get?_union, Option.or_assoc]

end Laws

/-- **Files may be gathered in any order, more than once and in any parts**, if they are told apart by
what is shown of their paths. Every plan can be carried out, and lists the paths of its files; plans
for the same files give indexes that agree; and for indexes that can be built from the files, merging
gives one of the possible results, is associative, commutative up to agreement, has the empty index as
its unit, and takes nothing over that is known already. -/
theorem agrees_of_gathers (hloaded : ∀ f, collection f → f.Loaded) (hapart : ToldApart collection)
    (hequal : ∀ f g, collection f → collection g → f.path = g.path → f.counts = g.counts) :
    (∀ plan : Split Specification, ∃ i, Gathers plan i) ∧
    (∀ (plan : Split Specification) (i : Index), (∀ f ∈ plan.toList, collection f) →
      Gathers plan i → ∀ key, key ∈ i.files.keys ↔ ∃ f ∈ plan.toList, f.path.shown = key) ∧
    (∀ (plan other : Split Specification) (i j : Index), (∀ f ∈ plan.toList, collection f) →
      (∀ f, f ∈ plan.toList ↔ f ∈ other.toList) → Gathers plan i → Gathers other j →
      i.Agrees collection j) ∧
    (∀ i j : Index, MergesTo i j (i.merge j)) ∧
    (∀ i j k left right r s : Index, Built collection i → Built collection j →
      Built collection k → MergesTo i j left → MergesTo left k r → MergesTo j k right →
      MergesTo i right s → r = s) ∧
    (∀ i j r s : Index, Built collection i → Built collection j → MergesTo i j r →
      MergesTo j i s → r.Agrees collection s) ∧
    (∀ i r : Index, Built collection i → MergesTo empty i r ∨ MergesTo i empty r → r = i) ∧
    ∀ i j r : Index, Built collection i → Built collection j →
      (∀ key ∈ j.files.keys, key ∈ i.files.keys) → MergesTo i j r → r = i := by
  have hsound : ∀ f, collection f → f.Sound := fun f hf =>
    Specification.sound_of_loaded (hloaded f hf)
  refine ⟨exists_gathers, ?_, ?_, mergesTo_merge, ?_, ?_, ?_, ?_⟩
  · intro plan i hfiles hi key
    exact mem_keys_of_gathers hi fun f hf => hsound f (hfiles f hf)
  · intro plan other i j hfiles hsame hi hj
    have hothers : ∀ f ∈ other.toList, collection f := fun f hf => hfiles f ((hsame f).mpr hf)
    -- Both plans have the same files, so both indexes have the same keys.
    refine agrees_of_paths hapart hequal
      (sound_of_built hsound hapart hequal (built_of_gathers hi hfiles))
      (sound_of_built hsound hapart hequal (built_of_gathers hj hothers))
      (SortedMap.keys_eq_of_mem_iff fun key => ?_)
    rw [mem_keys_of_gathers hi fun f hf => hsound f (hfiles f hf),
      mem_keys_of_gathers hj fun f hf => hsound f (hothers f hf)]
    simp only [hsame]
  · intro i j k left right r s hi hj hk hleft h hright h'
    exact mergesTo_assoc hsound hapart hequal hi hj hk hleft h hright h'
  · intro i j r s hi hj h h'
    exact mergesTo_comm hsound hapart hequal hi hj h h'
  · rintro i r hi (h | h)
    · -- What the empty index takes over is all there is.
      refine eq_of_built hsound hapart hequal (.merge .empty hi h) hi fun key => ?_
      rw [h.files, SortedMap.get?_union]
      rfl
    · exact mergesTo_absorbed hsound hapart hequal hi .empty
        (fun _ hmem => absurd hmem List.not_mem_nil) h
  · intro i j r hi hj hknown h
    exact mergesTo_absorbed hsound hapart hequal hi hj hknown h

/-- The file of a tree with one specification, as it is found for two repositories. -/
def FoundTwice (f : Specification) : Prop :=
  f = loneFile.inRepository "one" ∨ f = loneFile.inRepository "two"

/-- Merged in either order, the indexes of a file that is found for two repositories agree in all but
the repository. -/
theorem agrees_merge_lone :
    ((ofFiles [loneFile.inRepository "one"]).merge (ofFiles [loneFile.inRepository "two"])).Agrees
      FoundTwice
      ((ofFiles [loneFile.inRepository "two"]).merge (ofFiles [loneFile.inRepository "one"])) ∧
    (((ofFiles [loneFile.inRepository "one"]).merge
      (ofFiles [loneFile.inRepository "two"])).files.get? "/a.essence").map
        Specification.repository = some (some "one") ∧
    (((ofFiles [loneFile.inRepository "two"]).merge
      (ofFiles [loneFile.inRepository "one"])).files.get? "/a.essence").map
        Specification.repository = some (some "two") := by
  have hloaded : ∀ f, FoundTwice f → f.Loaded := by
    rintro f (rfl | rfl)
    · exact ⟨loneTree, steadyOracle, _, _, loneFile, load_loneTree, .inr ⟨"one", rfl⟩⟩
    · exact ⟨loneTree, steadyOracle, _, _, loneFile, load_loneTree, .inr ⟨"two", rfl⟩⟩
  have hequal : ∀ f g, FoundTwice f → FoundTwice g → f.path = g.path → f.counts = g.counts := by
    rintro f g (rfl | rfl) (rfl | rfl) - <;> rfl
  have hapart : ToldApart FoundTwice := by
    refine toldApart_of_texts fun f hf => ⟨"/a.essence", ?_⟩
    have htext : Text.toBytes "/a.essence" = "/a.essence" := Text.toBytes_of_ascii (by decide)
    rw [Path.ofText, htext]
    rcases hf with rfl | rfl
    · rfl
    · rfl
  -- The two merges differ in the repository only, as the comparison says.
  obtain ⟨-, -, -, -, -, hcomm, -⟩ := agrees_of_gathers hloaded hapart hequal
  have hone : Built FoundTwice (ofFiles [loneFile.inRepository "one"]) :=
    built_ofFiles (List.forall_mem_singleton.mpr (.inl rfl))
  have htwo : Built FoundTwice (ofFiles [loneFile.inRepository "two"]) :=
    built_ofFiles (List.forall_mem_singleton.mpr (.inr rfl))
  refine ⟨hcomm _ _ _ _ hone htwo (mergesTo_merge _ _) (mergesTo_merge _ _), ?_, ?_⟩
  · decide +kernel
  · decide +kernel

/-- A tree with the same specification at a later time. -/
def laterTree : FileTree :=
  ⟨.directory [("a.essence", .file "find x\nfind x\n".toUTF8 0o644)], [],
    List.forall_mem_nil _⟩

/-- The specification of the later tree. -/
def laterFile : Specification := { loneFile with lines := 2 }

theorem load_laterTree :
    Specification.load laterTree steadyOracle SortedMap.empty ⟨"a.essence"⟩ = .ok laterFile := by
  have hpath : Specification.canonicalPath? laterTree ⟨"a.essence"⟩ = some ⟨"/a.essence"⟩ := by
    decide +kernel
  have hlines : laterTree.countLines ⟨"/a.essence"⟩ = .ok 2 := by decide +kernel
  rw [Specification.load, hpath]
  simp only [hlines]
  rfl

/-- Equal counts are not enough for more than the counts: of two files with one path, the one that is
met first gives the number of lines. Of two files that are shown alike, the second one counts if it is
merged, and does not if it is added. -/
theorem differ_of_order :
    (loneFile.Loaded ∧ laterFile.Loaded ∧ loneFile.path = laterFile.path ∧
      loneFile.counts = laterFile.counts ∧
      ((ofFiles [loneFile, laterFile]).files.get? "/a.essence").map Specification.lines = some 1 ∧
      ((ofFiles [laterFile, loneFile]).files.get? "/a.essence").map Specification.lines = some 2) ∧
    ∃ first second : Specification, first.Loaded ∧ second.Loaded ∧ first.path ≠ second.path ∧
      ((ofFiles [first, second]).keywords.get? "find").map Usage.total = some 1 ∧
      (((ofFiles [first]).merge (ofFiles [second])).keywords.get? "find").map Usage.total = some 2 := by
  refine ⟨⟨⟨_, _, _, _, _, load_loneTree, .inl rfl⟩, ⟨_, _, _, _, _, load_laterTree, .inl rfl⟩, rfl, rfl,
    ?_, ?_⟩, mixedFile ⟨"/a\u00FE.essence"⟩, mixedFile ⟨"/a\u00FF.essence"⟩,
    ⟨_, _, _, _, _, load_mixedTree (.inl rfl), .inl rfl⟩,
    ⟨_, _, _, _, _, load_mixedTree (.inr rfl), .inl rfl⟩, ?_, ?_, ?_⟩
  · decide +kernel
  · decide +kernel
  · decide +kernel
  · decide +kernel
  · decide +kernel

end Index

end KeywordCensus
