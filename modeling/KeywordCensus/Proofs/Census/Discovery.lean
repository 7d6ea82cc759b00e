import KeywordCensus.Proofs.Census.Partition

/-!
# What a discovery finds

A discovery goes through the roots and stops as soon as one file comes after as many candidates as
there may be (`Admission.Overflows`). If all roots are directories, what it returns does not depend on
where it stopped: these are the first candidates of all that there are below the roots
(`CensusSettings.candidates_eq`). The step lemma is `After.offer`.
-/

namespace KeywordCensus

namespace Admission

variable {α : Type} {a : Admission} {xs : List α}

/-- The first items, as many as there may be. -/
def cap (a : Admission) (xs : List α) : List α :=
  match a.limit with
  | none => xs
  | some limit => xs.take limit

theorem cap_of_none (h : a.limit = none) (xs : List α) : a.cap xs = xs := by
  rw [cap, h]

theorem cap_of_some {limit : Nat} (h : a.limit = some limit) (xs : List α) :
    a.cap xs = xs.take limit := by
  rw [cap, h]

/-- What a cap keeps is the beginning of what it is given. -/
theorem cap_prefix (a : Admission) (xs : List α) : a.cap xs <+: xs := by
  rw [cap]
  split
  · exact List.prefix_rfl
  · exact List.take_prefix _ xs

/-- A cap is reached with the items that it lets in if it is reached with all. -/
theorem isReached_length_cap (a : Admission) (xs : List α) :
    a.isReached (a.cap xs).length = a.isReached xs.length := by
  rw [isReached, isReached]
  cases hlimit : a.limit with
  | none => rfl
  | some limit =>
    rw [cap_of_some hlimit, List.length_take]
    exact decide_eq_decide.mpr (by omega)

/-- A cap that is reached stays reached. -/
theorem isReached_mono {few many : Nat} (hle : few ≤ many) (h : a.isReached few = true) :
    a.isReached many = true := by
  rw [isReached] at h ⊢
  cases hlimit : a.limit with
  | none =>
    rw [hlimit] at h
    cases h
  | some limit =>
    rw [hlimit] at h
    exact decide_eq_true (Nat.le_trans (of_decide_eq_true h) hle)

/-- Nothing is added to as many items as there may be, -/
theorem cap_append_of_isReached (h : a.isReached xs.length = true) (ys : List α) :
    a.cap (xs ++ ys) = a.cap xs := by
  rw [isReached] at h
  cases hlimit : a.limit with
  | none =>
    rw [hlimit] at h
    cases h
  | some limit =>
    rw [hlimit] at h
    rw [cap_of_some hlimit, cap_of_some hlimit]
    exact List.take_append_of_le_length (of_decide_eq_true h)

/-- and one more is added to less. -/
theorem cap_concat_of_not_isReached (h : a.isReached xs.length = false) (x : α) :
    a.cap (xs ++ [x]) = a.cap xs ++ [x] := by
  rw [isReached] at h
  cases hlimit : a.limit with
  | none => rw [cap_of_none hlimit, cap_of_none hlimit]
  | some limit =>
    rw [hlimit] at h
    have hlength := of_decide_eq_false h
    rw [cap_of_some hlimit, cap_of_some hlimit, List.take_of_length_le (by omega : xs.length ≤ _),
      List.take_of_length_le]
    rw [List.length_append, List.length_singleton]
    omega

/-! ## More than there may be -/

section Overflows

variable {paths : List Path}

/-- The paths that are not left out. -/
def kept (a : Admission) (paths : List Path) : List Path := paths.filter fun p => !a.excluded p

theorem kept_append (a : Admission) (paths more : List Path) :
    a.kept (paths ++ more) = a.kept paths ++ a.kept more := List.filter_append ..

/-- Does a path, left out or not, come after as many kept ones as there may be? -/
def Overflows (a : Admission) (paths : List Path) : Prop :=
  ∃ before path after, paths = before ++ path :: after ∧
    a.isReached (a.kept before).length = true

theorem not_overflows_nil (a : Admission) : ¬ a.Overflows [] := by
  rintro ⟨before, path, after, heq, -⟩
  exact List.append_ne_nil_of_right_ne_nil before (List.cons_ne_nil path after) heq.symm

theorem not_overflows_of_none (h : a.limit = none) (paths : List Path) : ¬ a.Overflows paths := by
  rintro ⟨before, path, after, -, hreached⟩
  rw [isReached, h] at hreached
  cases hreached

/-- Then there are as many as there may be. -/
theorem Overflows.isReached (h : a.Overflows paths) : a.isReached (a.kept paths).length = true := by
  obtain ⟨before, path, after, rfl, hreached⟩ := h
  refine isReached_mono ?_ hreached
  rw [kept_append, List.length_append]
  exact Nat.le_add_right _ _

/-- One more path overflows a cap if the paths before overflowed it, or already filled it. -/
theorem overflows_concat {path : Path} : a.Overflows (paths ++ [path]) ↔
    a.Overflows paths ∨ a.isReached (a.kept paths).length = true := by
  constructor
  · rintro ⟨before, other, after, heq, hreached⟩
    rcases List.eq_nil_or_concat after with rfl | ⟨after, last, rfl⟩
    · cases (List.append_inj' heq rfl).1
      exact .inr hreached
    · rw [List.concat_eq_append, ← List.cons_append, ← List.append_assoc] at heq
      exact .inl ⟨before, other, after, (List.append_inj' heq rfl).1, hreached⟩
  · rintro (⟨before, other, after, rfl, hreached⟩ | hreached)
    · exact ⟨before, other, after ++ [path], List.append_assoc .., hreached⟩
    · exact ⟨paths, path, [], rfl, hreached⟩

/-- It is enough to look at the last path. -/
theorem overflows_iff : a.Overflows paths ↔
    paths ≠ [] ∧ a.isReached (a.kept paths.dropLast).length = true := by
  rcases List.eq_nil_or_concat paths with rfl | ⟨before, last, rfl⟩
  · exact iff_of_false a.not_overflows_nil fun h => h.1 rfl
  · rw [List.concat_eq_append, overflows_concat, List.dropLast_concat]
    constructor
    · intro h
      exact ⟨List.append_ne_nil_of_right_ne_nil _ (List.cons_ne_nil _ _), h.elim (·.isReached) id⟩
    · exact fun h => .inr h.2

instance : DecidablePred a.Overflows := fun _ => decidable_of_iff _ overflows_iff.symm

end Overflows

end Admission

namespace Discovery

variable {t : FileTree} {a : Admission} {paths : List Path} {hits : List Candidate}
  {d : Discovery}

/-- The candidates that some paths are, which belong to one repository. -/
def hitsAmong (a : Admission) (repository : String) (paths : List Path) : List Candidate :=
  (paths.filter fun p => !a.excluded p).map fun p => ⟨p, repository⟩

/-- The candidates below a root. -/
def hitsBelow (t : FileTree) (a : Admission) (root : Path) : List Candidate :=
  hitsAmong a (repositoryName root) (t.filesBelow root Path.isEssence)

theorem map_path_hitsAmong (a : Admission) (repository : String) (paths : List Path) :
    (hitsAmong a repository paths).map (·.path) = a.kept paths := by
  rw [hitsAmong, List.map_map]
  exact List.map_id _

/-- The state of a discovery that has come past some paths, and the candidates among them. -/
structure After (a : Admission) (paths : List Path) (hits : List Candidate) (d : Discovery) :
    Prop where
  /-- The candidates are the paths that are not left out. -/
  kept : hits.map (·.path) = a.kept paths
  /-- As many of them as there may be are found. -/
  found : d.found = a.cap hits
  /-- It has stopped if a path came after as many. -/
  full : d.full = true ↔ a.Overflows paths

theorem after_start (a : Admission) : After a [] [] start := by
  refine ⟨rfl, (List.prefix_nil.mp (a.cap_prefix [])).symm, ?_⟩
  exact iff_of_false Bool.false_ne_true a.not_overflows_nil

theorem After.length_hits (h : After a paths hits d) : hits.length = (a.kept paths).length := by
  rw [← h.kept, List.length_map]

/-- Whether there are as many candidates as there may be is seen from those that are found. -/
theorem After.isReached_found (h : After a paths hits d) :
    a.isReached d.found.length = a.isReached (a.kept paths).length := by
  rw [h.found, Admission.isReached_length_cap, h.length_hits]

/-- **One path is taken into account.** -/
theorem After.offer (h : After a paths hits d) (repository : String) (path : Path) :
    After a (paths ++ [path]) (hits ++ hitsAmong a repository [path])
      (d.offer a repository path) := by
  have hkept : (hits ++ hitsAmong a repository [path]).map (·.path) = a.kept (paths ++ [path]) := by
    rw [List.map_append, map_path_hitsAmong, h.kept, Admission.kept_append]
  have hreached := h.isReached_found
  rw [Discovery.offer]
  by_cases hfull : d.full = true
  · rw [if_pos hfull]
    have hover := h.full.mp hfull
    have henough := hover.isReached
    rw [← h.length_hits] at henough
    refine ⟨hkept, ?_, iff_of_true hfull (Admission.overflows_concat.mpr (.inl hover))⟩
    rw [Admission.cap_append_of_isReached henough]
    exact h.found
  rw [if_neg hfull]
  have hnot : ¬ a.Overflows paths := fun hover => hfull (h.full.mpr hover)
  by_cases henough : a.isReached d.found.length = true
  · -- The cap is tested before the path itself is looked at.
    rw [if_pos henough]
    rw [hreached] at henough
    refine ⟨hkept, ?_, iff_of_true rfl (Admission.overflows_concat.mpr (.inr henough))⟩
    rw [← h.length_hits] at henough
    rw [Admission.cap_append_of_isReached henough]
    exact h.found
  rw [if_neg henough]
  rw [hreached] at henough
  -- The cap is not reached yet, so what counts is the path itself.
  have hstill : d.full = true ↔ a.Overflows (paths ++ [path]) :=
    iff_of_false hfull fun hover => (Admission.overflows_concat.mp hover).elim hnot henough
  by_cases hexcluded : a.excluded path = true
  · have hnone : hitsAmong a repository [path] = [] := by
      rw [hitsAmong, List.filter_cons_of_neg (by rw [hexcluded]; decide)]
      rfl
    rw [if_pos hexcluded]
    refine ⟨hkept, ?_, hstill⟩
    rw [hnone, List.append_nil]
    exact h.found
  · have hone : hitsAmong a repository [path] = [⟨path, repository⟩] := by
      rw [hitsAmong, List.filter_cons_of_pos (by simpa using hexcluded)]
      rfl
    rw [if_neg hexcluded]
    refine ⟨hkept, ?_, hstill⟩
    rw [Bool.not_eq_true, ← h.length_hits] at henough
    rw [hone, Admission.cap_concat_of_not_isReached henough, h.found]

/-- The run of one root: offering its paths in turn appends the hits among them. -/
theorem After.foldl_offer (repository : String) (more : List Path) (h : After a paths hits d) :
    After a (paths ++ more) (hits ++ hitsAmong a repository more)
      (more.foldl (Discovery.offer a repository) d) := by
  induction more generalizing paths hits d with
  | nil =>
    have hnone : hitsAmong a repository [] = [] := rfl
    rw [hnone, List.append_nil, List.append_nil]
    exact h
  | cons path rest ih =>
    have hsplit : hitsAmong a repository (path :: rest) =
        hitsAmong a repository [path] ++ hitsAmong a repository rest := by
      rw [hitsAmong, hitsAmong, hitsAmong, ← List.map_append, ← List.filter_append]
      rfl
    rw [List.foldl_cons, hsplit, ← List.append_assoc, List.append_cons]
    exact ih (h.offer repository path)

/-- What comes after a full discovery is neither kept nor looked at. -/
theorem After.append (h : After a paths hits d) (hfull : d.full = true) {morePaths : List Path}
    {more : List Candidate} (hmore : more.map (·.path) = a.kept morePaths) :
    After a (paths ++ morePaths) (hits ++ more) d := by
  have hover := h.full.mp hfull
  have henough := hover.isReached
  rw [← h.length_hits] at henough
  refine ⟨?_, ?_, iff_of_true hfull ?_⟩
  · rw [List.map_append, h.kept, hmore, Admission.kept_append]
  · rw [Admission.cap_append_of_isReached henough]
    exact h.found
  · obtain ⟨before, path, after, rfl, hreached⟩ := hover
    exact ⟨before, path, after ++ morePaths, List.append_assoc .., hreached⟩

/-- The Essence files below some roots, root by root. -/
def filesBelow (t : FileTree) (roots : List Path) : List Path :=
  roots.flatMap fun root => t.filesBelow root Path.isEssence

theorem filesBelow_cons (t : FileTree) (root : Path) (rest : List Path) :
    filesBelow t (root :: rest) = t.filesBelow root Path.isEssence ++ filesBelow t rest :=
  List.flatMap_cons

/-- Over all roots the paths of the hits are the kept paths of the walk. -/
theorem map_path_hitsBelow (t : FileTree) (a : Admission) (roots : List Path) :
    (roots.flatMap (hitsBelow t a)).map (·.path) = a.kept (filesBelow t roots) := by
  induction roots with
  | nil => rfl
  | cons root rest ih =>
    rw [List.flatMap_cons, List.map_append, ih, hitsBelow, map_path_hitsAmong, filesBelow_cons,
      Admission.kept_append]

/-- **The roots are gone through, if all of them are directories.** -/
theorem After.visit (roots : List Path) (hroots : ∀ root ∈ roots, t.isDirectory root = true)
    (h : After a paths hits d) : ∃ last, Discovery.visit t a roots d = .ok last ∧
      After a (paths ++ filesBelow t roots) (hits ++ roots.flatMap (hitsBelow t a)) last := by
  -- Root by root. Once the cap overflows, no further root is visited.
  induction roots generalizing paths hits d with
  | nil =>
    refine ⟨d, rfl, ?_⟩
    rw [filesBelow, List.flatMap_nil, List.flatMap_nil, List.append_nil, List.append_nil]
    exact h
  | cons root rest ih =>
    obtain ⟨hroot, hrest⟩ := List.forall_mem_cons.mp hroots
    rw [Discovery.visit]
    by_cases hfull : d.full = true
    · rw [if_pos hfull]
      exact ⟨d, rfl, h.append hfull (map_path_hitsBelow t a (root :: rest))⟩
    · rw [if_neg hfull, FileTree.essenceFiles?, if_pos hroot, filesBelow_cons, List.flatMap_cons,
        ← List.append_assoc, ← List.append_assoc]
      exact ih hrest (h.foldl_offer (repositoryName root) _)

end Discovery

namespace CensusSettings

variable {settings : CensusSettings} {t : FileTree}

/-- All candidates below the roots of a census, whatever cap there is. -/
def hits (settings : CensusSettings) (t : FileTree) : List Candidate :=
  (settings.roots.map (·.1)).flatMap (Discovery.hitsBelow t settings.admission)

/-- A candidate is a path of an Essence file below a root that is not left out. -/
theorem mem_hits {hit : Candidate} : hit ∈ settings.hits t ↔ ∃ root ∈ settings.roots,
    hit.path ∈ t.filesBelow root.1 Path.isEssence ∧
      settings.admission.excluded hit.path = false ∧
      hit.repository = Discovery.repositoryName root.1 := by
  rw [hits, List.mem_flatMap]
  constructor
  · rintro ⟨root, hroot, hhit⟩
    obtain ⟨root, hmem, rfl⟩ := List.mem_map.mp hroot
    obtain ⟨p, hp, rfl⟩ := List.mem_map.mp hhit
    obtain ⟨hbelow, hkept⟩ := List.mem_filter.mp hp
    exact ⟨root, hmem, hbelow, (Bool.not_eq_true' _).mp hkept, rfl⟩
  · rintro ⟨root, hmem, hbelow, hkept, hrepository⟩
    obtain ⟨p, repository⟩ := hit
    obtain rfl : repository = Discovery.repositoryName root.1 := hrepository
    exact ⟨root.1, List.mem_map_of_mem hmem, List.mem_map_of_mem
      (List.mem_filter.mpr ⟨hbelow, (Bool.not_eq_true' _).mpr hkept⟩)⟩

/-- **The candidates of a census are the first ones of all that there are below its roots.** -/
theorem candidates_eq (h : ∀ root ∈ settings.roots, t.isDirectory root.1 = true) :
    settings.candidates t = .ok (settings.admission.cap (settings.hits t)) := by
  have hroots : ∀ root ∈ settings.roots.map (·.1), t.isDirectory root = true :=
    List.forall_mem_map.mpr h
  obtain ⟨last, hlast, hafter⟩ :=
    (Discovery.after_start settings.admission).visit (settings.roots.map (·.1)) hroots
  rw [candidates, hlast, hits]
  exact congrArg Except.ok hafter.found

end CensusSettings

namespace Census

variable {settings : CensusSettings} {t : FileTree} {oracle : Oracle} {c : Census}

/-- A census holds the scan of its candidates. -/
theorem ofOracle_eq_ok (h : ofOracle settings t oracle = .ok c) :
    ∃ cs, settings.candidates t = .ok cs ∧
      c.index = (Scan.ofCandidates t oracle settings.blocked cs).index ∧
      c.skipped = (Scan.ofCandidates t oracle settings.blocked cs).skipped ∧ c.version = none := by
  rw [ofOracle] at h
  cases hcandidates : settings.candidates t with
  | error e =>
    rw [hcandidates] at h
    cases h
  | ok cs =>
    rw [hcandidates] at h
    cases h
    exact ⟨cs, rfl, rfl, rfl, rfl⟩

/-- The index of a census is consistent. -/
theorem consistent_of_ofOracle (h : ofOracle settings t oracle = .ok c) : c.index.Consistent := by
  obtain ⟨cs, -, hindex, -, -⟩ := ofOracle_eq_ok h
  rw [hindex]
  exact Scan.consistent_ofCandidates cs

end Census

end KeywordCensus
