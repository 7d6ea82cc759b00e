import KeywordCensus.Proofs.Census.Partition

/-!
# Ranked lists

The files and the keywords of a census stand in the order of their names, and for a report they are
sorted by a number, ascending or descending. The sort keeps items with equal numbers as they were
(`filter_sortBy`), so what comes out is ranked by the number, and by the name where numbers are equal,
in whichever direction the numbers go (`ranked_filesByLines`, `ranked_keywordsBy`).

The first items of a ranked list are the best ones: what is left out is ranked behind all of them.
-/

namespace KeywordCensus

namespace SortedMap

variable {α : Type}

/-- Values that tell their keys are listed by what they tell. -/
theorem pairwise_values {m : SortedMap α} {name : α → String}
    (h : ∀ key value, m.get? key = some value → name value = key) :
    m.values.Pairwise fun a b => name a < name b := by
  refine List.pairwise_map.mpr (m.increasing.imp_of_mem ?_)
  rintro ⟨key, a⟩ ⟨key', b⟩ ha hb hlt
  rw [h key a (mem_entries.mp ha), h key' b (mem_entries.mp hb)]
  exact hlt

end SortedMap

namespace Census

variable {α : Type} {number : α → Nat} {name : α → String} {descending : Bool} {a b : α}
  {xs : List α}

/-- Does a number stand before another one, in the direction of a sort? -/
def Before (descending : Bool) (m n : Nat) : Prop := if descending then n < m else m < n

/-- Is an item ranked before another one: by its number, or by its name if the numbers are equal? -/
def RanksBefore (number : α → Nat) (name : α → String) (descending : Bool) (a b : α) : Prop :=
  Before descending (number a) (number b) ∨ number a = number b ∧ name a < name b

/-- Does the sort let an item stand before another one? -/
def mayPrecede (number : α → Nat) (descending : Bool) (a b : α) : Bool :=
  (directed descending (compare (number a) (number b))).isLE

/-- A row may precede another of a better or an equal number. -/
theorem mayPrecede_iff : mayPrecede number descending a b = true ↔
    Before descending (number a) (number b) ∨ number a = number b := by
  cases descending with
  | false =>
    show (compare (number a) (number b)).isLE = true ↔ number a < number b ∨ number a = number b
    rw [Nat.isLE_compare]
    exact Nat.le_iff_lt_or_eq
  | true =>
    show (compare (number a) (number b)).swap.isLE = true ↔ number b < number a ∨ _
    rw [Nat.compare_swap, Nat.isLE_compare, Nat.le_iff_lt_or_eq, eq_comm (a := number a)]

/-- The order of the rows is transitive. -/
theorem mayPrecede_trans (a b c : α) (hab : mayPrecede number descending a b = true)
    (hbc : mayPrecede number descending b c = true) : mayPrecede number descending a c = true := by
  rw [mayPrecede_iff, Before] at *
  cases descending with
  | false =>
    simp only [Bool.false_eq_true, if_false] at *
    omega
  | true =>
    simp only [if_true] at *
    omega

theorem mayPrecede_total (a b : α) :
    (mayPrecede number descending a b || mayPrecede number descending b a) = true := by
  rw [Bool.or_eq_true, mayPrecede_iff, mayPrecede_iff, Before, Before]
  cases descending with
  | false =>
    simp only [Bool.false_eq_true, if_false]
    omega
  | true =>
    simp only [if_true]
    omega

theorem perm_sortBy (number : α → Nat) (descending : Bool) (xs : List α) :
    (sortBy compare number descending xs).Perm xs := List.mergeSort_perm ..

/-- **Items with equal numbers stay as they are.** -/
theorem filter_sortBy (n : Nat) : (sortBy compare number descending xs).filter
    (fun a => number a = n) = xs.filter fun a => number a = n := by
  -- The items with this number may stand as they are, so a stable sort has them in this order.
  have hequal : (xs.filter fun a => number a = n).Pairwise
      fun a b => mayPrecede number descending a b = true := by
    refine List.pairwise_of_forall_mem_list fun a ha b hb => mayPrecede_iff.mpr (.inr ?_)
    rw [of_decide_eq_true (List.mem_filter.mp ha).2, of_decide_eq_true (List.mem_filter.mp hb).2]
  have hsub : (xs.filter fun a => number a = n).Sublist (sortBy compare number descending xs) :=
    List.sublist_mergeSort mayPrecede_trans mayPrecede_total hequal List.filter_sublist
  have hkept := hsub.filter fun a => decide (number a = n)
  simp only [List.filter_filter, Bool.and_self] at hkept
  refine (hkept.eq_of_length ?_).symm
  exact ((perm_sortBy number descending xs).filter _).length_eq.symm

/-- **A list that is sorted by names is ranked once it is sorted by numbers.** -/
theorem ranked_sortBy (h : xs.Pairwise fun a b => name a < name b) :
    (sortBy compare number descending xs).Pairwise (RanksBefore number name descending) := by
  have hsorted :=
    List.pairwise_mergeSort (@mayPrecede_trans _ number descending) mayPrecede_total xs
  rw [List.pairwise_iff_forall_sublist] at h hsorted ⊢
  intro a b hab
  rcases mayPrecede_iff.mp (hsorted hab) with hbefore | hequal
  · exact .inl hbefore
  · -- Both are among the items with their number, which stand as they did before.
    refine .inr ⟨hequal, h ?_⟩
    have hkept := hab.filter fun x => decide (number x = number b)
    simp only [filter_sortBy, List.filter_cons, List.filter_nil, hequal, decide_true,
      if_true] at hkept
    exact hkept.trans List.filter_sublist

variable {c : Census}

/-- Sorting the files by their lines loses and repeats none. -/
theorem perm_filesByLines (c : Census) (descending : Bool) :
    (c.filesByLines descending).Perm c.files := perm_sortBy ..

theorem perm_keywordsBy (c : Census) (descending : Bool) :
    (c.keywordsBy .mostUsed descending).Perm c.keywords := perm_sortBy ..

/-- **The files are ranked by their numbers of lines, and then by what is shown of their paths.** -/
theorem ranked_filesByLines (hc : c.index.Consistent) (descending : Bool) :
    (c.filesByLines descending).Pairwise
      (RanksBefore Specification.lines (fun f => f.path.shown) descending) :=
  ranked_sortBy (SortedMap.pairwise_values hc.keyed)

/-- A usage in a consistent index has the keyword as its name. -/
theorem name_eq_key (hc : c.index.Consistent) {keyword : String} {u : Usage}
    (h : c.index.keywords.get? keyword = some u) : u.name = keyword := by
  rw [hc.counted] at h
  obtain ⟨-, rfl⟩ := Usage.tally?_eq_some_iff.mp h
  rfl

/-- **The keywords are ranked by their numbers of uses, and then by their names.** -/
theorem ranked_keywordsBy (hc : c.index.Consistent) (descending : Bool) :
    (c.keywordsBy .mostUsed descending).Pairwise
      (RanksBefore Usage.total Usage.name descending) :=
  ranked_sortBy (SortedMap.pairwise_values fun _ _ => name_eq_key hc)

end Census

end KeywordCensus
