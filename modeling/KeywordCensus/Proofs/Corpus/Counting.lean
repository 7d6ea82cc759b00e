import KeywordCensus.Proofs.Corpus.Loading

/-!
# The counts of a syntax tree are exact

`countKeys` walks a tree with a list of trees still to visit, whose order has nothing to do with the
tree. It is compared here with two readings of the tree itself. `Json.nodes` lists every tree at and
below a tree, so that the fields of these are all the fields there are, and `Json.occurrences` counts
the ones with a given key by recursion; both agree (`Json.occurrences_eq_countP`).

The invariant of the walk is a sum: what has been counted of a key, and what the pending trees still
hold of it, is the same before and after each tree that is visited (`Tally.count_countPending`). The
main statement is that the walk comes to an end after as many rounds as there are nodes, with the
counts that `Json.Counted` describes and no others (`countKeys_iff_counted`).
-/

namespace KeywordCensus

/-! ## The nodes of a tree -/

namespace Json

mutual

/-- Every tree at and below a tree, each one where it stands. -/
def nodes : Json → List Json
  | .array items => .array items :: nodesOfItems items
  | .object fields => .object fields :: nodesOfFields fields
  | value => [value]

/-- Every tree at and below the trees of a list. -/
def nodesOfItems : List Json → List Json
  | [] => []
  | item :: rest => nodes item ++ nodesOfItems rest

/-- Every tree at and below the values of some fields. -/
def nodesOfFields : List (String × Json) → List Json
  | [] => []
  | (_, value) :: rest => nodes value ++ nodesOfFields rest

end

/-- Every field of every object in a tree. -/
def allFields (tree : Json) : List (String × Json) := tree.nodes.flatMap fields

/-- Does a field have a given key? -/
def hasKey (key : String) (field : String × Json) : Bool := decide (field.1 = key)

variable (key : String)

mutual

/-- **The recursion counts the fields of all nodes.** -/
theorem occurrences_eq_countP : ∀ tree : Json,
    tree.occurrences key = tree.allFields.countP (hasKey key)
  | .null => rfl
  | .bool _ => rfl
  | .number _ => rfl
  | .text _ => rfl
  | .array items => by
    rw [occurrences, occurrencesItems_eq_countP items, allFields, nodes, List.flatMap_cons]
    rfl
  | .object entries => by
    rw [occurrences, occurrencesFields_eq_countP entries, allFields, nodes, List.flatMap_cons,
      List.countP_append, fields]

theorem occurrencesItems_eq_countP : ∀ items : List Json,
    occurrencesItems key items = ((nodesOfItems items).flatMap fields).countP (hasKey key)
  | [] => rfl
  | item :: rest => by
    rw [occurrencesItems, occurrences_eq_countP item, occurrencesItems_eq_countP rest, nodesOfItems,
      List.flatMap_append, List.countP_append, allFields]

theorem occurrencesFields_eq_countP : ∀ entries : List (String × Json),
    occurrencesFields key entries =
      entries.countP (hasKey key) + ((nodesOfFields entries).flatMap fields).countP (hasKey key)
  | [] => rfl
  | (k, value) :: rest => by
    rw [occurrencesFields, occurrences_eq_countP value, occurrencesFields_eq_countP rest,
      nodesOfFields, List.flatMap_append, List.countP_append, List.countP_cons, allFields, hasKey]
    simp only [decide_eq_true_eq]
    omega

end

mutual

/-- There are as many nodes as the size says. -/
theorem length_nodes : ∀ tree : Json, tree.nodes.length = tree.size
  | .null => rfl
  | .bool _ => rfl
  | .number _ => rfl
  | .text _ => rfl
  | .array items => by
    rw [nodes, List.length_cons, length_nodesOfItems items, size, Nat.add_comm]
  | .object entries => by
    rw [nodes, List.length_cons, length_nodesOfFields entries, size, Nat.add_comm]

/-- A list of values has as many nodes as its size says. -/
theorem length_nodesOfItems : ∀ items : List Json, (nodesOfItems items).length = sizeItems items
  | [] => rfl
  | item :: rest => by
    rw [nodesOfItems, List.length_append, length_nodes item, length_nodesOfItems rest, sizeItems]

theorem length_nodesOfFields : ∀ entries : List (String × Json),
    (nodesOfFields entries).length = sizeFields entries
  | [] => rfl
  | (_, value) :: rest => by
    rw [nodesOfFields, List.length_append, length_nodes value, length_nodesOfFields rest, sizeFields]

end

/-- A key occurs if some object at or below the tree has it. -/
theorem occurrences_pos_iff {tree : Json} :
    0 < tree.occurrences key ↔ ∃ node ∈ tree.nodes, ∃ value, (key, value) ∈ node.fields := by
  rw [occurrences_eq_countP, List.countP_pos_iff, allFields]
  constructor
  · rintro ⟨⟨k, value⟩, hmem, hkey⟩
    obtain ⟨node, hnode, hfield⟩ := List.mem_flatMap.mp hmem
    have heq : k = key := of_decide_eq_true hkey
    exact ⟨node, hnode, value, heq ▸ hfield⟩
  · rintro ⟨node, hnode, value, hfield⟩
    exact ⟨(key, value), List.mem_flatMap.mpr ⟨node, hnode, hfield⟩, decide_eq_true rfl⟩

/-! ## One tree and the trees below it -/

theorem occurrencesItems_append (items more : List Json) :
    occurrencesItems key (items ++ more) =
      occurrencesItems key items + occurrencesItems key more := by
  induction items with
  | nil => rw [List.nil_append, occurrencesItems, Nat.zero_add]
  | cons item rest ih => rw [List.cons_append, occurrencesItems, occurrencesItems, ih, Nat.add_assoc]

/-- The order in which trees are pending does not matter. -/
theorem occurrencesItems_reverse (items : List Json) :
    occurrencesItems key items.reverse = occurrencesItems key items := by
  induction items with
  | nil => rfl
  | cons item rest ih =>
    rw [List.reverse_cons, occurrencesItems_append, ih, occurrencesItems, occurrencesItems,
      occurrencesItems, Nat.add_zero, Nat.add_comm]

/-- The occurrences of a key in the fields are the fields that carry it and its occurrences in their
values. -/
theorem occurrencesFields_eq (entries : List (String × Json)) :
    occurrencesFields key entries =
      entries.countP (hasKey key) + occurrencesItems key (entries.map (·.2)) := by
  induction entries with
  | nil => rfl
  | cons field rest ih =>
    obtain ⟨k, value⟩ := field
    rw [occurrencesFields, ih, List.map_cons, occurrencesItems, List.countP_cons, hasKey]
    simp only [decide_eq_true_eq]
    omega

/-- A tree holds a key in its own fields and in the trees directly below it. -/
theorem occurrences_eq (tree : Json) :
    tree.occurrences key =
      tree.fields.countP (hasKey key) + occurrencesItems key tree.children := by
  cases tree with
  | array items => exact (Nat.zero_add _).symm
  | object entries => exact occurrencesFields_eq key entries
  | null => rfl
  | bool => rfl
  | number => rfl
  | text => rfl

end Json

/-! ## The invariant of the walk -/

namespace Tally

variable {blocked : TextSet} {t : Tally} {key : String}

/-- Where every listed key occurs, the map is read off the counts. -/
theorem get?_eq_some_iff (h : t.Positive) {n : Nat} :
    t.get? key = some n ↔ t.count key = n ∧ 0 < n := by
  rw [count]
  constructor
  · intro hn
    rw [hn]
    exact ⟨rfl, h key n hn⟩
  · rintro ⟨rfl, hpos⟩
    cases hfound : t.get? key with
    | none =>
      rw [hfound] at hpos
      exact absurd hpos (Nat.lt_irrefl 0)
    | some n => rfl

/-- What there is to count of a key: nothing if it is blocked. -/
def due (blocked : TextSet) (key : String) (n : Nat) : Nat :=
  if blocked.contains key then 0 else n

/-- What is due for two numbers of occurrences adds up: a blocked key is due nothing for either. -/
theorem due_add (n m : Nat) : due blocked key (n + m) = due blocked key n + due blocked key m := by
  rw [due, due, due]
  split
  · rfl
  · rfl

/-- Counting the fields of one object raises the count of a key by what is due for the fields that
carry it. -/
theorem count_addFields (fields : List (String × Json)) :
    (addFields blocked t fields).count key =
      t.count key + due blocked key (fields.countP (Json.hasKey key)) := by
  induction fields generalizing t with
  | nil =>
    rw [List.countP_nil, due, ite_self]
    rfl
  | cons field rest ih =>
    rw [addFields, List.foldl_cons, ← addFields, ih, List.countP_cons, due_add, ← Nat.add_assoc,
      Nat.add_right_comm]
    refine congrArg (· + _) ?_
    by_cases hkey : field.1 = key
    · -- The field counts unless its key is blocked.
      rw [Json.hasKey, if_pos (decide_eq_true hkey), due, hkey]
      split
      · rfl
      · rw [count_bump, if_pos rfl]
    · rw [Json.hasKey, if_neg (fun h => hkey (of_decide_eq_true h)), due, ite_self, Nat.add_zero]
      split
      · rfl
      · rw [count_bump, if_neg hkey]

/-- **Counted and still to be counted add up to the same all the way.** -/
theorem count_countPending (pending : List Json) (t : Tally) :
    (countPending blocked pending t).count key =
      t.count key + due blocked key (Json.occurrencesItems key pending) := by
  induction pending, t using countPending.induct blocked with
  | case1 t => rw [countPending, Json.occurrencesItems, due, ite_self, Nat.add_zero]
  | case2 tree pending t ih =>
    rw [countPending, ih, count_addFields, Json.occurrencesItems_append,
      Json.occurrencesItems_reverse, Json.occurrencesItems, Json.occurrences_eq, Nat.add_assoc,
      ← due_add, Nat.add_assoc]

end Tally

/-! ## The rounds of the walk -/

/-- The walk over some pending trees ends after so many rounds, with some counts. -/
inductive CountsIn (blocked : TextSet) : Nat → List Json → Tally → Tally → Prop
  /-- No tree is pending. -/
  | done (t : Tally) : CountsIn blocked 0 [] t t
  /-- A tree is visited: its fields are counted, and its children are pending in its place. -/
  | visit {rounds : Nat} {tree : Json} {pending : List Json} {t result : Tally} :
      CountsIn blocked rounds (tree.children.reverse ++ pending) (t.addFields blocked tree.fields)
        result → CountsIn blocked (rounds + 1) (tree :: pending) t result

variable {blocked : TextSet}

/-- The loop over the pending values ends in the tally it began with and the occurrences of every
pending value: the induction is on the total size of what is pending. -/
theorem countsIn_countPending (pending : List Json) (t : Tally) :
    CountsIn blocked (Json.sizeItems pending) pending t (countPending blocked pending t) := by
  induction pending, t using countPending.induct blocked with
  | case1 t =>
    rw [countPending]
    exact .done t
  | case2 tree pending t ih =>
    have hsize : Json.sizeItems (tree :: pending) =
        Json.sizeItems (tree.children.reverse ++ pending) + 1 := by
      rw [Json.sizeItems, ← Json.sizeItems_children, Json.sizeItems_append, Json.sizeItems_reverse]
      omega
    rw [countPending, hsize]
    exact .visit ih

/-- The walk leaves no choice. -/
theorem CountsIn.unique {rounds other : Nat} {pending : List Json} {t result found : Tally}
    (h : CountsIn blocked rounds pending t result) (h' : CountsIn blocked other pending t found) :
    rounds = other ∧ result = found := by
  induction h generalizing other with
  | done t =>
    cases h'
    exact ⟨rfl, rfl⟩
  | visit _ ih =>
    cases h' with
    | visit hrest =>
      obtain ⟨hrounds, hresult⟩ := ih hrest
      exact ⟨congrArg (· + 1) hrounds, hresult⟩

/-! ## What the counts are -/

/-- What the counts of a tree are. -/
structure Json.Counted (blocked : TextSet) (tree : Json) (counts : Tally) : Prop where
  /-- A key is listed if some object at or below the tree has it and it is not blocked, whether the
  object lies below a blocked key or not. -/
  listed : ∀ key, key ∈ counts.keys ↔
    blocked.contains key = false ∧ ∃ node ∈ tree.nodes, ∃ value, (key, value) ∈ node.fields
  /-- It is listed with the number of its occurrences. -/
  counted : ∀ key n, counts.get? key = some n → n = tree.occurrences key
  /-- No key is listed without an occurrence. -/
  positive : counts.Positive

/-- What is found under a key in the counts of a tree. -/
theorem get?_countKeys {tree : Json} {key : String} {n : Nat} :
    (countKeys blocked tree).get? key = some n ↔
      blocked.contains key = false ∧ tree.occurrences key = n ∧ 0 < n := by
  have hcount : (countKeys blocked tree).count key =
      Tally.due blocked key (tree.occurrences key) := by
    rw [countKeys, Tally.count_countPending, Json.occurrencesItems, Json.occurrencesItems,
      Nat.add_zero]
    exact Nat.zero_add _
  -- No entry is zero, so an entry is a count that is due and positive.
  rw [Tally.get?_eq_some_iff (positive_countKeys blocked tree), hcount, Tally.due]
  cases blocked.contains key with
  | false =>
    rw [if_neg Bool.false_ne_true]
    exact ⟨fun h => ⟨rfl, h⟩, fun h => h.2⟩
  | true =>
    rw [if_pos rfl]
    constructor
    · rintro ⟨rfl, hpos⟩
      exact absurd hpos (Nat.lt_irrefl 0)
    · rintro ⟨hfree, -⟩
      cases hfree

theorem counted_countKeys (tree : Json) : tree.Counted blocked (countKeys blocked tree) := by
  constructor
  · intro key
    rw [SortedMap.mem_keys, ← Json.occurrences_pos_iff]
    constructor
    · rintro ⟨n, hn⟩
      obtain ⟨hfree, rfl, hpos⟩ := get?_countKeys.mp hn
      exact ⟨hfree, hpos⟩
    · rintro ⟨hfree, hpos⟩
      exact ⟨_, get?_countKeys.mpr ⟨hfree, rfl, hpos⟩⟩
  · intro key n hn
    exact (get?_countKeys.mp hn).2.1.symm
  · exact positive_countKeys blocked tree

/-- There is only one map of this kind. -/
theorem Json.Counted.unique {tree : Json} {counts found : Tally} (h : tree.Counted blocked counts)
    (h' : tree.Counted blocked found) : counts = found := by
  refine SortedMap.ext_get? fun key => ?_
  by_cases hlisted : key ∈ counts.keys
  · obtain ⟨n, hn⟩ := SortedMap.mem_keys.mp hlisted
    obtain ⟨m, hm⟩ := SortedMap.mem_keys.mp ((h'.listed key).mpr ((h.listed key).mp hlisted))
    rw [hn, hm, h.counted key n hn, h'.counted key m hm]
  · have hunlisted : key ∉ found.keys := fun hmem =>
      hlisted ((h.listed key).mpr ((h'.listed key).mp hmem))
    rw [SortedMap.get?_eq_none_iff.mpr hlisted, SortedMap.get?_eq_none_iff.mpr hunlisted]

/-- **The count of the keys of a tree is exact.** It is the one map that lists every key of the tree
that is not blocked with the number of its occurrences, and these are all the fields that have the
key. The walk with pending trees ends with this map, after as many rounds as the tree has nodes. -/
theorem countKeys_iff_counted (blocked : TextSet) (tree : Json) (counts : Tally) :
    (counts = countKeys blocked tree ↔ tree.Counted blocked counts) ∧
    (∀ key, tree.occurrences key = tree.allFields.countP (Json.hasKey key)) ∧
    ∀ rounds, CountsIn blocked rounds [tree] SortedMap.empty counts ↔
      rounds = tree.nodes.length ∧ tree.Counted blocked counts := by
  have hexact : counts = countKeys blocked tree ↔ tree.Counted blocked counts := by
    constructor
    · rintro rfl
      exact counted_countKeys tree
    · exact fun h => h.unique (counted_countKeys tree)
  have hwalk : CountsIn blocked tree.nodes.length [tree] SortedMap.empty (countKeys blocked tree) := by
    -- The rounds are the nodes, as each round takes one value off what is pending.
    have hsize : tree.nodes.length = Json.sizeItems [tree] := by
      rw [Json.length_nodes, Json.sizeItems, Json.sizeItems, Nat.add_zero]
    rw [hsize]
    exact countsIn_countPending [tree] SortedMap.empty
  refine ⟨hexact, fun key => tree.occurrences_eq_countP key, fun rounds => ?_⟩
  rw [← hexact]
  constructor
  · exact fun h => h.unique hwalk
  · rintro ⟨rfl, rfl⟩
    exact hwalk

/-- A blocked key is walked through, and a key below itself counts twice. -/
example : countKeys (SortedMap.setOf ["Op"])
    (.object [("Op", .object [("Name", .object [("Name", .text "Op")])])]) =
      SortedMap.ofList [("Name", 2)] := by
  decide +kernel

end KeywordCensus
