import KeywordCensus.Json.Basic

/-!
# Counting the keys of a syntax tree

A syntax tree names its constructs by the keys of its objects. `countKeys` says how often each key
occurs anywhere in a tree, blocked keys left out; what lies below a blocked key is still counted.
The count walks the tree with a list of subtrees still to visit, so that no tree is too deep for it.
Beside it stands `Json.occurrences`, the number of times one key occurs, by recursion on the tree.
-/

namespace KeywordCensus

/-- How often each of some keys occurs. -/
abbrev Tally : Type := SortedMap Nat

namespace Tally

/-- The count of a key, zero for one that does not occur. -/
def count (t : Tally) (key : String) : Nat := (t.get? key).getD 0

/-- Count one more occurrence of a key. -/
def bump (t : Tally) (key : String) : Tally := t.insert key (t.count key + 1)

@[simp] theorem count_bump (t : Tally) (key other : String) :
    (t.bump key).count other = if key = other then t.count key + 1 else t.count other := by
  unfold bump count
  rw [SortedMap.get?_insert]
  split <;> rfl

/-- Count the keys of the fields of one object. -/
def addFields (blocked : TextSet) (t : Tally) (fields : List (String × Json)) : Tally :=
  fields.foldl (fun t e => if blocked.contains e.1 then t else t.bump e.1) t

end Tally

/-- The trees directly below a tree. -/
def Json.children : Json → List Json
  | .array items => items
  | .object fields => fields.map (·.2)
  | _ => []

theorem Json.sizeItems_children (tree : Json) : sizeItems tree.children + 1 = tree.size := by
  cases tree <;> simp [children, size, sizeItems] <;> omega

/-- The fields of a tree itself. -/
def Json.fields : Json → List (String × Json)
  | .object fields => fields
  | _ => []

/-- Count the keys of the trees still to visit, the last of the trees below one first. -/
def countPending (blocked : TextSet) : List Json → Tally → Tally
  | [], t => t
  | tree :: pending, t =>
    countPending blocked (tree.children.reverse ++ pending) (t.addFields blocked tree.fields)
termination_by pending => Json.sizeItems pending
decreasing_by
  have := Json.sizeItems_children tree
  simp only [Json.sizeItems, Json.sizeItems_append, Json.sizeItems_reverse]
  omega

/-- How often each key occurs in a tree, blocked keys left out. -/
def countKeys (blocked : TextSet) (tree : Json) : Tally :=
  countPending blocked [tree] SortedMap.empty

namespace Json

mutual

/-- How many fields with a given key a tree holds, at any depth. -/
def occurrences (key : String) : Json → Nat
  | .array items => occurrencesItems key items
  | .object fields => occurrencesFields key fields
  | _ => 0

/-- How many fields with a given key the trees of a list hold. -/
def occurrencesItems (key : String) : List Json → Nat
  | [] => 0
  | item :: rest => occurrences key item + occurrencesItems key rest

/-- How many fields with a given key some fields and the trees below them hold. -/
def occurrencesFields (key : String) : List (String × Json) → Nat
  | [] => 0
  | (k, value) :: rest =>
    (if k = key then 1 else 0) + occurrences key value + occurrencesFields key rest

end

end Json

end KeywordCensus
