/-!
# Finite maps listed in key order

`SortedMap α` maps texts to values of type `α`. Its entries stand in one list whose keys strictly
increase, so the order in which a map is read out is part of the type and two maps with the same
look-ups are the same map (`SortedMap.ext_get?`).

Main statements: `get?_insert` and `get?_insertIfNew` say what the two ways of adding an entry do
to look-ups; nothing else about the representation is used elsewhere.
-/

namespace KeywordCensus

universe u v

/-- Keys strictly increase along the list. -/
def KeysIncrease {α : Type u} (entries : List (String × α)) : Prop :=
  entries.Pairwise fun a b => a.1 < b.1

/-- A finite map from texts to `α`, listed in strictly increasing key order. -/
structure SortedMap (α : Type u) where
  /-- The entries, in key order. -/
  entries : List (String × α)
  /-- No key occurs twice, and smaller keys come first. -/
  increasing : KeysIncrease entries

/-- A finite set of texts, as the map that sends each member to the unit value. -/
abbrev TextSet : Type := SortedMap Unit

namespace Entries

variable {α : Type u}

/-- The value stored under a key. -/
def get? (key : String) : List (String × α) → Option α
  | [] => none
  | (k, v) :: rest => if k = key then some v else get? key rest

/-- Put a value under a key at its place in the order, replacing what was there. -/
def insert (key : String) (value : α) : List (String × α) → List (String × α)
  | [] => [(key, value)]
  | (k, v) :: rest =>
    if key < k then (key, value) :: (k, v) :: rest
    else if k = key then (key, value) :: rest
    else (k, v) :: insert key value rest

theorem mem_insert {key : String} {value : α} {e : String × α} :
    ∀ {l : List (String × α)}, e ∈ insert key value l → e = (key, value) ∨ e ∈ l
  | [], h => by simpa [insert] using h
  | (k, v) :: rest, h => by
    unfold insert at h
    split at h
    · simpa using h
    · split at h
      · rcases List.mem_cons.1 h with h | h
        · exact .inl h
        · exact .inr (List.mem_cons_of_mem _ h)
      · rcases List.mem_cons.1 h with h | h
        · exact .inr (h ▸ List.mem_cons_self ..)
        · exact (mem_insert h).imp id (List.mem_cons_of_mem _)

theorem lt_of_not_lt_of_ne {a b : String} (h : ¬ a < b) (hne : b ≠ a) : b < a :=
  Classical.byContradiction fun h' =>
    hne (String.le_antisymm (String.not_lt.1 h) (String.not_lt.1 h'))

theorem keysIncrease_insert (key : String) (value : α) :
    ∀ {l : List (String × α)}, KeysIncrease l → KeysIncrease (insert key value l)
  | [], _ => by simp [insert, KeysIncrease]
  | (k, v) :: rest, h => by
    have hrest : KeysIncrease rest := (List.pairwise_cons.1 h).2
    have hhead := (List.pairwise_cons.1 h).1
    unfold insert
    split
    · rename_i hlt
      refine List.pairwise_cons.2 ⟨fun e he => ?_, h⟩
      rcases List.mem_cons.1 he with rfl | he
      · exact hlt
      · exact String.lt_trans hlt (hhead e he)
    · rename_i hnlt
      split
      · rename_i heq
        exact List.pairwise_cons.2 ⟨fun e he => heq ▸ hhead e he, hrest⟩
      · rename_i hne
        refine List.pairwise_cons.2 ⟨fun e he => ?_, keysIncrease_insert key value hrest⟩
        rcases mem_insert he with rfl | he
        · exact lt_of_not_lt_of_ne hnlt hne
        · exact hhead e he

theorem get?_insert (key other : String) (value : α) (l : List (String × α)) :
    get? other (insert key value l) = if key = other then some value else get? other l := by
  induction l with
  | nil => simp [insert, get?]
  | cons e rest ih =>
    obtain ⟨k, v⟩ := e
    unfold insert
    split
    · simp only [get?]
    · split
      · rename_i heq
        subst heq
        simp only [get?]
        split <;> rfl
      · rename_i hne
        simp only [get?, ih]
        split
        · rename_i hk
          subst hk
          rw [if_neg (fun h => hne h.symm)]
        · rfl

theorem get?_eq_none_of_lt {key : String} {l : List (String × α)}
    (h : ∀ e ∈ l, key < e.1) : get? key l = none := by
  induction l with
  | nil => rfl
  | cons e rest ih =>
    obtain ⟨k, v⟩ := e
    have hk : key < k := h (k, v) (List.mem_cons_self ..)
    have hne : k ≠ key := fun heq => String.lt_irrefl _ (heq ▸ hk)
    simp only [get?, if_neg hne]
    exact ih fun e he => h e (List.mem_cons_of_mem _ he)

/-- Lists in key order with the same look-ups are equal. -/
theorem eq_of_get?_eq : ∀ {l l' : List (String × α)}, KeysIncrease l → KeysIncrease l' →
    (∀ key, get? key l = get? key l') → l = l'
  | [], [], _, _, _ => rfl
  | [], (k, v) :: rest, _, _, h => by
    have := h k
    simp [get?] at this
  | (k, v) :: rest, [], _, _, h => by
    have := h k
    simp [get?] at this
  | (k, v) :: rest, (k', v') :: rest', hl, hl', h => by
    have hhead := (List.pairwise_cons.1 hl).1
    have hhead' := (List.pairwise_cons.1 hl').1
    have hkk : k = k' := by
      refine Classical.byContradiction fun hne => ?_
      by_cases hlt : k < k'
      · have hk := h k
        rw [get?_eq_none_of_lt (l := (k', v') :: rest') (fun e he => by
          rcases List.mem_cons.1 he with rfl | he
          · exact hlt
          · exact String.lt_trans hlt (hhead' e he))] at hk
        simp [get?] at hk
      · have hgt : k' < k := lt_of_not_lt_of_ne hlt (fun e => hne e.symm)
        have hk := h k'
        rw [get?_eq_none_of_lt (l := (k, v) :: rest) (fun e he => by
          rcases List.mem_cons.1 he with rfl | he
          · exact hgt
          · exact String.lt_trans hgt (hhead e he))] at hk
        simp [get?] at hk
    subst hkk
    have hvv : v = v' := by
      have hk := h k
      simpa [get?] using hk
    subst hvv
    have htail : rest = rest' :=
      eq_of_get?_eq (List.pairwise_cons.1 hl).2 (List.pairwise_cons.1 hl').2 fun key => by
        by_cases hk : k = key
        · subst hk
          rw [get?_eq_none_of_lt hhead, get?_eq_none_of_lt hhead']
        · have := h key
          simpa [get?, hk] using this
    rw [htail]

end Entries

namespace SortedMap

variable {α : Type u} {β : Type v}

/-- The map without entries. -/
def empty : SortedMap α := ⟨[], List.Pairwise.nil⟩

instance : EmptyCollection (SortedMap α) := ⟨empty⟩

instance : Inhabited (SortedMap α) := ⟨empty⟩

/-- The value stored under a key. -/
def get? (m : SortedMap α) (key : String) : Option α := Entries.get? key m.entries

/-- Does the map have an entry for this key? -/
def contains (m : SortedMap α) (key : String) : Bool := (m.get? key).isSome

/-- Put a value under a key, replacing what was there. -/
def insert (m : SortedMap α) (key : String) (value : α) : SortedMap α :=
  ⟨Entries.insert key value m.entries, Entries.keysIncrease_insert key value m.increasing⟩

/-- Put a value under a key unless the key is taken. -/
def insertIfNew (m : SortedMap α) (key : String) (value : α) : SortedMap α :=
  if m.contains key then m else m.insert key value

/-- The map whose entries are inserted from left to right: for a repeated key the last one stays. -/
def ofList (entries : List (String × α)) : SortedMap α :=
  entries.foldl (fun m e => m.insert e.1 e.2) empty

/-- The set of the listed texts. -/
def setOf (members : List String) : TextSet :=
  ofList (members.map fun text => (text, ()))

/-- The keys, in order. -/
def keys (m : SortedMap α) : List String := m.entries.map (·.1)

/-- The values, in the order of their keys. -/
def values (m : SortedMap α) : List α := m.entries.map (·.2)

/-- The number of entries. -/
def size (m : SortedMap α) : Nat := m.entries.length

/-- Is there no entry? -/
def isEmpty (m : SortedMap α) : Bool := m.entries.isEmpty

/-- The entries whose key passes a test. -/
def filterKeys (m : SortedMap α) (keep : String → Bool) : SortedMap α :=
  ⟨m.entries.filter fun e => keep e.1, m.increasing.filter _⟩

/-- The map without the entry for a key. -/
def erase (m : SortedMap α) (key : String) : SortedMap α := m.filterKeys fun k => k != key

@[simp] theorem get?_empty (key : String) : (empty : SortedMap α).get? key = none := rfl

theorem get?_insert (m : SortedMap α) (key other : String) (value : α) :
    (m.insert key value).get? other = if key = other then some value else m.get? other :=
  Entries.get?_insert key other value m.entries

@[simp] theorem get?_insert_self (m : SortedMap α) (key : String) (value : α) :
    (m.insert key value).get? key = some value := by
  rw [get?_insert, if_pos rfl]

theorem get?_insertIfNew (m : SortedMap α) (key other : String) (value : α) :
    (m.insertIfNew key value).get? other =
      if key = other then some ((m.get? key).getD value) else m.get? other := by
  unfold insertIfNew contains
  split
  · rename_i hsome
    split
    · rename_i heq
      subst heq
      obtain ⟨old, hold⟩ := Option.isSome_iff_exists.1 hsome
      simp [hold]
    · rfl
  · rename_i hnone
    rw [get?_insert]
    have : m.get? key = none := by simpa using hnone
    simp [this]

/-- Maps with the same look-ups are equal. -/
@[ext] theorem ext_get? {m m' : SortedMap α} (h : ∀ key, m.get? key = m'.get? key) : m = m' := by
  obtain ⟨l, hl⟩ := m
  obtain ⟨l', hl'⟩ := m'
  have : l = l' := Entries.eq_of_get?_eq hl hl' h
  subst this
  rfl

instance [DecidableEq α] : DecidableEq (SortedMap α) := fun m m' =>
  if h : m.entries = m'.entries then
    .isTrue (by cases m; cases m'; cases h; rfl)
  else .isFalse fun heq => h (congrArg entries heq)

end SortedMap

end KeywordCensus
