import KeywordCensus.SortedMap

/-!
# Entries, look-ups and unions of maps

A map is read in two ways: by the list of its entries, which sums and minima run over, and by its
look-ups, which decide whether two maps are equal. This module connects the two, and adds operations
that are given by their look-ups:

- `SortedMap.filterMap`: each value is replaced or left out, each key stays; `SortedMap.map` leaves
  none out;
- `SortedMap.ofList` keeps the last of several entries with one key (`get?_ofList`);
- `SortedMap.union`: the entries of a second map are added where the key is free
  (`get?_union`). It is the fold over entries by which one index takes over another one, and the
  order of those entries does not matter (`get?_foldl_insertIfNew`, `Entries.get?_perm`).
-/

namespace KeywordCensus

universe u v

namespace Entries

variable {α : Type u} {β : Type v}

/-- What is found under a key is an entry. -/
theorem mem_of_get? {key : String} {value : α} {l : List (String × α)}
    (h : get? key l = some value) : (key, value) ∈ l := by
  induction l with
  | nil => cases h
  | cons e rest ih =>
    obtain ⟨k, v⟩ := e
    rw [get?] at h
    by_cases hk : k = key
    · rw [if_pos hk, Option.some.injEq] at h
      rw [hk, h]
      exact List.mem_cons_self ..
    · rw [if_neg hk] at h
      exact List.mem_cons_of_mem _ (ih h)

instance (l : List (String × α)) : Decidable (KeysIncrease l) :=
  inferInstanceAs (Decidable (l.Pairwise fun a b => a.1 < b.1))

theorem nodup_keys {l : List (String × α)} (h : KeysIncrease l) : (l.map (·.1)).Nodup := by
  refine List.pairwise_map.mpr (h.imp ?_)
  intro a b hab heq
  rw [heq] at hab
  exact String.lt_irrefl _ hab

/-- Where no key occurs twice, every entry is found under its key. -/
theorem get?_of_mem {key : String} {value : α} {l : List (String × α)}
    (hnodup : (l.map (·.1)).Nodup) (h : (key, value) ∈ l) : get? key l = some value := by
  induction l with
  | nil => cases h
  | cons e rest ih =>
    obtain ⟨k, v⟩ := e
    obtain ⟨hfresh, hrest⟩ := List.nodup_cons.mp hnodup
    rw [get?]
    rcases List.mem_cons.mp h with heq | h
    · obtain ⟨rfl, rfl⟩ := Prod.mk.inj heq
      exact if_pos rfl
    · have hne : k ≠ key := fun heq => hfresh (heq ▸ List.mem_map_of_mem (f := (·.1)) h)
      rw [if_neg hne]
      exact ih hrest h

/-- Nothing is found under a key that no entry has. -/
theorem get?_eq_none_iff {key : String} {l : List (String × α)} :
    get? key l = none ↔ key ∉ l.map (·.1) := by
  induction l with
  | nil => exact ⟨fun _ => List.not_mem_nil, fun _ => rfl⟩
  | cons e rest ih =>
    obtain ⟨k, v⟩ := e
    rw [get?, List.map_cons, List.mem_cons, not_or]
    by_cases hk : k = key
    · rw [if_pos hk]
      constructor
      · intro h
        cases h
      · exact fun h => absurd hk.symm h.1
    · rw [if_neg hk, ih]
      exact ⟨fun h => ⟨fun heq => hk heq.symm, h⟩, fun h => h.2⟩

/-- Behind other entries, an entry is found if its key is free there. -/
theorem get?_append (key : String) (l l' : List (String × α)) :
    get? key (l ++ l') = (get? key l).or (get? key l') := by
  induction l with
  | nil => rfl
  | cons e rest ih =>
    obtain ⟨k, v⟩ := e
    rw [List.cons_append, get?, get?, ih]
    split
    · rfl
    · rfl

/-- Replacing values replaces what is found. -/
theorem get?_map_values (f : α → β) (key : String) (l : List (String × α)) :
    get? key (l.map fun e => (e.1, f e.2)) = (get? key l).map f := by
  induction l with
  | nil => rfl
  | cons e rest ih =>
    obtain ⟨k, v⟩ := e
    rw [List.map_cons, get?, get?]
    by_cases hk : k = key
    · rw [if_pos hk, if_pos hk, Option.map_some]
    · rw [if_neg hk, if_neg hk, ih]

/-- Where no key occurs twice, look-ups do not depend on the order of the entries. -/
theorem get?_perm {l l' : List (String × α)} (h : l.Perm l') (hnodup : (l.map (·.1)).Nodup)
    (key : String) : get? key l = get? key l' := by
  have hnodup' : (l'.map (·.1)).Nodup := (h.map _).nodup_iff.mp hnodup
  cases hl : get? key l with
  | some value => exact (get?_of_mem hnodup' (h.mem_iff.mp (mem_of_get? hl))).symm
  | none =>
    rw [get?_eq_none_iff] at hl
    exact (get?_eq_none_iff.mpr fun hk => hl ((h.map _).mem_iff.mpr hk)).symm

/-- Inserting under a free key adds one entry. -/
theorem perm_insert {key : String} (value : α) {l : List (String × α)}
    (h : get? key l = none) : (insert key value l).Perm ((key, value) :: l) := by
  induction l with
  | nil => exact List.Perm.refl _
  | cons e rest ih =>
    obtain ⟨k, v⟩ := e
    rw [get?] at h
    by_cases hk : k = key
    · rw [if_pos hk] at h
      cases h
    · rw [if_neg hk] at h
      rw [insert, if_neg hk]
      split
      · exact List.Perm.refl _
      · exact ((ih h).cons _).trans (List.Perm.swap ..)

/-- Dropping and replacing values does not disturb the order of the keys. -/
theorem keysIncrease_filterMap (f : α → Option β) {l : List (String × α)} (h : KeysIncrease l) :
    KeysIncrease (l.filterMap fun e => (f e.2).map fun v => (e.1, v)) := by
  refine List.Pairwise.filterMap _ ?_ h
  intro a b hab c hc d hd
  obtain ⟨v, -, rfl⟩ := Option.map_eq_some_iff.mp hc
  obtain ⟨w, -, rfl⟩ := Option.map_eq_some_iff.mp hd
  exact hab

theorem get?_filterMap (f : α → Option β) (key : String) {l : List (String × α)}
    (hnodup : (l.map (·.1)).Nodup) :
    get? key (l.filterMap fun e => (f e.2).map fun v => (e.1, v)) = (get? key l).bind f := by
  induction l with
  | nil => rfl
  | cons e rest ih =>
    obtain ⟨k, v⟩ := e
    obtain ⟨hfresh, hrest⟩ := List.nodup_cons.mp hnodup
    rw [List.filterMap_cons, get?]
    by_cases hk : k = key
    · subst hk
      rw [if_pos rfl, Option.bind_some]
      cases hf : f v with
      | some w =>
        rw [Option.map_some, get?]
        exact if_pos rfl
      | none =>
        rw [Option.map_none]
        show get? k (rest.filterMap _) = none
        rw [ih hrest, get?_eq_none_iff.mpr hfresh, Option.bind_none]
    · rw [if_neg hk, ← ih hrest]
      cases hf : f v with
      | some w =>
        rw [Option.map_some, get?]
        exact if_neg hk
      | none => rw [Option.map_none]

/-- Only entries whose key passes the test are found. -/
theorem get?_filter (keep : String → Bool) (key : String) (l : List (String × α)) :
    get? key (l.filter fun e => keep e.1) = if keep key then get? key l else none := by
  induction l with
  | nil => exact (ite_self none).symm
  | cons e rest ih =>
    obtain ⟨k, v⟩ := e
    rw [List.filter_cons]
    by_cases hk : k = key
    · subst hk
      cases hkeep : keep k with
      | true => simp [get?]
      | false => simpa [hkeep] using ih
    · cases hkeep : keep k with
      | true => simpa [get?, hk] using ih
      | false => simpa [get?, hk] using ih

end Entries

namespace SortedMap

variable {α : Type u} {β : Type v}

theorem nodup_keys (m : SortedMap α) : m.keys.Nodup := Entries.nodup_keys m.increasing

theorem mem_entries {m : SortedMap α} {key : String} {value : α} :
    (key, value) ∈ m.entries ↔ m.get? key = some value :=
  ⟨Entries.get?_of_mem m.nodup_keys, Entries.mem_of_get?⟩

theorem mem_values {m : SortedMap α} {value : α} :
    value ∈ m.values ↔ ∃ key, m.get? key = some value := by
  constructor
  · intro h
    obtain ⟨⟨key, _⟩, he, rfl⟩ := List.mem_map.mp h
    exact ⟨key, mem_entries.mp he⟩
  · rintro ⟨key, h⟩
    exact List.mem_map.mpr ⟨(key, value), mem_entries.mpr h, rfl⟩

theorem mem_keys {m : SortedMap α} {key : String} :
    key ∈ m.keys ↔ ∃ value, m.get? key = some value := by
  constructor
  · intro h
    obtain ⟨⟨_, value⟩, he, rfl⟩ := List.mem_map.mp h
    exact ⟨value, mem_entries.mp he⟩
  · rintro ⟨value, h⟩
    exact List.mem_map.mpr ⟨(key, value), mem_entries.mpr h, rfl⟩

/-- Nothing is found under a key that is not listed. -/
theorem get?_eq_none_iff {m : SortedMap α} {key : String} : m.get? key = none ↔ key ∉ m.keys :=
  Entries.get?_eq_none_iff

/-- A map is empty if nothing is found in it. -/
theorem isEmpty_iff {m : SortedMap α} : m.isEmpty = true ↔ ∀ key, m.get? key = none := by
  constructor
  · intro h key
    show Entries.get? key m.entries = none
    rw [List.isEmpty_iff.mp h]
    rfl
  · intro h
    refine List.isEmpty_iff.mpr (List.eq_nil_iff_forall_not_mem.mpr ?_)
    rintro ⟨key, value⟩ he
    rw [mem_entries, h key] at he
    cases he

/-- Inserting under a free key adds one value. -/
theorem values_insert {m : SortedMap α} {key : String} (value : α) (h : m.get? key = none) :
    (m.insert key value).values.Perm (value :: m.values) :=
  (Entries.perm_insert value h).map Prod.snd

theorem contains_eq_false_iff {m : SortedMap α} {key : String} :
    m.contains key = false ↔ m.get? key = none := by
  rw [contains, Option.isSome_eq_false_iff, Option.isNone_iff_eq_none]

/-- Replace each value or leave its key out. -/
def filterMap (f : α → Option β) (m : SortedMap α) : SortedMap β :=
  ⟨m.entries.filterMap fun e => (f e.2).map fun v => (e.1, v),
    Entries.keysIncrease_filterMap f m.increasing⟩

@[simp] theorem get?_filterMap (f : α → Option β) (m : SortedMap α) (key : String) :
    (m.filterMap f).get? key = (m.get? key).bind f :=
  Entries.get?_filterMap f key m.nodup_keys

theorem values_filterMap (f : α → Option β) (m : SortedMap α) :
    (m.filterMap f).values = m.values.filterMap f := by
  have hsecond : (fun e : String × α => ((f e.2).map fun v => (e.1, v)).map (·.2)) =
      fun e => f e.2 := by
    funext e
    cases f e.2 <;> rfl
  show (m.entries.filterMap fun e => (f e.2).map fun v => (e.1, v)).map (·.2) = _
  rw [List.map_filterMap, hsecond, values, List.filterMap_map]
  rfl

/-- Replace each value. -/
def map (f : α → β) (m : SortedMap α) : SortedMap β := m.filterMap fun value => some (f value)

@[simp] theorem get?_map (f : α → β) (m : SortedMap α) (key : String) :
    (m.map f).get? key = (m.get? key).map f := by
  rw [map, get?_filterMap]
  cases m.get? key <;> rfl

theorem entries_map (f : α → β) (m : SortedMap α) :
    (m.map f).entries = m.entries.map fun e => (e.1, f e.2) :=
  congrFun List.filterMap_eq_map' m.entries

theorem keys_map (f : α → β) (m : SortedMap α) : (m.map f).keys = m.keys := by
  rw [keys, entries_map, List.map_map]
  rfl

theorem values_map (f : α → β) (m : SortedMap α) : (m.map f).values = m.values.map f := by
  rw [values, entries_map, List.map_map, values, List.map_map]
  rfl

@[simp] theorem get?_filterKeys (m : SortedMap α) (keep : String → Bool) (key : String) :
    (m.filterKeys keep).get? key = if keep key then m.get? key else none :=
  Entries.get?_filter keep key m.entries

/-- Mapping passes through an insertion under a free key. -/
theorem map_insertIfNew (f : α → β) (m : SortedMap α) (key : String) (value : α) :
    (m.insertIfNew key value).map f = (m.map f).insertIfNew key (f value) := by
  refine ext_get? fun other => ?_
  rw [get?_map, get?_insertIfNew, get?_insertIfNew, get?_map, get?_map]
  split
  · cases m.get? key <;> rfl
  · rfl

theorem isEmpty_map (f : α → β) (m : SortedMap α) : (m.map f).isEmpty = m.isEmpty := by
  rw [isEmpty, entries_map, List.isEmpty_map]
  rfl

/-- Maps list their keys alike if they have the same ones. -/
theorem keys_eq_of_mem_iff {m : SortedMap α} {other : SortedMap β}
    (h : ∀ key, key ∈ m.keys ↔ key ∈ other.keys) : m.keys = other.keys := by
  -- The keys are those of a map that holds nothing else.
  have hunits : m.map (fun _ => ()) = other.map fun _ => () := by
    refine ext_get? fun key => ?_
    rw [get?_map, get?_map]
    have hkey := h key
    rw [mem_keys, mem_keys] at hkey
    cases hm : m.get? key with
    | some value =>
      obtain ⟨_, hother⟩ := hkey.mp ⟨value, hm⟩
      rw [hother]
      rfl
    | none =>
      cases hother : other.get? key with
      | none => rfl
      | some value =>
        obtain ⟨_, hsome⟩ := hkey.mpr ⟨value, hother⟩
        rw [hm] at hsome
        cases hsome
  rw [← keys_map (fun _ => ()) m, hunits, keys_map]

/-- Adding entries one after the other where the key is free: the first one for a key stays. -/
theorem get?_foldl_insertIfNew (l : List (String × α)) (m : SortedMap α) (key : String) :
    (l.foldl (fun m e => m.insertIfNew e.1 e.2) m).get? key =
      (m.get? key).or (Entries.get? key l) := by
  induction l generalizing m with
  | nil =>
    rw [List.foldl_nil, Entries.get?, Option.or_none]
  | cons e rest ih =>
    obtain ⟨k, v⟩ := e
    rw [List.foldl_cons, ih, get?_insertIfNew, Entries.get?]
    by_cases hk : k = key
    · subst hk
      rw [if_pos rfl, if_pos rfl]
      cases m.get? k <;> rfl
    · rw [if_neg hk, if_neg hk]

/-- The entries of a map, and those of another one under keys that are free. -/
def union (m other : SortedMap α) : SortedMap α :=
  other.entries.foldl (fun m e => m.insertIfNew e.1 e.2) m

@[simp] theorem get?_union (m other : SortedMap α) (key : String) :
    (m.union other).get? key = (m.get? key).or (other.get? key) :=
  get?_foldl_insertIfNew other.entries m key

theorem mem_keys_union {m other : SortedMap α} {key : String} :
    key ∈ (m.union other).keys ↔ key ∈ m.keys ∨ key ∈ other.keys := by
  rw [← Decidable.not_iff_not, ← get?_eq_none_iff, get?_union, Option.or_eq_none_iff,
    get?_eq_none_iff, get?_eq_none_iff, not_or]

/-! ## Maps of listed entries -/

/-- Of several entries with one key, the last one stays. -/
@[simp] theorem get?_ofList (l : List (String × α)) (key : String) :
    (ofList l).get? key = Entries.get? key l.reverse := by
  have hfold : ∀ m : SortedMap α, (l.foldl (fun m e => m.insert e.1 e.2) m).get? key =
      (Entries.get? key l.reverse).or (m.get? key) := by
    induction l with
    | nil => exact fun m => (Option.none_or).symm
    | cons e rest ih =>
      obtain ⟨k, v⟩ := e
      intro m
      rw [List.foldl_cons, ih, get?_insert, List.reverse_cons, Entries.get?_append, Option.or_assoc,
        Entries.get?]
      by_cases hk : k = key
      · rw [if_pos hk, if_pos hk, Option.some_or]
      · rw [if_neg hk, if_neg hk, Entries.get?, Option.none_or]
  rw [ofList, hfold, get?_empty, Option.or_none]

/-- Where no key occurs twice, every entry stays. -/
theorem get?_ofList_of_nodup {l : List (String × α)} (h : (l.map (·.1)).Nodup) (key : String) :
    (ofList l).get? key = Entries.get? key l := by
  rw [get?_ofList]
  exact (Entries.get?_perm l.reverse_perm.symm h key).symm

theorem mem_of_mem_ofList {l : List (String × α)} {e : String × α}
    (h : e ∈ (ofList l).entries) : e ∈ l := by
  obtain ⟨key, value⟩ := e
  rw [mem_entries, get?_ofList] at h
  exact List.mem_reverse.mp (Entries.mem_of_get? h)

/-- Where no key occurs twice, the entries are those that are listed. -/
theorem perm_ofList {l : List (String × α)} (h : (l.map (·.1)).Nodup) :
    (ofList l).entries.Perm l := by
  have hdistinct {entries : List (String × α)} (h : (entries.map (·.1)).Nodup) : entries.Nodup :=
    (List.pairwise_map.mp h).imp fun hne heq => hne (congrArg (·.1) heq)
  refine (List.perm_ext_iff_of_nodup (hdistinct (ofList l).nodup_keys) (hdistinct h)).mpr ?_
  rintro ⟨key, value⟩
  rw [mem_entries, get?_ofList_of_nodup h]
  exact ⟨Entries.mem_of_get?, Entries.get?_of_mem h⟩

/-- A map is made of its entries. -/
theorem ofList_entries (m : SortedMap α) : ofList m.entries = m :=
  ext_get? fun key => get?_ofList_of_nodup m.nodup_keys key

/-- Mapping the values passes through building a map of a list. -/
theorem ofList_map (f : α → β) (l : List (String × α)) :
    ofList (l.map fun e => (e.1, f e.2)) = (ofList l).map f := by
  refine ext_get? fun key => ?_
  rw [get?_map, get?_ofList, get?_ofList, ← List.map_reverse, Entries.get?_map_values]

end SortedMap

end KeywordCensus
