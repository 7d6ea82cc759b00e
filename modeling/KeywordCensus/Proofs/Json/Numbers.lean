import KeywordCensus.Proofs.Corpus.Counting

/-!
# The numbers of a value

What holds of all numbers of a value (`Json.NumbersAre`) and what becomes of it when they are
replaced (`Json.mapNumbers`). Replacing numbers changes neither the depth of a value nor the order of
its fields, so it can be done before or after a value is brought into canonical form
(`canonical_mapNumbers`). The canonical form holds no other numbers (`NumbersAre.canonical`), and it
is its own canonical form (`canonical_canonical`).
-/

namespace KeywordCensus.Json

/-! ## Induction over values -/

/-- What holds of a container whenever it holds of all values in it holds of all values. -/
@[elab_as_elim] theorem induct {P : Json → Prop} (null : P .null) (bool : ∀ b, P (.bool b))
    (number : ∀ n, P (.number n)) (text : ∀ s, P (.text s))
    (array : ∀ items, (∀ item ∈ items, P item) → P (.array items))
    (object : ∀ fields : List (String × Json), (∀ field ∈ fields, P field.2) → P (.object fields))
    (v : Json) : P v :=
  @Json.rec P (fun items => ∀ item ∈ items, P item) (fun fields => ∀ field ∈ fields, P field.2)
    (fun field => P field.2) null bool number text array object
    (List.forall_mem_nil _) (fun _ _ hitem hrest => List.forall_mem_cons.mpr ⟨hitem, hrest⟩)
    (List.forall_mem_nil _) (fun _ _ hfield hrest => List.forall_mem_cons.mpr ⟨hfield, hrest⟩)
    (fun _ _ hvalue => hvalue) v

/-! ## Other numbers -/

mutual

/-- The value with every number replaced. -/
def mapNumbers (f : JsonNumber → JsonNumber) : Json → Json
  | .number n => .number (f n)
  | .array items => .array (mapNumbersItems f items)
  | .object fields => .object (mapNumbersFields f fields)
  | value => value

/-- The values of a list with every number replaced. -/
def mapNumbersItems (f : JsonNumber → JsonNumber) : List Json → List Json
  | [] => []
  | item :: rest => mapNumbers f item :: mapNumbersItems f rest

/-- The fields of an object with every number replaced. -/
def mapNumbersFields (f : JsonNumber → JsonNumber) : List (String × Json) → List (String × Json)
  | [] => []
  | (key, value) :: rest => (key, mapNumbers f value) :: mapNumbersFields f rest

end

section Containers

variable (f : JsonNumber → JsonNumber) (items : List Json) (fields : List (String × Json))

theorem mapNumbers_array : (array items).mapNumbers f = array (items.map (mapNumbers f)) := by
  rw [mapNumbers, array.injEq]
  induction items with
  | nil => rfl
  | cons item rest ih => rw [mapNumbersItems, ih, List.map_cons]

theorem mapNumbers_object :
    (object fields).mapNumbers f = object (fields.map fun e => (e.1, e.2.mapNumbers f)) := by
  rw [mapNumbers, object.injEq]
  induction fields with
  | nil => rfl
  | cons field rest ih => rw [mapNumbersFields, ih, List.map_cons]

theorem canonical_array : (array items).canonical = array (items.map canonical) := by
  rw [canonical, array.injEq]
  induction items with
  | nil => rfl
  | cons item rest ih => rw [canonicalItems, ih, List.map_cons]

theorem canonicalFields_eq_map :
    canonicalFields fields = fields.map fun e => (e.1, e.2.canonical) := by
  induction fields with
  | nil => rfl
  | cons field rest ih => rw [canonicalFields, ih, List.map_cons]

/-- A canonical object has its keys in order, the last value of a repeated key, and canonical
values. -/
theorem canonical_object :
    (object fields).canonical = object ((SortedMap.ofList fields).map canonical).entries := by
  rw [canonical, canonicalFields_eq_map, SortedMap.ofList_map]

end Containers

/-! ## All numbers -/

/-- Do all numbers in a value have a property? -/
def NumbersAre (P : JsonNumber → Prop) (v : Json) : Prop := ∀ n, .number n ∈ v.nodes → P n

section Numbers

variable {P : JsonNumber → Prop} {items : List Json} {fields : List (String × Json)}

theorem mem_nodesOfItems {node : Json} :
    node ∈ nodesOfItems items ↔ ∃ item ∈ items, node ∈ item.nodes := by
  induction items with
  | nil =>
    rw [nodesOfItems]
    exact ⟨fun h => absurd h List.not_mem_nil, fun ⟨_, h, _⟩ => absurd h List.not_mem_nil⟩
  | cons item rest ih =>
    rw [nodesOfItems, List.mem_append, ih]
    simp only [List.mem_cons, exists_eq_or_imp]

theorem mem_nodesOfFields {node : Json} :
    node ∈ nodesOfFields fields ↔ ∃ field ∈ fields, node ∈ field.2.nodes := by
  induction fields with
  | nil =>
    rw [nodesOfFields]
    exact ⟨fun h => absurd h List.not_mem_nil, fun ⟨_, h, _⟩ => absurd h List.not_mem_nil⟩
  | cons field rest ih =>
    rw [nodesOfFields, List.mem_append, ih]
    simp only [List.mem_cons, exists_eq_or_imp]

theorem numbersAre_array :
    (array items).NumbersAre P ↔ ∀ item ∈ items, item.NumbersAre P := by
  rw [NumbersAre, nodes]
  constructor
  · intro h item hitem n hn
    exact h n (List.mem_cons_of_mem _ (mem_nodesOfItems.mpr ⟨item, hitem, hn⟩))
  · intro h n hn
    rcases List.mem_cons.mp hn with hself | hn
    · cases hself
    · obtain ⟨item, hitem, hn⟩ := mem_nodesOfItems.mp hn
      exact h item hitem n hn

theorem numbersAre_object :
    (object fields).NumbersAre P ↔ ∀ field ∈ fields, field.2.NumbersAre P := by
  rw [NumbersAre, nodes]
  constructor
  · intro h field hfield n hn
    exact h n (List.mem_cons_of_mem _ (mem_nodesOfFields.mpr ⟨field, hfield, hn⟩))
  · intro h n hn
    rcases List.mem_cons.mp hn with hself | hn
    · cases hself
    · obtain ⟨field, hfield, hn⟩ := mem_nodesOfFields.mp hn
      exact h field hfield n hn

theorem numbersAre_number {n : JsonNumber} : (number n).NumbersAre P ↔ P n := by
  constructor
  · intro h
    exact h n (List.mem_singleton_self _)
  · intro h m hm
    cases List.mem_singleton.mp hm
    exact h

theorem numbersAre_null : null.NumbersAre P := fun n hn => by cases List.mem_singleton.mp hn

theorem numbersAre_bool (b : Bool) : (bool b).NumbersAre P :=
  fun n hn => by cases List.mem_singleton.mp hn

theorem numbersAre_text (s : String) : (text s).NumbersAre P :=
  fun n hn => by cases List.mem_singleton.mp hn

end Numbers

/-! ## Depths -/

section Depth

variable {n : Nat}

/-- A container is one deeper than the deepest value in it. -/
theorem depth_array_le {items : List Json} :
    (array items).depth ≤ n + 1 ↔ ∀ item ∈ items, item.depth ≤ n := by
  rw [depth, Nat.add_comm, Nat.add_le_add_iff_right]
  induction items with
  | nil => exact ⟨fun _ => List.forall_mem_nil _, fun _ => Nat.zero_le n⟩
  | cons item rest ih => rw [depthItems, Nat.max_le, ih, List.forall_mem_cons]

theorem depth_object_le {fields : List (String × Json)} :
    (object fields).depth ≤ n + 1 ↔ ∀ field ∈ fields, field.2.depth ≤ n := by
  rw [depth, Nat.add_comm, Nat.add_le_add_iff_right]
  induction fields with
  | nil => exact ⟨fun _ => List.forall_mem_nil _, fun _ => Nat.zero_le n⟩
  | cons field rest ih => rw [depthFields, Nat.max_le, ih, List.forall_mem_cons]

theorem depth_array_pos (items : List Json) : 0 < (array items).depth := by
  rw [depth]
  omega

theorem depth_object_pos (fields : List (String × Json)) : 0 < (object fields).depth := by
  rw [depth]
  omega

end Depth

/-! ## What becomes of a value -/

section Replaced

variable {f g : JsonNumber → JsonNumber}

/-- Other numbers make no difference to the depth. -/
theorem depth_mapNumbers (v : Json) : (v.mapNumbers f).depth = v.depth := by
  -- Depths are compared by their bounds, since the lemmas about containers speak of these.
  suffices h : ∀ n, (v.mapNumbers f).depth ≤ n ↔ v.depth ≤ n from
    Nat.le_antisymm ((h _).mpr (Nat.le_refl _)) ((h _).mp (Nat.le_refl _))
  induction v using induct with
  | null => exact fun n => Iff.rfl
  | bool _ => exact fun n => Iff.rfl
  | text _ => exact fun n => Iff.rfl
  | number _ => exact fun n => Iff.rfl
  | array items ih =>
    intro n
    rw [mapNumbers_array]
    cases n with
    | zero =>
      exact iff_of_false (Nat.not_le.mpr (depth_array_pos _)) (Nat.not_le.mpr (depth_array_pos _))
    | succ n =>
      rw [depth_array_le, depth_array_le, List.forall_mem_map]
      exact forall₂_congr fun item hitem => ih item hitem n
  | object fields ih =>
    intro n
    rw [mapNumbers_object]
    cases n with
    | zero =>
      exact iff_of_false (Nat.not_le.mpr (depth_object_pos _)) (Nat.not_le.mpr (depth_object_pos _))
    | succ n =>
      rw [depth_object_le, depth_object_le, List.forall_mem_map]
      exact forall₂_congr fun field hfield => ih field hfield n

/-- Only what becomes of the numbers that occur matters. -/
theorem mapNumbers_congr (v : Json) (h : v.NumbersAre fun n => f n = g n) :
    v.mapNumbers f = v.mapNumbers g := by
  induction v using induct with
  | null => rfl
  | bool _ => rfl
  | text _ => rfl
  | number n =>
    have hn : f n = g n := h n (List.mem_singleton_self _)
    rw [mapNumbers, mapNumbers, hn]
  | array items ih =>
    rw [numbersAre_array] at h
    rw [mapNumbers_array, mapNumbers_array,
      List.map_congr_left fun item hitem => ih item hitem (h item hitem)]
  | object fields ih =>
    rw [numbersAre_object] at h
    rw [mapNumbers_object, mapNumbers_object, List.map_congr_left fun field hfield => by
      rw [ih field hfield (h field hfield)]]

/-- A list of values stays as it is if all of them do. -/
theorem map_eq_self_iff {α : Type} {f : α → α} {l : List α} : l.map f = l ↔ ∀ a ∈ l, f a = a := by
  have hmap := List.map_inj_left (f := f) (g := id) (l := l)
  rw [List.map_id] at hmap
  exact hmap

/-- **A value stays as it is if all of its numbers do, and only then.** -/
theorem mapNumbers_eq_self_iff (v : Json) :
    v.mapNumbers f = v ↔ v.NumbersAre fun n => f n = n := by
  induction v using induct with
  | null => exact ⟨fun _ => numbersAre_null, fun _ => rfl⟩
  | bool b => exact ⟨fun _ => numbersAre_bool b, fun _ => rfl⟩
  | text s => exact ⟨fun _ => numbersAre_text s, fun _ => rfl⟩
  | number n => rw [numbersAre_number, mapNumbers, number.injEq]
  | array items ih =>
    rw [numbersAre_array, mapNumbers_array, array.injEq, map_eq_self_iff]
    exact forall₂_congr ih
  | object fields ih =>
    rw [numbersAre_object, mapNumbers_object, object.injEq, map_eq_self_iff]
    refine forall₂_congr fun field hfield => ?_
    rw [← ih field hfield]
    exact ⟨fun h => congrArg Prod.snd h, fun h => Prod.ext rfl h⟩

end Replaced

/-! ## Canonical forms -/

/-- **Numbers are replaced alike in a value and in its canonical form.** -/
theorem canonical_mapNumbers (f : JsonNumber → JsonNumber) (v : Json) :
    (v.mapNumbers f).canonical = v.canonical.mapNumbers f := by
  induction v using induct with
  | null => rfl
  | bool _ => rfl
  | text _ => rfl
  | number _ => rfl
  | array items ih =>
    rw [mapNumbers_array, canonical_array, canonical_array, mapNumbers_array, List.map_map,
      List.map_map]
    exact congrArg array (List.map_congr_left ih)
  | object fields ih =>
    rw [mapNumbers_object, canonical, canonical, mapNumbers_object, canonicalFields_eq_map,
      canonicalFields_eq_map, ← SortedMap.entries_map, ← SortedMap.ofList_map, List.map_map,
      List.map_map]
    exact congrArg (fun l => object (SortedMap.ofList l).entries)
      (List.map_congr_left fun field hfield => Prod.ext rfl (ih field hfield))

/-- The canonical form of a value has no other numbers. -/
theorem NumbersAre.canonical {P : JsonNumber → Prop} {v : Json} (h : v.NumbersAre P) :
    v.canonical.NumbersAre P := by
  induction v using induct with
  | null => exact h
  | bool _ => exact h
  | text _ => exact h
  | number _ => exact h
  | array items ih =>
    rw [numbersAre_array] at h
    rw [canonical_array, numbersAre_array, List.forall_mem_map]
    exact fun item hitem => ih item hitem (h item hitem)
  | object fields ih =>
    rw [numbersAre_object] at h
    rw [canonical_object, numbersAre_object, SortedMap.entries_map, List.forall_mem_map]
    exact fun field hfield =>
      have hmem := SortedMap.mem_of_mem_ofList hfield
      ih field hmem (h field hmem)

/-- **A canonical form is its own canonical form.** -/
theorem canonical_canonical (v : Json) : v.canonical.canonical = v.canonical := by
  induction v using induct with
  | null => rfl
  | bool _ => rfl
  | text _ => rfl
  | number _ => rfl
  | array items ih =>
    rw [canonical_array, canonical_array, List.map_map]
    exact congrArg array (List.map_congr_left ih)
  | object fields ih =>
    rw [canonical_object, canonical_object, SortedMap.ofList_entries, SortedMap.entries_map,
      SortedMap.entries_map, List.map_map]
    exact congrArg object (List.map_congr_left fun field hfield =>
      Prod.ext rfl (ih field (SortedMap.mem_of_mem_ofList hfield)))

end KeywordCensus.Json
