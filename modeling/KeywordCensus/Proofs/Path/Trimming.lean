import KeywordCensus.Proofs.Path.Lexical

/-!
# Trimming a path again

A trimmed path is the normal form, or the last names of it as a path of its own. Both are read as they
are spelled, so that the normal form is its own normal form (`Path.normalize_normalize`) and trimming
can be repeated: the smaller depth decides (`Path.trim_trim`).
-/

namespace KeywordCensus.Path

variable {p : Path} {names : List String} {depth a b : Nat}

/-! ## The normal form again -/

/-- The names of the normal form. -/
def normalNames (p : Path) : List String := p.normalize.components.filterMap Component.name?

theorem filterMap_name?_names (names : List String) :
    (names.map Component.name).filterMap Component.name? = names := by
  rw [List.filterMap_map]
  exact List.filterMap_some

theorem filter_isName_names (names : List String) :
    (names.map Component.name).filter Component.isName = names.map Component.name := by
  refine List.filter_eq_self.mpr fun c hc => ?_
  obtain ⟨name, -, rfl⟩ := List.mem_map.mp hc
  rfl

/-- What stands in a normal form before its names holds no name. -/
theorem isName_front (p : Path) (up : Nat) :
    ∀ c ∈ p.rootOf ++ List.replicate up Component.parent, c.isName = false := by
  intro c hc
  rcases List.mem_append.mp hc with hroot | hparent
  · rcases rootOf_cases p with hnil | honly
    · rw [hnil] at hroot
      cases hroot
    · rw [honly, List.mem_singleton] at hroot
      rw [hroot]
      rfl
  · rw [List.eq_of_mem_replicate hparent]
    rfl

theorem normalNames_eq (p : Path) : p.normalNames = (climb [] p.components).reverse := by
  have hfront : (p.rootOf ++ List.replicate (rise p.components % 2) Component.parent).filterMap
      Component.name? = [] := by
    refine List.filterMap_eq_nil_iff.mpr fun c hc => ?_
    have hname := isName_front p _ c hc
    rwa [Component.isName, Option.isSome_eq_false_iff, Option.isNone_iff_eq_none] at hname
  rw [normalNames, (components_normalize p).1, ← List.append_assoc, List.filterMap_append, hfront,
    List.nil_append, filterMap_name?_names]

theorem isName_of_mem_normalNames {name : String} (h : name ∈ p.normalNames) : IsName name := by
  obtain ⟨c, hc, hname⟩ := List.mem_filterMap.mp h
  cases c with
  | name s =>
    cases hname
    exact isName_of_mem_components hc
  | root | current | parent => cases hname

/-- The components of a normal form are their own normal form. -/
theorem normalComponents_normalize (p : Path) :
    normalComponents p.normalize.components = normalComponents p.components := by
  have hroot : p.normalize.rootOf = p.rootOf := by
    rw [rootOf, rootOf, (components_normalize p).2]
  rw [normalComponents_components, normalComponents_components, hroot, (components_normalize p).1,
    rise_rootOf, climb_rootOf, rise_up_names, climb_up_names, Nat.mod_mod, List.drop_nil,
    List.append_nil, List.reverse_reverse]

/-- The normal form is its own normal form. -/
theorem normalize_normalize (p : Path) : p.normalize.normalize = p.normalize := by
  rw [normalize, normalComponents_normalize, normalize]

/-! ## The last names -/

/-- The relative path that is made of names. -/
def ofNames (names : List String) : Path := ofComponents (names.map .name)

theorem components_ofNames (h : ∀ name ∈ names, IsName name) :
    (ofNames names).components = names.map .name := (components_ofComponents (isStep_names h)).1

theorem toList_ofNames (h : ∀ name ∈ names, IsName name) :
    (ofNames names).text.toList = Text.join '/' (names.map String.toList) := by
  rw [ofNames, ofComponents, String.toList_ofList, render_steps (isStep_names h), List.map_map]
  rfl

/-- A path of names is its own normal form. -/
theorem normalComponents_ofNames (h : ∀ name ∈ names, IsName name) :
    normalComponents (ofNames names).components = names.map .name := by
  have hroot : Component.root ∉ names.map Component.name := not_root_of_isStep (isStep_names h)
  have hrise : rise (names.map .name) = 0 := rise_up_names 0 names
  have hclimb : climb [] (names.map .name) = names.reverse := by
    rw [climb_names, List.append_nil]
  have hnormal := normalComponents_append (.inl rfl) hroot
  rw [hrise, hclimb, List.reverse_reverse] at hnormal
  rw [components_ofNames h]
  exact hnormal

theorem normalNames_ofNames (h : ∀ name ∈ names, IsName name) :
    (ofNames names).normalNames = names := by
  rw [normalNames_eq, components_ofNames h, climb_names, List.append_nil, List.reverse_reverse]

theorem normalize_ofNames (h : ∀ name ∈ names, IsName name) :
    (ofNames names).normalize = ofNames names := by
  rw [normalize, normalComponents_ofNames h, ofNames]

/-- The last names of the normal form. -/
def lastNames (p : Path) (depth : Nat) : List String :=
  p.normalNames.drop (p.normalNames.length - depth)

theorem isName_of_mem_lastNames {name : String} (h : name ∈ p.lastNames depth) : IsName name :=
  isName_of_mem_normalNames (List.mem_of_mem_drop h)

/-- There are as many last names as the depth, as far as there are names. -/
theorem length_lastNames (h : depth ≤ p.normalNames.length) :
    (p.lastNames depth).length = depth := by
  rw [lastNames, List.length_drop]
  omega

theorem filter_isName_normalComponents (p : Path) :
    (normalComponents p.components).filter Component.isName = p.normalNames.map .name := by
  have hfront : (p.rootOf ++ List.replicate (rise p.components % 2) Component.parent).filter
      Component.isName = [] := by
    refine List.filter_eq_nil_iff.mpr fun c hc => ?_
    rw [isName_front p _ c hc]
    exact Bool.false_ne_true
  rw [normalComponents_components, ← List.append_assoc, List.filter_append, hfront,
    List.nil_append, filter_isName_names, normalNames_eq]

/-- **A trimmed path is the normal form, or its last names if it has more of them.** -/
theorem trim_eq (p : Path) (depth : Nat) : p.trim depth =
    if depth = 0 ∨ p.normalNames.length ≤ depth then p.normalize
    else ofNames (p.lastNames depth) := by
  rw [trim, filter_isName_normalComponents, List.length_map, ← List.map_drop]
  rfl

/-- Depth zero, or one that covers every name, leaves the normal form. -/
theorem trim_of_all (h : depth = 0 ∨ p.normalNames.length ≤ depth) : p.trim depth = p.normalize := by
  rw [trim_eq, if_pos h]

/-- A smaller depth leaves the last names. -/
theorem trim_of_lt (hpos : 1 ≤ depth) (hlt : depth < p.normalNames.length) :
    p.trim depth = ofNames (p.lastNames depth) := by
  rw [trim_eq, if_neg (by omega)]

/-- Trimming looks at the normal form only. -/
theorem trim_normalize (p : Path) (depth : Nat) : p.normalize.trim depth = p.trim depth := by
  rw [trim, trim, normalComponents_normalize]

/-- Of the last names, the last ones are the last ones of all. -/
theorem lastNames_ofNames (hle : b ≤ a) (ha : a ≤ p.normalNames.length) :
    (ofNames (p.lastNames a)).lastNames b = p.lastNames b := by
  rw [lastNames, normalNames_ofNames fun name => isName_of_mem_lastNames, length_lastNames ha,
    lastNames, lastNames, List.drop_drop]
  congr 1
  omega

/-- Of a path that is trimmed twice, the smaller depth is left. -/
theorem trim_trim_of_pos (p : Path) (ha : 1 ≤ a) (hb : 1 ≤ b) :
    (p.trim a).trim b = p.trim (min a b) := by
  by_cases hall : p.normalNames.length ≤ a
  · rw [trim_of_all (.inr hall), trim_normalize]
    by_cases hle : b ≤ a
    · rw [Nat.min_eq_right hle]
    · rw [Nat.min_eq_left (by omega), trim_of_all (.inr hall), trim_of_all (.inr (by omega))]
  · -- The first trim leaves a path of names, so that the second one counts these.
    have hnames : ∀ name ∈ p.lastNames a, IsName name := fun _ => isName_of_mem_lastNames
    rw [trim_of_lt ha (by omega)]
    by_cases hle : a ≤ b
    · -- Nothing is left to be cut off.
      have hshort : (ofNames (p.lastNames a)).normalNames.length ≤ b := by
        rw [normalNames_ofNames hnames, length_lastNames (by omega)]
        exact hle
      rw [Nat.min_eq_left hle, trim_of_all (.inr hshort), normalize_ofNames hnames,
        trim_of_lt ha (by omega)]
    · have hlong : b < (ofNames (p.lastNames a)).normalNames.length := by
        rw [normalNames_ofNames hnames, length_lastNames (by omega)]
        omega
      rw [Nat.min_eq_right (by omega), trim_of_lt hb hlong, trim_of_lt hb (by omega),
        lastNames_ofNames (by omega) (by omega)]

end KeywordCensus.Path
