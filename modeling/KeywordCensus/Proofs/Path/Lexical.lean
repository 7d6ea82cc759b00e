import KeywordCensus.Path.Normal
import KeywordCensus.Proofs.Path.Child

/-!
# Where a normal path leads

What a path means, read without links, is how far it goes up from where it starts (`Path.rise`) and
which names it goes down after that (`Path.climb_eq`). The normal form keeps the names, but of the
steps up only whether their number is odd (`Path.components_normalize`): a step up removes whatever
stands before it, and that may be a step up. So the normal form leads where the path leads if the path
is absolute or goes up at most once, and elsewhere otherwise (`Path.climb_normalize_iff`).
-/

namespace KeywordCensus.Path

variable {p : Path} {bottom cs steps : List Component} {names place : List String} {up : Nat}

/-! ## What a path means -/

/-- The steps up of a path that do not take back a name before them. -/
def rise : List Component → Nat
  | [] => 0
  | .parent :: rest => rise rest + 1
  | .name _ :: rest => rise rest - 1
  | .current :: rest => rise rest
  | .root :: rest => rise rest

@[simp] theorem climb_nil : climb place [] = place := rfl

@[simp] theorem climb_root : climb place (.root :: cs) = climb [] cs := rfl

@[simp] theorem climb_current : climb place (.current :: cs) = climb place cs := rfl

@[simp] theorem climb_parent : climb place (.parent :: cs) = climb (place.drop 1) cs := rfl

@[simp] theorem climb_name {s : String} : climb place (.name s :: cs) = climb (s :: place) cs := rfl

/-- **A relative path goes up and then down names**, whatever the order of its components. -/
theorem climb_eq (place : List String) (h : .root ∉ cs) :
    climb place cs = climb [] cs ++ place.drop (rise cs) := by
  induction cs generalizing place with
  | nil => simp [rise]
  | cons c rest ih =>
    rw [List.mem_cons, not_or] at h
    obtain ⟨hc, hrest⟩ := h
    cases c with
    | root => exact absurd rfl hc
    | current => exact ih place hrest
    | parent =>
      rw [climb_parent, climb_parent, ih (place.drop 1) hrest, rise, List.drop_drop,
        List.drop_nil, Nat.add_comm]
    | name s =>
      rw [climb_name, climb_name, ih (s :: place) hrest, ih [s] hrest, rise]
      cases rise rest <;> simp

theorem mem_climb {s : String} (h : s ∈ climb place cs) : s ∈ place ∨ .name s ∈ cs := by
  induction cs generalizing place with
  | nil => exact .inl h
  | cons c rest ih =>
    have hlater : .name s ∈ rest → .name s ∈ c :: rest := List.mem_cons_of_mem c
    cases c with
    | root => exact .inr (hlater ((ih h).resolve_left List.not_mem_nil))
    | current => exact (ih h).imp_right hlater
    | parent => exact (ih h).imp List.mem_of_mem_drop hlater
    | name other =>
      rcases ih h with hplace | hrest
      · rcases List.mem_cons.mp hplace with rfl | hplace
        · exact .inr (List.mem_cons_self ..)
        · exact .inl hplace
      · exact .inr (hlater hrest)

/-- Steps up and then names are read off as they stand. -/
theorem rise_up_names (up : Nat) (names : List String) :
    rise (List.replicate up .parent ++ names.map .name) = up := by
  induction up with
  | zero =>
    rw [List.replicate_zero, List.nil_append]
    induction names with
    | nil => rfl
    | cons name rest ih => rw [List.map_cons, rise, ih]
  | succ up ih => rw [List.replicate_succ, List.cons_append, rise, ih]

theorem climb_up_names (place : List String) (up : Nat) (names : List String) :
    climb place (List.replicate up .parent ++ names.map .name) =
      names.reverse ++ place.drop up := by
  induction up generalizing place with
  | zero => exact climb_names place names
  | succ up ih =>
    rw [List.replicate_succ, List.cons_append, climb_parent, ih, List.drop_drop, Nat.add_comm 1]

/-! ## The components of the normal form -/

/-- A normal form in reverse: names, then at most one step up, then the root or nothing. -/
def standing (bottom : List Component) (up : Nat) (names : List String) : List Component :=
  names.map .name ++ (List.replicate (up % 2) .parent ++ bottom)

/-- A step up takes back a name; where there is none it changes whether there is a step up. -/
theorem normalStep_parent (hbottom : bottom = [] ∨ bottom = [.root]) :
    normalStep (standing bottom up names) .parent =
      standing bottom (up + (1 - names.length)) (names.drop 1) := by
  cases names with
  | cons name rest => simp [standing, normalStep]
  | nil =>
    rcases Nat.mod_two_eq_zero_or_one up with heven | hodd
    · have hnext : (up + 1) % 2 = 1 := by omega
      rcases hbottom with rfl | rfl <;> simp [standing, normalStep, heven, hnext]
    · have hnext : (up + 1) % 2 = 0 := by omega
      simp [standing, normalStep, hodd, hnext]

/-- **What the normal form keeps of a relative path**: all the names and the parity of the steps up.
The induction is over the components, with the names so far as the place that is climbed from. -/
theorem foldl_normalStep (hbottom : bottom = [] ∨ bottom = [.root]) (h : .root ∉ cs) :
    cs.foldl normalStep (standing bottom up names) =
      standing bottom (up + (rise cs - names.length)) (climb names cs) := by
  -- Whatever was done so far stands as a climb and names, and every component keeps it so.
  induction cs generalizing up names with
  | nil => simp [rise]
  | cons c rest ih =>
    rw [List.mem_cons, not_or] at h
    obtain ⟨hc, hrest⟩ := h
    rw [List.foldl_cons]
    cases c with
    | root => exact absurd rfl hc
    | current => exact ih hrest
    | parent =>
      -- A step up takes the last name back, and only counts where there is none.
      rw [normalStep_parent hbottom, ih hrest, climb_parent, List.length_drop, rise]
      congr 1
      omega
    | name s =>
      have hstep : normalStep (standing bottom up names) (.name s) =
          standing bottom up (s :: names) := rfl
      rw [hstep, ih hrest, climb_name, List.length_cons, rise]
      congr 1
      omega

/-- Normal components are the odd step above the bottom, and the names that the climb ends with. -/
theorem normalComponents_append (hbottom : bottom = [] ∨ bottom = [.root]) (h : .root ∉ cs) :
    normalComponents (bottom ++ cs) =
      bottom ++ (List.replicate (rise cs % 2) .parent ++ (climb [] cs).reverse.map .name) := by
  have hstart : bottom.foldl normalStep [] = standing bottom 0 [] := by
    rcases hbottom with rfl | rfl <;> rfl
  have hreverse : bottom.reverse = bottom := by
    rcases hbottom with rfl | rfl <;> rfl
  rw [normalComponents, List.foldl_append, hstart, foldl_normalStep hbottom h, standing]
  simp [hreverse]

/-- The root, if the path begins there. -/
def rootOf (p : Path) : List Component := if p.isAbsolute then [.root] else []

theorem rootOf_cases (p : Path) : p.rootOf = [] ∨ p.rootOf = [.root] := by
  rw [rootOf]
  split
  · exact .inr rfl
  · exact .inl rfl

/-- Past the root, a path has steps, perhaps after one that stays where it is. -/
theorem components_steps (p : Path) :
    ∃ stay steps, p.components = p.rootOf ++ (stay ++ steps) ∧ (stay = [] ∨ stay = [.current]) ∧
      ∀ c ∈ steps, IsStep c := by
  have hsteps : ∀ c ∈ (Text.splitOn '/' p.text.toList).filterMap Component.ofPart?, IsStep c := by
    intro c hc
    cases c with
    | name s =>
      refine .inr ⟨s, isName_of_mem_components (p := p) ?_, rfl⟩
      rw [components_eq]
      exact List.mem_append_right _ hc
    | parent => exact .inl rfl
    | root | current =>
      -- Only names and steps up come from parts.
      obtain ⟨part, -, hpart⟩ := List.mem_filterMap.mp hc
      rw [Component.ofPart?] at hpart
      split at hpart
      · cases hpart
      · split at hpart <;> cases hpart
  rw [components_eq, start, rootOf]
  by_cases habsolute : p.isAbsolute = true
  · rw [if_pos habsolute, if_pos habsolute]
    exact ⟨[], _, rfl, .inl rfl, hsteps⟩
  · rw [if_neg habsolute, if_neg habsolute]
    split
    · exact ⟨[.current], _, rfl, .inr rfl, hsteps⟩
    · exact ⟨[], _, rfl, .inl rfl, hsteps⟩

/-- Only the first component of a path can be the root. -/
theorem components_eq_rootOf (p : Path) :
    ∃ cs, p.components = p.rootOf ++ cs ∧ .root ∉ cs := by
  obtain ⟨stay, steps, hcomponents, hstay, hsteps⟩ := components_steps p
  refine ⟨stay ++ steps, hcomponents, fun hroot => ?_⟩
  rcases List.mem_append.mp hroot with hroot | hroot
  · rcases hstay with rfl | rfl
    · cases hroot
    · cases List.mem_singleton.mp hroot
  · exact not_root_of_isStep hsteps hroot

theorem rise_rootOf (p : Path) (cs : List Component) : rise (p.rootOf ++ cs) = rise cs := by
  rcases rootOf_cases p with hroot | hroot <;> rw [hroot] <;> rfl

theorem climb_rootOf (p : Path) (cs : List Component) : climb [] (p.rootOf ++ cs) = climb [] cs := by
  rcases rootOf_cases p with hroot | hroot <;> rw [hroot] <;> rfl

/-- The normal form of a path: its root, one step up if the rise is odd, and the names left. -/
theorem normalComponents_components (p : Path) :
    normalComponents p.components = p.rootOf ++
      (List.replicate (rise p.components % 2) .parent ++
        (climb [] p.components).reverse.map .name) := by
  obtain ⟨cs, hcomponents, hroot⟩ := components_eq_rootOf p
  rw [hcomponents, normalComponents_append (rootOf_cases p) hroot, rise_rootOf, climb_rootOf]

/-! ## The normal form of a path -/

theorem isStep_normal (p : Path) (up : Nat) :
    ∀ c ∈ List.replicate up .parent ++ (climb [] p.components).reverse.map Component.name,
      IsStep c := by
  intro c hc
  rcases List.mem_append.mp hc with hparent | hname
  · exact .inl (List.eq_of_mem_replicate hparent)
  · obtain ⟨name, hmem, rfl⟩ := List.mem_map.mp hname
    rcases mem_climb (List.mem_reverse.mp hmem) with hnil | hmem
    · cases hnil
    · exact .inr ⟨name, isName_of_mem_components hmem, rfl⟩

/-- **The normal form of a path**: the root if the path begins there, one step up if the path has an
odd number of them that take back no name, and the names that are left. -/
theorem components_normalize (p : Path) :
    p.normalize.components = p.rootOf ++
        (List.replicate (rise p.components % 2) .parent ++
          (climb [] p.components).reverse.map .name) ∧
      p.normalize.isAbsolute = p.isAbsolute := by
  have hsteps := isStep_normal p (rise p.components % 2)
  rw [normalize, normalComponents_components]
  rcases Bool.eq_false_or_eq_true p.isAbsolute with habsolute | hrelative
  · rw [rootOf, if_pos habsolute, habsolute]
    exact components_ofComponents_root hsteps
  · rw [rootOf, if_neg (Bool.eq_false_iff.mp hrelative), hrelative]
    exact components_ofComponents hsteps

/-! ## Where both lead -/

/-- Climbing a path from a base ends with its names, on the base less its rise, or on the root. -/
theorem climb_components (base : List String) (p : Path) :
    climb base p.components =
      climb [] p.components ++ if p.isAbsolute then [] else base.drop (rise p.components) := by
  obtain ⟨cs, hcomponents, hroot⟩ := components_eq_rootOf p
  rw [hcomponents, climb_rootOf, rise_rootOf, rootOf]
  split
  · rw [List.append_nil]
    rfl
  · exact climb_eq base hroot

/-- Climbing the normal form takes the rise down to its last bit. -/
theorem climb_normalize (base : List String) (p : Path) :
    climb base p.normalize.components = climb [] p.components ++
      if p.isAbsolute then [] else base.drop (rise p.components % 2) := by
  rw [(components_normalize p).1, rootOf]
  split
  · rw [List.singleton_append, climb_root, climb_up_names, List.reverse_reverse, List.drop_nil]
  · rw [List.nil_append, climb_up_names, List.reverse_reverse]

/-- Dropping the last bit of a number drops as much as the number only if it is at most one. -/
theorem drop_mod_two_eq_iff {base : List String} {n : Nat} (h : n ≤ base.length) :
    base.drop (n % 2) = base.drop n ↔ n ≤ 1 := by
  constructor
  · intro heq
    have hlength := congrArg List.length heq
    rw [List.length_drop, List.length_drop] at hlength
    omega
  · intro hle
    rw [Nat.mod_eq_of_lt (by omega)]

/-- A path of steps up and then names does not begin at the root. -/
theorem rootOf_of_up_names {k : Nat}
    (h : p.components = List.replicate k .parent ++ names.map .name) : p.rootOf = [] := by
  obtain ⟨cs, hcomponents, -⟩ := components_eq_rootOf p
  refine (rootOf_cases p).resolve_right fun habsolute => ?_
  have hroot : Component.root ∈ List.replicate k .parent ++ names.map .name := by
    rw [← h, hcomponents, habsolute]
    exact List.mem_cons_self ..
  rcases List.mem_append.mp hroot with hparent | hname
  · cases List.eq_of_mem_replicate hparent
  · obtain ⟨name, -, heq⟩ := List.mem_map.mp hname
    cases heq

/-- Of a number of leading steps up only the parity is kept. -/
theorem components_normalize_up_names {k : Nat}
    (h : p.components = List.replicate k .parent ++ names.map .name) :
    p.normalize.components = List.replicate (k % 2) .parent ++ names.map .name := by
  rw [(components_normalize p).1, rootOf_of_up_names h, h, rise_up_names, climb_up_names,
    List.drop_nil, List.append_nil, List.reverse_reverse, List.nil_append]

theorem current_not_mem_components_normalize (p : Path) : .current ∉ p.normalize.components := by
  rw [(components_normalize p).1, List.mem_append, not_or]
  constructor
  · rcases rootOf_cases p with hroot | hroot <;> rw [hroot] <;> decide
  · intro hcurrent
    rcases isStep_normal p _ _ hcurrent with hparent | ⟨name, -, hname⟩
    · cases hparent
    · cases hname

/-- **The normal form leads where the path leads if and only if the path is absolute or goes up at most
once**, from every directory that is deep enough for the path. Of a number of leading steps up only
the parity is kept. -/
theorem climb_normalize_iff (p : Path) :
    .current ∉ p.normalize.components ∧
    (∀ base, rise p.components ≤ base.length →
      (climb base p.normalize.components = climb base p.components ↔
        p.isAbsolute = true ∨ rise p.components ≤ 1)) ∧
    (∀ base, climb base p.components =
      climb [] p.components ++ if p.isAbsolute then [] else base.drop (rise p.components)) ∧
    (∀ base, climb base p.normalize.components =
      climb [] p.components ++ if p.isAbsolute then [] else base.drop (rise p.components % 2)) ∧
    ∀ (k : Nat) (names : List String),
      p.components = List.replicate k .parent ++ names.map .name →
        p.normalize.components = List.replicate (k % 2) .parent ++ names.map .name := by
  refine ⟨current_not_mem_components_normalize p, fun base hdeep => ?_,
    fun base => climb_components base p, fun base => climb_normalize base p,
    fun k names => components_normalize_up_names⟩
  rw [climb_normalize, climb_components base, List.append_right_inj]
  cases p.isAbsolute with
  | true => exact ⟨fun _ => .inl rfl, fun _ => rfl⟩
  | false =>
    show base.drop (rise p.components % 2) = base.drop (rise p.components) ↔ _
    rw [drop_mod_two_eq_iff hdeep]
    exact ⟨.inr, fun h => h.resolve_left Bool.false_ne_true⟩

/-- Two steps up are none in the normal form, so that the path leads two directories too deep. -/
theorem climb_normalize_twice :
    rise (Path.mk "../../a").components ≤ ["x", "y"].length ∧
    climb ["x", "y"] (Path.mk "../../a").components = ["a"] ∧
    climb ["x", "y"] (Path.mk "../../a").normalize.components = ["a", "x", "y"] ∧
    (Path.mk "../../a").normalize.components = [.name "a"] := by
  have hdeep : rise (Path.mk "../../a").components ≤ ["x", "y"].length := by decide +kernel
  obtain ⟨-, -, hpath, hnormal, hlead⟩ := climb_normalize_iff ⟨"../../a"⟩
  refine ⟨hdeep, ?_, ?_, hlead 2 ["a"] (by decide +kernel)⟩
  · rw [hpath]
    decide +kernel
  · rw [hnormal]
    decide +kernel

end KeywordCensus.Path
