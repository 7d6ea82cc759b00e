import KeywordCensus.FileTree.Resolve
import KeywordCensus.Path.Normal

/-!
# Canonical paths

Steps up and names that are spelled as a path are read as they stand (`Path.components_ofComponents`).
Following a path ends at a place that is given by names, whatever steps and links lead there
(`FileTree.locate_named`). The path of such a place is its own normal form
(`Path.trim_pathOf`), so canonical paths, unlike paths in general, are told apart by their normal
forms.
-/

namespace KeywordCensus

namespace Text

theorem splitOn_of_not_mem {sep : Char} {part : List Char} (h : sep ∉ part) :
    splitOn sep part = [part] := by
  induction part with
  | nil => rfl
  | cons c rest ih =>
    rw [List.mem_cons, not_or] at h
    rw [splitOn, if_neg fun heq => h.1 heq.symm, ih h.2]

/-- Splitting a part and a rest that begins with the separator splits off the part. -/
theorem splitOn_append {sep : Char} {part : List Char} (rest : List Char) (h : sep ∉ part) :
    splitOn sep (part ++ sep :: rest) = part :: splitOn sep rest := by
  induction part with
  | nil => rw [List.nil_append, splitOn, if_pos rfl]
  | cons c part ih =>
    rw [List.mem_cons, not_or] at h
    rw [List.cons_append, splitOn, if_neg fun heq => h.1 heq.symm, ih h.2]

/-- Cutting takes apart what has been joined. -/
theorem splitOn_join {sep : Char} :
    ∀ {parts : List (List Char)}, parts ≠ [] → (∀ part ∈ parts, sep ∉ part) →
      splitOn sep (join sep parts) = parts
  | [], hne, _ => absurd rfl hne
  | [part], _, h => splitOn_of_not_mem (h part (List.mem_cons_self ..))
  | part :: next :: parts, _, h => by
    have hne : next :: parts ≠ [] := List.cons_ne_nil next parts
    rw [join, splitOn_append _ (h part (List.mem_cons_self ..)),
      splitOn_join hne fun p hp => h p (List.mem_cons_of_mem _ hp)]
    exact hne

end Text

namespace Path

variable {name : String} {names : List String} {steps : List Component} {place : Location}

/-- A name is a component of its own. -/
theorem ofPart?_of_isName (h : IsName name) :
    Component.ofPart? name.toList = some (.name name) := by
  obtain ⟨hempty, hdot, hdots, -⟩ := h
  have hne : ∀ {text : List Char}, name ≠ String.ofList text → name.toList ≠ text := by
    intro text hname heq
    exact hname (by rw [← heq, String.ofList_toList])
  rw [Component.ofPart?, if_neg, if_neg (hne hdots), String.ofList_toList]
  rintro (heq | heq)
  · exact hne hempty heq
  · exact hne hdot heq

/-- The parts of a path hold something, but no slash. -/
theorem mem_segments {p : Path} {segment : String} (h : segment ∈ p.segments) :
    segment ≠ "" ∧ '/' ∉ segment.toList := by
  obtain ⟨part, hpart, rfl⟩ := List.mem_map.mp h
  obtain ⟨hmem, hne⟩ := List.mem_filter.mp hpart
  rw [String.toList_ofList]
  refine ⟨fun heq => ?_, Text.not_mem_of_mem_splitOn part hmem⟩
  have hnil : part = [] := by
    rw [← String.toList_ofList (l := part), heq]
    rfl
  exact of_decide_eq_true hne hnil

theorem mem_trail {p : Path} {segment : String} (h : segment ∈ p.trail) :
    '/' ∉ segment.toList := by
  rw [trail] at h
  split at h
  · rcases List.mem_append.mp h with h | h
    · exact (mem_segments h).2
    · rw [List.mem_singleton.mp h]
      exact List.not_mem_nil
  · exact (mem_segments h).2

/-! ## Reading the spelling of components -/

/-- What stands before the components that the parts of a path stand for. -/
def start (p : Path) : List Component :=
  if p.isAbsolute then [.root]
  else if (Text.splitOn '/' p.text.toList).head? = some ['.'] then [.current] else []

/-- Every part of a path but a first one that is a point stands for itself. -/
theorem components_eq (p : Path) :
    p.components = p.start ++ (Text.splitOn '/' p.text.toList).filterMap Component.ofPart? := by
  -- Only a path that is not absolute can begin with a current directory of its own.
  rw [components, start]
  cases Text.splitOn '/' p.text.toList with
  | nil => cases p.isAbsolute <;> rfl
  | cons part rest =>
    cases p.isAbsolute with
    | true => rfl
    | false =>
      rw [if_neg Bool.false_ne_true, if_neg Bool.false_ne_true, List.head?_cons]
      split
      · rename_i heq
        cases heq
        rw [if_pos rfl]
        rfl
      · rename_i hne
        rw [if_neg fun heq => hne rest (congrArg (· :: rest) (Option.some.inj heq))]
        rfl

theorem toList_eq_dot : name.toList = ['.'] ↔ name = "." := by
  rw [← String.toList_inj]
  rfl

theorem toList_eq_dots : name.toList = ['.', '.'] ↔ name = ".." := by
  rw [← String.toList_inj]
  rfl

/-- A component that is a step up or the name of an entry. -/
def IsStep (c : Component) : Prop := c = .parent ∨ ∃ name, IsName name ∧ c = .name name

theorem isStep_names (h : ∀ name ∈ names, IsName name) :
    ∀ c ∈ names.map Component.name, IsStep c := by
  intro c hc
  obtain ⟨name, hname, rfl⟩ := List.mem_map.mp hc
  exact .inr ⟨name, h name hname, rfl⟩

theorem not_root_of_isStep (h : ∀ c ∈ steps, IsStep c) : .root ∉ steps := by
  intro hroot
  rcases h _ hroot with hparent | ⟨name, -, hname⟩
  · cases hparent
  · cases hname

theorem ofPart?_text {c : Component} (h : IsStep c) : Component.ofPart? c.text = some c := by
  rcases h with rfl | ⟨name, hname, rfl⟩
  · rfl
  · exact ofPart?_of_isName hname

theorem text_of_isStep {c : Component} (h : IsStep c) :
    c.text ≠ [] ∧ c.text ≠ ['.'] ∧ '/' ∉ c.text := by
  rcases h with rfl | ⟨name, ⟨hempty, hdot, -, hslash⟩, rfl⟩
  · decide
  · exact ⟨fun hnil => hempty (String.toList_eq_nil_iff.mp hnil),
      fun heq => hdot (toList_eq_dot.mp heq), hslash⟩

/-- Writing steps and reading their parts gives the steps. -/
theorem filterMap_ofPart?_steps (h : ∀ c ∈ steps, IsStep c) :
    (steps.map Component.text).filterMap Component.ofPart? = steps := by
  induction steps with
  | nil => rfl
  | cons c rest ih =>
    obtain ⟨hc, hrest⟩ := List.forall_mem_cons.mp h
    rw [List.map_cons, List.filterMap_cons_some (ofPart?_text hc), ih hrest]

theorem splitOn_steps (h : ∀ c ∈ steps, IsStep c) (hne : steps ≠ []) :
    Text.splitOn '/' (Text.join '/' (steps.map Component.text)) = steps.map Component.text := by
  refine Text.splitOn_join (fun hnil => hne (List.map_eq_nil_iff.mp hnil)) fun part hpart => ?_
  obtain ⟨c, hc, rfl⟩ := List.mem_map.mp hpart
  exact (text_of_isStep (h c hc)).2.2

theorem render_steps (h : ∀ c ∈ steps, IsStep c) :
    render steps = Text.join '/' (steps.map Component.text) := by
  cases steps with
  | nil => rfl
  | cons c rest =>
    rcases h c (List.mem_cons_self ..) with rfl | ⟨name, -, rfl⟩ <;> rfl

/-- A spelling of steps that does not begin at the root has these steps as its components. -/
theorem components_ofComponents (h : ∀ c ∈ steps, IsStep c) :
    (ofComponents steps).components = steps ∧ (ofComponents steps).isAbsolute = false := by
  cases steps with
  | nil => exact ⟨rfl, rfl⟩
  | cons c rest =>
    have hsplit := splitOn_steps h (List.cons_ne_nil c rest)
    have htext : (ofComponents (c :: rest)).text.toList =
        Text.join '/' ((c :: rest).map Component.text) := by
      rw [ofComponents, String.toList_ofList, render_steps h]
    obtain ⟨hempty, hdot, -⟩ := text_of_isStep (h c (List.mem_cons_self ..))
    have hrelative : (ofComponents (c :: rest)).isAbsolute = false := by
      rw [isAbsolute, htext, decide_eq_false_iff_not]
      -- A slash in front would leave an empty first part.
      intro hhead
      obtain ⟨tail, htail⟩ := List.head?_eq_some_iff.mp hhead
      rw [htail, Text.splitOn, if_pos rfl] at hsplit
      exact hempty (List.cons.inj hsplit).1.symm
    refine ⟨?_, hrelative⟩
    rw [components_eq, start, if_neg (Bool.eq_false_iff.mp hrelative), htext, hsplit,
      filterMap_ofPart?_steps h, List.map_cons, List.head?_cons,
      if_neg fun heq => hdot (Option.some.inj heq), List.nil_append]

/-- A spelling that begins at the root has the root and then its steps as its components. -/
theorem components_ofComponents_root (h : ∀ c ∈ steps, IsStep c) :
    (ofComponents (.root :: steps)).components = .root :: steps ∧
      (ofComponents (.root :: steps)).isAbsolute = true := by
  have htext : (ofComponents (.root :: steps)).text.toList =
      '/' :: Text.join '/' (steps.map Component.text) := by
    rw [ofComponents, String.toList_ofList, render]
  have habsolute : (ofComponents (.root :: steps)).isAbsolute = true := by
    rw [isAbsolute, htext]
    rfl
  refine ⟨?_, habsolute⟩
  rw [components_eq, start, if_pos habsolute, htext, Text.splitOn, if_pos rfl]
  show [.root] ++ (Text.splitOn '/' (Text.join '/' (steps.map Component.text))).filterMap
    Component.ofPart? = .root :: steps
  -- The text of no steps would split into one empty part.
  by_cases hne : steps = []
  · rw [hne]
    rfl
  · rw [splitOn_steps h hne, filterMap_ofPart?_steps h]
    rfl

/-! ## Places -/

/-- The path of a location is its names, each after a slash. -/
theorem toList_pathOf (place : Location) : (FileTree.pathOf place).text.toList =
    '/' :: Text.join '/' (place.map String.toList) := by
  rw [FileTree.pathOf, render, String.toList_ofList, List.map_map]
  rfl

theorem isAbsolute_pathOf (place : Location) : (FileTree.pathOf place).isAbsolute = true := by
  rw [isAbsolute, toList_pathOf]
  rfl

/-- The components of the path of a place are the root and the names of the place. -/
theorem components_pathOf (h : ∀ name ∈ place, IsName name) :
    (FileTree.pathOf place).components = .root :: place.map Component.name :=
  (components_ofComponents_root (isStep_names h)).1

theorem foldl_normalStep_names (names : List String) (done : List Component) :
    (names.map Component.name).foldl normalStep done =
      (names.map Component.name).reverse ++ done := by
  induction names generalizing done with
  | nil => rfl
  | cons name rest ih =>
    rw [List.map_cons, List.foldl_cons, ih, List.reverse_cons, List.append_assoc]
    rfl

theorem normalComponents_names (names : List String) :
    normalComponents (.root :: names.map Component.name) = .root :: names.map Component.name := by
  rw [normalComponents, List.foldl_cons]
  show ((names.map Component.name).foldl normalStep [.root]).reverse = _
  rw [foldl_normalStep_names, List.reverse_append, List.reverse_reverse]
  rfl

/-- **The path of a place is its own normal form.** -/
theorem trim_pathOf (h : ∀ name ∈ place, IsName name) :
    (FileTree.pathOf place).trim 0 = FileTree.pathOf place := by
  rw [trim, components_pathOf h, normalComponents_names]
  exact if_pos (.inl rfl)

end Path

namespace FileTree

variable {t : FileTree} {followLast : Bool}

/-- Does following from places given by names only lead to such places? -/
def KeepsNames (follow : Location → List String → Except IoError Target) : Prop :=
  ∀ place segments, (∀ name ∈ place, Path.IsName name) →
    (∀ s ∈ segments, '/' ∉ s.toList) →
    ∀ found, follow place segments = .ok (.present found) → ∀ name ∈ found, Path.IsName name

/-- Walking from a named location along a path starts at a named location. -/
theorem startIn_named {place : Location} (h : ∀ name ∈ place, Path.IsName name) (p : Path) :
    ∀ name ∈ startIn place p, Path.IsName name := by
  rw [startIn]
  split
  · exact List.forall_mem_nil _
  · exact h

/-- Following a way enters only names that a directory lists, and so do its links. -/
theorem followFrom_keepsNames {onLink : Location → List String → Except IoError Target}
    (hlink : KeepsNames onLink) : KeepsNames (t.followFrom followLast onLink) := by
  intro place segments
  induction segments generalizing place with
  | nil =>
    intro hplace _ found hfound
    rw [followFrom] at hfound
    cases hfound
    exact hplace
  | cons segment rest ih =>
    intro hplace hsegments found hfound
    obtain ⟨hsegment, hrest⟩ := List.forall_mem_cons.mp hsegments
    have hup : ∀ name ∈ place.dropLast, Path.IsName name :=
      fun name hname => hplace name (List.dropLast_subset place hname)
    rw [followFrom] at hfound
    split at hfound
    · cases hfound
    · split at hfound
      · cases hfound
      split at hfound
      · exact ih place hplace hrest found hfound
      rename_i hslash
      split at hfound
      · cases hfound
      split at hfound
      · exact ih place hplace hrest found hfound
      rename_i hdot
      split at hfound
      · exact ih _ hup hrest found hfound
      rename_i hdots
      -- What is left is a name, so descending keeps to names.
      have hdown : ∀ name ∈ place ++ [segment], Path.IsName name := by
        intro name hname
        rcases List.mem_append.mp hname with hname | hname
        · exact hplace name hname
        · rw [List.mem_singleton.mp hname]
          exact ⟨hslash, hdot, hdots, hsegment⟩
      split at hfound
      · split at hfound <;> cases hfound
      · rename_i target _
        split at hfound
        · cases hfound
          exact hdown
        split at hfound
        · cases hfound
        · refine hlink _ _ (startIn_named hplace _) ?_ found hfound
          intro s hs
          rcases List.mem_append.mp hs with hs | hs
          · exact Path.mem_trail hs
          · exact hrest s hs
      · exact ih _ hdown hrest found hfound

theorem followWithin_keepsNames (links : Nat) : KeepsNames (t.followWithin followLast links) := by
  induction links with
  | zero =>
    intro _ _ _ _ _ hfound
    cases hfound
  | succ links ih => exact followFrom_keepsNames ih

/-- **A path leads to a place that is given by names.** -/
theorem locate_named {p : Path} {place : Location} (h : t.locate p followLast = .ok place) :
    ∀ name ∈ place, Path.IsName name := by
  rw [locate, resolve] at h
  split at h
  · rename_i found hfound
    cases h
    split at hfound
    · cases hfound
    · exact followWithin_keepsNames _ _ _ (startIn_named t.workDir_named p)
        (fun _ hs => Path.mem_trail hs) _ hfound
  · cases h
  · cases h

/-- A canonical path is its own normal form. -/
theorem trim_canonicalize {p canonical : Path} (h : t.canonicalize p = .ok canonical) :
    canonical.trim 0 = canonical := by
  rw [canonicalize] at h
  cases hlocate : t.locate p true with
  | error e =>
    rw [hlocate] at h
    cases h
  | ok place =>
    rw [hlocate] at h
    cases h
    exact Path.trim_pathOf (locate_named hlocate)

end FileTree

end KeywordCensus
