import KeywordCensus.Proofs.Path.Canonical
import KeywordCensus.Proofs.Text.Bytes

/-!
# The path of an entry

The path of an entry of a directory is the path of the directory, a slash unless there is one, and
the name (`Path.text_child`). So it has the segments and the components of the directory, and those
of the name after them (`Path.segments_child`, `Path.components_child`). What is joined need not be a
name of an entry: all that counts is that it has no slash, and a step or nothing at all then gives
one component that is no name or none.

Read by its spelling alone, without links, a path leads from a working directory to
`Path.spelledPlace`, and joining takes one step further (`Path.spelledPlace_child`).
-/

namespace KeywordCensus

theorem Text.splitOn_append_sep (sep : Char) (a b : List Char) :
    splitOn sep (a ++ sep :: b) = splitOn sep a ++ splitOn sep b := by
  induction a with
  | nil => exact if_pos rfl
  | cons c a ih =>
    rw [List.cons_append, splitOn, splitOn, ih]
    split
    · rfl
    · cases h : splitOn sep a with
      | nil => exact absurd h (splitOn_ne_nil sep a)
      | cons part parts => rfl

namespace Path

variable {p : Path} {name : String}

/-- A text is the name of an entry if its bytes are. -/
theorem isName_toBytes {text : String} : IsName (Text.toBytes text) ↔ IsName text := by
  rw [IsName, IsName, ne_eq, ne_eq, ne_eq, Text.toBytes_eq_iff (by decide),
    Text.toBytes_eq_iff (by decide), Text.toBytes_eq_iff (by decide),
    Text.mem_toBytes (by decide)]

/-! ## Segments -/

theorem splitOn_name (h : IsName name) :
    ((Text.splitOn '/' name.toList).filter (· ≠ [])).map String.ofList = [name] := by
  have hne : name.toList ≠ [] := fun hnil => h.1 (String.toList_eq_nil_iff.mp hnil)
  rw [Text.splitOn_of_not_mem h.2.2.2, List.filter_cons, if_pos (decide_eq_true hne),
    List.filter_nil, List.map_cons, String.ofList_toList, List.map_nil]

theorem isAbsolute_of_not_mem (h : '/' ∉ name.toList) : (Path.mk name).isAbsolute = false := by
  rw [isAbsolute, decide_eq_false_iff_not]
  exact fun hhead => h (List.mem_of_mem_head? hhead)

/-- The characters of the path of an entry: a slash stands before the name. -/
theorem text_child (hp : p.text ≠ "") (h : '/' ∉ name.toList) :
    ∃ before, (p.child name).text.toList = before ++ '/' :: name.toList ∧
      (before = p.text.toList ∨ before ++ ['/'] = p.text.toList) := by
  have hempty : p.text.isEmpty = false := by
    rw [Bool.eq_false_iff, ne_eq, String.isEmpty_iff]
    exact hp
  rw [child, join, isAbsolute_of_not_mem h, hempty]
  -- A slash at the end of the parent is not doubled.
  by_cases hslash : p.endsWithSlash = true
  · have hlast : p.text.toList.getLast? = some '/' := of_decide_eq_true hslash
    obtain ⟨before, hbefore⟩ := List.getLast?_eq_some_iff.mp hlast
    refine ⟨before, ?_, .inr hbefore.symm⟩
    rw [hslash]
    show (p.text ++ name).toList = before ++ '/' :: name.toList
    rw [String.toList_append, hbefore, List.append_assoc]
    rfl
  · refine ⟨p.text.toList, ?_, .inl rfl⟩
    rw [Bool.eq_false_iff.mpr hslash]
    show (p.text ++ "/" ++ name).toList = p.text.toList ++ '/' :: name.toList
    rw [String.toList_append, String.toList_append, List.append_assoc]
    rfl

/-- After the segments of the path stands what is joined, unless that is nothing. -/
theorem segments_child_of_not_mem (hp : p.text ≠ "") (h : '/' ∉ name.toList) :
    (p.child name).segments =
      p.segments ++ ([name.toList].filter (· ≠ [])).map String.ofList := by
  obtain ⟨before, htext, hbefore⟩ := text_child hp h
  have hsegments : p.segments =
      ((Text.splitOn '/' before).filter (· ≠ [])).map String.ofList := by
    rcases hbefore with rfl | hbefore
    · rfl
    · rw [segments, ← hbefore, Text.splitOn_append_sep, List.filter_append, List.map_append]
      exact List.append_nil _
  rw [segments, htext, Text.splitOn_append_sep, List.filter_append, List.map_append,
    Text.splitOn_of_not_mem h, hsegments]

/-- The segments of a child are those of its parent and the name. -/
theorem segments_child (hp : p.text ≠ "") (h : IsName name) :
    (p.child name).segments = p.segments ++ [name] := by
  rw [segments_child_of_not_mem hp h.2.2.2, ← Text.splitOn_of_not_mem h.2.2.2, splitOn_name h]

theorem text_child_ne (hp : p.text ≠ "") (h : '/' ∉ name.toList) : (p.child name).text ≠ "" := by
  obtain ⟨before, htext, -⟩ := text_child hp h
  intro hempty
  rw [hempty] at htext
  exact List.append_ne_nil_of_right_ne_nil _ (List.cons_ne_nil _ _) htext.symm

/-- The path of an entry ends with its name. -/
theorem trail_child (hp : p.text ≠ "") (h : IsName name) :
    (p.child name).trail = p.segments ++ [name] := by
  obtain ⟨before, htext, -⟩ := text_child hp h.2.2.2
  have hslash : (p.child name).endsWithSlash ≠ true := by
    intro hslash
    have hlast : (p.child name).text.toList.getLast? = some '/' := of_decide_eq_true hslash
    have hne : name.toList ≠ [] := fun hnil => h.1 (String.toList_eq_nil_iff.mp hnil)
    obtain ⟨final, hfinal⟩ : ∃ final, name.toList.getLast? = some final :=
      ⟨_, List.getLast?_eq_some_getLast hne⟩
    rw [htext, ← List.singleton_append, ← List.append_assoc, List.getLast?_append, hfinal] at hlast
    cases hlast
    exact h.2.2.2 (List.mem_of_getLast? hfinal)
  rw [trail, if_neg hslash, segments_child hp h]

/-- Nothing, or a step to the current directory, asks for the directory itself. -/
theorem trail_child_of_stay (hp : p.text ≠ "") (h : name = "" ∨ name = ".") :
    (p.child name).trail = p.segments ++ [name] := by
  have hslash : '/' ∉ name.toList := by rcases h with rfl | rfl <;> decide
  obtain ⟨before, htext, -⟩ := text_child hp hslash
  have hends : (p.child name).endsWithSlash = decide (name = "") := by
    rw [endsWithSlash, htext]
    rcases h with rfl | rfl <;> simp
  rw [trail, hends, segments_child_of_not_mem hp hslash]
  rcases h with rfl | rfl
  · exact congrArg (· ++ [""]) (List.append_nil _)
  · rfl

theorem isAbsolute_child (hp : p.text ≠ "") (h : '/' ∉ name.toList) :
    (p.child name).isAbsolute = p.isAbsolute := by
  obtain ⟨before, htext, hbefore⟩ := text_child hp h
  have hne : p.text.toList ≠ [] := fun hnil => hp (String.toList_eq_nil_iff.mp hnil)
  obtain ⟨first, hfirst⟩ := Option.isSome_iff_exists.mp (List.isSome_head?.mpr hne)
  rw [isAbsolute, isAbsolute, htext, hfirst, ← List.singleton_append, ← List.append_assoc,
    List.head?_append]
  rcases hbefore with rfl | hbefore
  · rw [List.head?_append, hfirst]
    rfl
  · rw [hbefore, hfirst]
    rfl

/-! ## Components -/

/-- The names among the components of a path are names of entries. -/
theorem isName_of_mem_components (h : .name name ∈ p.components) : IsName name := by
  rw [components_eq] at h
  -- What stands in front is a root or a current directory, so a name is one of the parts.
  rcases List.mem_append.mp h with hstart | hparts
  · rw [start] at hstart
    split at hstart
    · cases List.mem_singleton.mp hstart
    split at hstart
    · cases List.mem_singleton.mp hstart
    · cases hstart
  · obtain ⟨part, hpart, hname⟩ := List.mem_filterMap.mp hparts
    rw [Component.ofPart?] at hname
    split at hname
    · cases hname
    rename_i hsilent
    split at hname
    · cases hname
    rename_i hdots
    cases hname
    have hne {text : String} (hpart : part ≠ text.toList) : String.ofList part ≠ text := by
      rintro rfl
      exact hpart String.toList_ofList.symm
    refine ⟨hne fun hnil => hsilent (.inl hnil), hne fun hdot => hsilent (.inr hdot), hne hdots, ?_⟩
    rw [String.toList_ofList]
    exact Text.not_mem_of_mem_splitOn part hpart

/-- **What is joined to a path adds the component that it stands for**, if it stands for one. -/
theorem components_child (hp : p.text ≠ "") (h : '/' ∉ name.toList) :
    (p.child name).components = p.components ++ (Component.ofPart? name.toList).toList := by
  obtain ⟨before, htext, hbefore⟩ := text_child hp h
  -- A parent with a slash at its end has one more part, which is empty and says nothing.
  have hparts : ∃ silent, Text.splitOn '/' p.text.toList = Text.splitOn '/' before ++ silent ∧
      silent.filterMap Component.ofPart? = [] := by
    rcases hbefore with rfl | hbefore
    · exact ⟨[], (List.append_nil _).symm, rfl⟩
    · exact ⟨[[]], hbefore ▸ Text.splitOn_append_sep '/' before [], rfl⟩
  obtain ⟨silent, hsplit, hsilent⟩ := hparts
  have hchild : Text.splitOn '/' (p.child name).text.toList =
      Text.splitOn '/' before ++ [name.toList] := by
    rw [htext, Text.splitOn_append_sep, Text.splitOn_of_not_mem h]
  have hstart : (p.child name).start = p.start := by
    obtain ⟨first, hfirst⟩ := Option.isSome_iff_exists.mp
      (List.isSome_head?.mpr (Text.splitOn_ne_nil '/' before))
    rw [start, start, isAbsolute_child hp h, hchild, hsplit, List.head?_append, List.head?_append,
      hfirst]
    rfl
  rw [components_eq, components_eq, hstart, hchild, hsplit, List.filterMap_append,
    List.filterMap_append, hsilent, List.append_nil, List.append_assoc]
  refine congrArg (fun last => p.start ++ (_ ++ last)) ?_
  cases hpart : Component.ofPart? name.toList with
  | none => rw [List.filterMap_cons_none hpart]; rfl
  | some c => rw [List.filterMap_cons_some hpart]; rfl

/-- A path that has no slash stands for one component or none. -/
theorem components_of_not_mem (h : '/' ∉ name.toList) :
    (Path.mk name).components =
      (if name = "." then [.current] else []) ++ (Component.ofPart? name.toList).toList := by
  rw [components_eq, start, isAbsolute_of_not_mem h, if_neg Bool.false_ne_true,
    Text.splitOn_of_not_mem h, List.head?_cons]
  simp only [Option.some_inj, toList_eq_dot]
  cases hpart : Component.ofPart? name.toList with
  | none => rw [List.filterMap_cons_none hpart]; rfl
  | some c => rw [List.filterMap_cons_some hpart]; rfl

theorem child_empty (h : '/' ∉ name.toList) : (Path.mk "").child name = ⟨name⟩ := by
  rw [child, join, isAbsolute_of_not_mem h]
  exact congrArg Path.mk String.empty_append

/-- **The path of an entry has one component more**, wherever the directory is. -/
theorem components_child_of_isName (p : Path) (h : IsName name) :
    (p.child name).components = p.components ++ [.name name] := by
  have hpart := ofPart?_of_isName h
  by_cases hp : p.text = ""
  · obtain ⟨text⟩ := p
    cases hp
    rw [child_empty h.2.2.2, components_of_not_mem h.2.2.2, if_neg h.2.1, hpart]
    rfl
  · rw [components_child hp h.2.2.2, hpart]
    rfl

/-! ## Where the spelling leads -/

/-- The place that a path leads to from a working directory by its spelling alone. -/
def spelledPlace (workDir : Location) (p : Path) : Location :=
  (climb workDir.reverse p.components).reverse

/-- The place that what is joined to a path leads to, by its spelling alone. -/
def enter (place : Location) (name : String) : Location :=
  if name = "" ∨ name = "." then place else if name = ".." then place.dropLast else place ++ [name]

theorem enter_of_isName (place : Location) (h : IsName name) : enter place name = place ++ [name] := by
  rw [enter, if_neg (not_or.mpr ⟨h.1, h.2.1⟩), if_neg h.2.2.1]

theorem enter_of_stay (place : Location) (h : name = "" ∨ name = ".") :
    enter place name = place := if_pos h

theorem enter_of_up (place : Location) (h : name = "..") : enter place name = place.dropLast := by
  subst h
  rfl

/-- A text without a slash is a name, or a step, or nothing. -/
theorem isName_or_step (h : '/' ∉ name.toList) :
    IsName name ∨ (name = "" ∨ name = ".") ∨ name = ".." := by
  by_cases hstay : name = "" ∨ name = "."
  · exact .inr (.inl hstay)
  by_cases hup : name = ".."
  · exact .inr (.inr hup)
  · exact .inl ⟨fun heq => hstay (.inl heq), fun heq => hstay (.inr heq), hup, h⟩

/-- Climbing two runs of components is climbing the second from where the first ends. -/
theorem climb_append (place : List String) (before after : List Component) :
    climb place (before ++ after) = climb (climb place before) after :=
  List.foldl_append

theorem climb_names (place names : List String) :
    climb place (names.map Component.name) = names.reverse ++ place := by
  induction names generalizing place with
  | nil => rfl
  | cons name rest ih =>
    rw [List.reverse_cons, List.append_assoc]
    exact ih (name :: place)

/-- Names after the components of a path lead down from its place. -/
theorem spelledPlace_of_components {q : Path} {names : List String} (workDir : Location)
    (h : q.components = p.components ++ names.map Component.name) :
    spelledPlace workDir q = spelledPlace workDir p ++ names := by
  rw [spelledPlace, h, climb_append, climb_names, List.reverse_append, List.reverse_reverse]
  rfl

/-- Climbing by what a text stands for enters it. -/
theorem climb_ofPart? (place : List String) (name : String) :
    (climb place (Component.ofPart? name.toList).toList).reverse = enter place.reverse name := by
  rw [Component.ofPart?, enter]
  simp only [String.toList_eq_nil_iff, toList_eq_dot, toList_eq_dots]
  by_cases hstay : name = "" ∨ name = "."
  · rw [if_pos hstay, if_pos hstay]
    rfl
  rw [if_neg hstay, if_neg hstay]
  by_cases hup : name = ".."
  · rw [if_pos hup, if_pos hup]
    show (place.drop 1).reverse = place.reverse.dropLast
    rw [List.drop_one, List.dropLast_reverse]
  · rw [if_neg hup, if_neg hup, String.ofList_toList]
    exact List.reverse_cons

/-- **Joining takes one step further.** -/
theorem spelledPlace_child (workDir : Location) (p : Path) (h : '/' ∉ name.toList) :
    spelledPlace workDir (p.child name) = enter (spelledPlace workDir p) name := by
  by_cases hp : p.text = ""
  · obtain ⟨text⟩ := p
    cases hp
    rw [child_empty h, spelledPlace, components_of_not_mem h, climb_append, climb_ofPart?]
    by_cases hdot : name = "."
    · rw [if_pos hdot]
      rfl
    · rw [if_neg hdot]
      rfl
  · rw [spelledPlace, components_child hp h, climb_append, climb_ofPart?]
    rfl

end Path

end KeywordCensus
