import KeywordCensus.Report.Page

/-!
# Reading markup

A page is text with tags in it, and tags may hold attribute values. Three characters tell them
apart, the marks, and a reader that goes from mark to mark always knows in which region it is:
`Region.after`. What it keeps if it leaves out the texts between tags and the attribute values is
the outline of the page (`outline`).

Pieces of a page are fixed markup and shown texts. The template that they fill has a gap for each
text, and `Fills` says what it means that a page is such a template with its gaps filled: every gap
stands in a text or in an attribute value, and holds the escaped form of its text. An escaped text
holds no mark and can be read back (`isMark_of_mem_escape`, `unescape_escape`), so filling the gaps
changes neither the outline of the template nor the region of anything that follows
(`reads_of_survey`).
-/

namespace KeywordCensus

namespace Piece

/-! ## Escaped text -/

/-- The text of an escaped text: each reference stands for its character. -/
def unescape : List Char → List Char
  | '&' :: 'a' :: 'm' :: 'p' :: ';' :: rest => '&' :: unescape rest
  | '&' :: 'l' :: 't' :: ';' :: rest => '<' :: unescape rest
  | '&' :: 'g' :: 't' :: ';' :: rest => '>' :: unescape rest
  | '&' :: 'q' :: 'u' :: 'o' :: 't' :: ';' :: rest => '"' :: unescape rest
  | '&' :: '#' :: 'x' :: '2' :: '7' :: ';' :: rest => '\'' :: unescape rest
  | '&' :: '#' :: 'x' :: '2' :: 'F' :: ';' :: rest => '/' :: unescape rest
  | c :: rest => c :: unescape rest
  | [] => []

theorem unescape_cons {c : Char} (h : c ≠ '&') (rest : List Char) :
    unescape (c :: rest) = c :: unescape rest := by
  rw [unescape]
  all_goals
    intros
    exact absurd ‹_› h

/-- The characters that are written as references. -/
def referenced : List Char := ['&', '<', '>', '"', '\'', '/']

theorem escapeChar_of_not_mem {c : Char} (h : c ∉ referenced) : escapeChar c = [c] := by
  simp only [referenced, List.mem_cons, List.not_mem_nil, or_false, not_or] at h
  simp [escapeChar, h]

/-- An escaped character is read back, whatever follows. -/
theorem unescape_escapeChar (c : Char) (rest : List Char) :
    unescape (escapeChar c ++ rest) = c :: unescape rest := by
  by_cases hc : c ∈ referenced
  · simp only [referenced, List.mem_cons, List.not_mem_nil, or_false] at hc
    rcases hc with rfl | rfl | rfl | rfl | rfl | rfl <;> simp [escapeChar, unescape]
  · have hamp : c ≠ '&' := fun heq => hc (heq ▸ List.mem_cons_self ..)
    rw [escapeChar_of_not_mem hc, List.singleton_append, unescape_cons hamp]

/-- **An escaped text is read back as it was.** -/
theorem unescape_escape (cs : List Char) : unescape (escape cs) = cs := by
  induction cs with
  | nil => simp [escape, unescape]
  | cons c rest ih =>
    rw [escape, List.flatMap_cons, ← escape, unescape_escapeChar, ih]

end Piece

namespace Markup

/-- Is this one of the characters that tags and attribute values begin and end with? -/
def isMark (c : Char) : Bool := c = '<' || c = '>' || c = '"'

/-- No mark is in an escaped text. -/
theorem isMark_of_mem_escape {cs : List Char} {d : Char} (h : d ∈ Piece.escape cs) :
    isMark d = false := by
  obtain ⟨c, -, hd⟩ := List.mem_flatMap.mp h
  by_cases hc : c ∈ Piece.referenced
  · have hall : (Piece.referenced.all fun c => (Piece.escapeChar c).all fun d => !isMark d) = true :=
      by decide +kernel
    have hmark := List.all_eq_true.mp (List.all_eq_true.mp hall c hc) d hd
    rwa [Bool.not_eq_true'] at hmark
  · -- All marks are written as references.
    rw [Piece.escapeChar_of_not_mem hc, List.mem_singleton] at hd
    subst hd
    simp only [Piece.referenced, List.mem_cons, List.not_mem_nil, or_false, not_or] at hc
    simp [isMark, hc]

/-! ## Regions -/

/-- Where on a page something stands. -/
inductive Region where
  /-- Between tags. -/
  | text
  /-- In a tag. -/
  | tag
  /-- In an attribute value. -/
  | value
  deriving DecidableEq

/-- The region after a character; none if it is a mark that has no place there. -/
def Region.after : Region → Char → Option Region
  | .text, c => if c = '<' then some .tag else if isMark c then none else some .text
  | .tag, c =>
    if c = '>' then some .text
    else if c = '"' then some .value
    else if isMark c then none else some .tag
  | .value, c => if c = '"' then some .tag else if isMark c then none else some .value

/-- Add a character in front of an outline, unless it stands in a text or in an attribute value. -/
def keep (r : Region) (c : Char) (kept : List Char) : List Char :=
  if isMark c || r = .tag then c :: kept else kept

/-- Read a page from some region on: its marks and what stands in its tags, and the region in which
it ends. -/
def outline : Region → List Char → Option (List Char × Region)
  | r, [] => some ([], r)
  | r, c :: rest => (r.after c).bind fun next =>
    (outline next rest).map fun found => (keep r c found.1, found.2)

variable {r m q : Region}

theorem keep_append (r : Region) (c : Char) (kept more : List Char) :
    keep r c (kept ++ more) = keep r c kept ++ more := by
  unfold keep
  split
  · rfl
  · rfl

theorem filter_keep (r : Region) (c : Char) (kept : List Char) :
    (keep r c kept).filter isMark = (c :: kept).filter isMark := by
  unfold keep
  split
  · rfl
  · rename_i hdropped
    have hc : isMark c = false := by
      simp only [Bool.or_eq_true, not_or] at hdropped
      exact Bool.eq_false_iff.mpr hdropped.1
    rw [List.filter_cons, hc]
    rfl

/-- One step of the outline: the region the character leads to, and the outline from there. -/
theorem outline_cons_eq_some {c : Char} {rest kept : List Char} :
    outline r (c :: rest) = some (kept, q) ↔
      ∃ next more, r.after c = some next ∧ outline next rest = some (more, q) ∧
        kept = keep r c more := by
  rw [outline]
  constructor
  · intro h
    obtain ⟨next, hnext, h⟩ := Option.bind_eq_some_iff.mp h
    obtain ⟨⟨more, last⟩, hrest, h⟩ := Option.map_eq_some_iff.mp h
    cases h
    exact ⟨next, more, hnext, hrest, rfl⟩
  · rintro ⟨next, more, hnext, hrest, rfl⟩
    rw [hnext, Option.bind_some, hrest]
    rfl

/-- Outlines of two texts compose where the first ends in the region the second begins in. -/
theorem outline_append {cs ds kept more : List Char} (h : outline r cs = some (kept, m))
    (h' : outline m ds = some (more, q)) : outline r (cs ++ ds) = some (kept ++ more, q) := by
  induction cs generalizing r kept with
  | nil =>
    cases h
    exact h'
  | cons c rest ih =>
    obtain ⟨next, found, hnext, hrest, rfl⟩ := outline_cons_eq_some.mp h
    rw [← keep_append]
    exact outline_cons_eq_some.mpr ⟨next, found ++ more, hnext, ih hrest, rfl⟩

theorem after_of_not_mark {c : Char} (h : isMark c = false) : r.after c = some r := by
  have hne : c ≠ '<' ∧ c ≠ '>' ∧ c ≠ '"' := by simpa [isMark, and_assoc] using h
  cases r with
  | text => simp [Region.after, h, hne]
  | tag => simp [Region.after, h, hne]
  | value => simp [Region.after, h, hne]

/-- Without marks, and not in a tag, a text leaves nothing in the outline. -/
theorem outline_of_not_mark (hr : r ≠ .tag) {cs : List Char} (h : ∀ c ∈ cs, isMark c = false) :
    outline r cs = some ([], r) := by
  induction cs with
  | nil => rfl
  | cons c rest ih =>
    obtain ⟨hc, hrest⟩ := List.forall_mem_cons.mp h
    refine outline_cons_eq_some.mpr ⟨r, [], after_of_not_mark hc, ih hrest, ?_⟩
    simp [keep, hc, hr]

/-- The outline keeps all marks. -/
theorem filter_of_outline {cs kept : List Char} (h : outline r cs = some (kept, q)) :
    cs.filter isMark = kept.filter isMark := by
  induction cs generalizing r kept with
  | nil =>
    cases h
    rfl
  | cons c rest ih =>
    obtain ⟨next, found, -, hrest, rfl⟩ := outline_cons_eq_some.mp h
    rw [filter_keep, List.filter_cons, List.filter_cons, ih hrest]

/-! ## Templates -/

/-- A part of a template: markup, or a gap for a text. -/
inductive Slot where
  /-- Markup. -/
  | fixed (s : String)
  /-- A gap. -/
  | gap

/-- The part of a template that a piece belongs to. -/
def slot : Piece → Slot
  | .markup s => .fixed s
  | .value _ => .gap

/-- The text that a piece shows. -/
def shown? : Piece → Option String
  | .markup _ => none
  | .value s => some s

/-- Read from one region on to another one, characters are a template whose gaps are filled: each
gap with the escaped form of its text, and in the region that stands beside the text. -/
inductive Fills : Region → List Slot → List (Region × String) → List Char → Region → Prop
  /-- The template ends. -/
  | done (r : Region) : Fills r [] [] [] r
  /-- Markup stands as it is. -/
  | fixed {r m q : Region} {s : String} {slots : List Slot} {texts : List (Region × String)}
      {kept cs : List Char} : outline r s.toList = some (kept, m) → Fills m slots texts cs q →
      Fills r (.fixed s :: slots) texts (s.toList ++ cs) q
  /-- A gap, which is not in a tag, is filled. -/
  | gap {r q : Region} {s : String} {slots : List Slot} {texts : List (Region × String)}
      {cs : List Char} : r ≠ .tag → Fills r slots texts cs q →
      Fills r (.gap :: slots) ((r, s) :: texts) (Piece.escape s.toList ++ cs) q

theorem Fills.append {slots more : List Slot} {texts others : List (Region × String)}
    {cs ds : List Char} (h : Fills r slots texts cs m) (h' : Fills m more others ds q) :
    Fills r (slots ++ more) (texts ++ others) (cs ++ ds) q := by
  induction h with
  | done r => exact h'
  | fixed houtline _ ih =>
    rw [List.append_assoc]
    exact .fixed houtline (ih h')
  | gap hr _ ih =>
    rw [List.append_assoc]
    exact .gap hr (ih h')

/-- The regions of the gaps of a template, its outline, and the region in which it ends; none if a
gap is in a tag. -/
def survey : Region → List Slot → Option (List Region × List Char × Region)
  | r, [] => some ([], [], r)
  | r, .fixed s :: slots =>
    (outline r s.toList).bind fun first =>
      (survey first.2 slots).map fun found => (found.1, first.1 ++ found.2.1, found.2.2)
  | r, .gap :: slots =>
    if r = .tag then none
    else (survey r slots).map fun found => (r :: found.1, found.2)

/-- The regions of the texts that fill a template are those of its gaps. -/
theorem regions_of_fills {slots : List Slot} {texts : List (Region × String)} {cs : List Char}
    (h : Fills r slots texts cs q) : (survey r slots).map (·.1) = some (texts.map (·.1)) := by
  induction h with
  | done r => rfl
  | fixed houtline _ ih =>
    obtain ⟨found, hfound, hregions⟩ := Option.map_eq_some_iff.mp ih
    rw [survey, houtline, Option.bind_some, hfound]
    exact congrArg some hregions
  | gap hr _ ih =>
    obtain ⟨found, hfound, hregions⟩ := Option.map_eq_some_iff.mp ih
    rw [survey, if_neg hr, hfound]
    exact congrArg (fun regions => some (_ :: regions)) hregions

/-- No gap is in a tag. -/
theorem ne_tag_of_fills {slots : List Slot} {texts : List (Region × String)} {cs : List Char}
    (h : Fills r slots texts cs q) : ∀ text ∈ texts, text.1 ≠ .tag := by
  induction h with
  | done r => exact List.forall_mem_nil _
  | fixed _ _ ih => exact ih
  | gap hr _ ih => exact List.forall_mem_cons.mpr ⟨hr, ih⟩

/-- How the pieces of a page are read. -/
structure Reads (r : Region) (pieces : List Piece) (texts : List (Region × String))
    (kept : List Char) (q : Region) : Prop where
  /-- Their template is filled with the texts. -/
  fills : Fills r (pieces.map slot) texts (pieces.flatMap Piece.write) q
  /-- They leave an outline. -/
  outline : Markup.outline r (pieces.flatMap Piece.write) = some (kept, q)

variable {pieces others : List Piece} {texts more : List (Region × String)} {kept rest : List Char}

theorem reads_nil (r : Region) : Reads r [] [] [] r := ⟨.done r, rfl⟩

theorem reads_markup {s : String} (h : Markup.outline r s.toList = some (kept, q)) :
    Reads r [.markup s] [] kept q := by
  have hwrite : [Piece.markup s].flatMap Piece.write = s.toList := List.append_nil s.toList
  constructor
  · exact .fixed h (.done q)
  · rw [hwrite]
    exact h

/-- A value leaves nothing in the outline: it is escaped. -/
theorem reads_value (s : String) (hr : r ≠ .tag) : Reads r [.value s] [(r, s)] [] r := by
  have hwrite : [Piece.value s].flatMap Piece.write = Piece.escape s.toList :=
    List.append_nil (Piece.escape s.toList)
  constructor
  · exact .gap hr (.done r)
  · rw [hwrite]
    exact outline_of_not_mark hr fun _ hd => isMark_of_mem_escape hd

/-- Readings of two runs of pieces compose, as the first ends where the second begins. -/
theorem Reads.append (h : Reads r pieces texts kept m) (h' : Reads m others more rest q) :
    Reads r (pieces ++ others) (texts ++ more) (kept ++ rest) q := by
  constructor
  · rw [List.map_append, List.flatMap_append]
    exact h.fills.append h'.fills
  · rw [List.flatMap_append]
    exact outline_append h.outline h'.outline

/-- Blocks that begin and end in one region may follow each other. -/
theorem Reads.flatMap {α : Type} {xs : List α} {block : α → List Piece}
    {text : α → List (Region × String)} (h : ∀ x ∈ xs, Reads r (block x) (text x) kept r) :
    Reads r (xs.flatMap block) (xs.flatMap text) (List.replicate xs.length kept).flatten r := by
  induction xs with
  | nil => exact reads_nil r
  | cons x others ih =>
    obtain ⟨hx, hothers⟩ := List.forall_mem_cons.mp h
    exact hx.append (ih hothers)

/-- **Whatever texts fill it, a template is read as it was surveyed.** -/
theorem reads_of_survey {gaps : List Region}
    (h : survey r (pieces.map slot) = some (gaps, kept, q)) :
    Reads r pieces (gaps.zip (pieces.filterMap shown?)) kept q := by
  -- Piece by piece: a survey goes on where the outline of the piece before ended.
  induction pieces generalizing r gaps kept with
  | nil =>
    cases h
    exact reads_nil _
  | cons piece others ih =>
    cases piece with
    | markup s =>
      rw [List.map_cons, slot, survey] at h
      obtain ⟨⟨first, next⟩, hfirst, h⟩ := Option.bind_eq_some_iff.mp h
      obtain ⟨⟨regions, more, last⟩, hmore, h⟩ := Option.map_eq_some_iff.mp h
      cases h
      exact (reads_markup hfirst).append (ih hmore)
    | value s =>
      rw [List.map_cons, slot, survey] at h
      split at h
      · cases h
      · -- A value needs a region that can hold one.
        rename_i hr
        obtain ⟨⟨regions, more, last⟩, hmore, h⟩ := Option.map_eq_some_iff.mp h
        cases h
        exact (reads_value s hr).append (ih hmore)

end Markup

end KeywordCensus
