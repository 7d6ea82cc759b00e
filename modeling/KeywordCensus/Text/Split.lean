/-!
# Cutting text at a separator

`splitOn` cuts a list of characters at every occurrence of one character and always gives at least
one part; `join` is its inverse (`join_splitOn`). `cutOnce` cuts at the first occurrence only.
Lines are cut at newlines, and the empty rest after a final newline is no line.
-/

namespace KeywordCensus.Text

/-- The parts between the occurrences of `sep`. -/
def splitOn (sep : Char) : List Char → List (List Char)
  | [] => [[]]
  | c :: rest =>
    if c = sep then [] :: splitOn sep rest
    else match splitOn sep rest with
      | [] => [[c]]
      | part :: parts => (c :: part) :: parts

/-- The parts with one `sep` between neighbours. -/
def join (sep : Char) : List (List Char) → List Char
  | [] => []
  | [part] => part
  | part :: parts => part ++ sep :: join sep parts

theorem splitOn_ne_nil (sep : Char) (cs : List Char) : splitOn sep cs ≠ [] := by
  induction cs with
  | nil => simp [splitOn]
  | cons c rest ih =>
    unfold splitOn
    split
    · simp
    · split <;> simp

/-- Cutting loses nothing. -/
theorem join_splitOn (sep : Char) (cs : List Char) : join sep (splitOn sep cs) = cs := by
  induction cs with
  | nil => rfl
  | cons c rest ih =>
    unfold splitOn
    split
    · rename_i hc
      cases hs : splitOn sep rest with
      | nil => exact absurd hs (splitOn_ne_nil sep rest)
      | cons part parts => simp [join, ← hs, ih, hc]
    · cases hs : splitOn sep rest with
      | nil => exact absurd hs (splitOn_ne_nil sep rest)
      | cons part parts =>
        rw [hs] at ih
        cases parts <;> simpa [join] using ih

/-- No part holds the separator. -/
theorem not_mem_of_mem_splitOn {sep : Char} {cs : List Char} :
    ∀ part ∈ splitOn sep cs, sep ∉ part := by
  induction cs with
  | nil => simp [splitOn]
  | cons c rest ih =>
    unfold splitOn
    split
    · intro part hpart
      rcases List.mem_cons.1 hpart with rfl | hpart
      · simp
      · exact ih part hpart
    · rename_i hc
      cases hs : splitOn sep rest with
      | nil => exact absurd hs (splitOn_ne_nil sep rest)
      | cons head parts =>
        rw [hs] at ih
        intro part hpart
        rcases List.mem_cons.1 hpart with rfl | hpart
        · simpa [Ne.symm hc] using ih head (List.mem_cons_self ..)
        · exact ih part (List.mem_cons_of_mem _ hpart)

/-- What stands before and after the first occurrence of `sep`, if there is one. -/
def cutOnce (sep : Char) : List Char → Option (List Char × List Char)
  | [] => none
  | c :: rest =>
    if c = sep then some ([], rest)
    else (cutOnce sep rest).map fun p => (c :: p.1, p.2)

/-- What stands before and after the first occurrence of the text `sep`, if there is one. -/
def cutAt (sep : List Char) : List Char → Option (List Char × List Char)
  | [] => if sep.isEmpty then some ([], []) else none
  | c :: rest =>
    if sep.isPrefixOf (c :: rest) then some ([], (c :: rest).drop sep.length)
    else (cutAt sep rest).map fun p => (c :: p.1, p.2)

/-- The rest after a given start. -/
def afterStart? (start : List Char) (cs : List Char) : Option (List Char) :=
  if start.isPrefixOf cs then some (cs.drop start.length) else none

/-- The part before a given end. -/
def beforeEnd? (ending : List Char) (cs : List Char) : Option (List Char) :=
  if ending.isSuffixOf cs then some (cs.take (cs.length - ending.length)) else none

/-- The lines of a text: the parts between newlines, without the empty rest after a final one. -/
def lines (cs : List Char) : List (List Char) :=
  match (splitOn '\n' cs).reverse with
  | [] :: before => before.reverse
  | parts => parts.reverse

/-- How many lines a text has: its newlines, and one more if it does not end with a newline. -/
def countLines (cs : List Char) : Nat := (lines cs).length

example : countLines "a\nb\n".toList = 2 := by decide

example : countLines "a\n\nb".toList = 3 := by decide

example : countLines [] = 0 := by decide

end KeywordCensus.Text
