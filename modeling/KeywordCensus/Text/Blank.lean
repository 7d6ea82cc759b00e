/-!
# Blank characters

The characters with the Unicode property `White_Space`, and the operations on text that turn on
them: trimming both ends and cutting into words.
-/

namespace KeywordCensus.Text

/-- The code points with the property `White_Space`: tab to carriage return, space, next line,
no-break space, Ogham space mark, the quads and spaces from U+2000, line and paragraph separator,
narrow no-break space, medium mathematical space and ideographic space. -/
def isBlank (c : Char) : Bool :=
  let n := c.toNat
  (0x09 ≤ n && n ≤ 0x0D) || n == 0x20 || n == 0x85 || n == 0xA0 || n == 0x1680 ||
    (0x2000 ≤ n && n ≤ 0x200A) || n == 0x2028 || n == 0x2029 || n == 0x202F || n == 0x205F ||
    n == 0x3000

/-- Drop the blanks at the end of a list of characters. -/
def trimEnd (cs : List Char) : List Char := (cs.reverse.dropWhile isBlank).reverse

/-- Drop the blanks at both ends of a list of characters. -/
def trimChars (cs : List Char) : List Char := trimEnd (cs.dropWhile isBlank)

/-- Drop the blanks at both ends of a text. -/
def trim (s : String) : String := String.ofList (trimChars s.toList)

/-- Is the text empty or all blank? -/
def isBlankText (s : String) : Bool := s.toList.all isBlank

/-- The first maximal run of characters that are not blank, if there is one. -/
def firstWord? (s : String) : Option String :=
  match (s.toList.dropWhile isBlank).takeWhile (fun c => !isBlank c) with
  | [] => none
  | word => some (String.ofList word)

@[simp] theorem trimChars_nil : trimChars [] = [] := rfl

example : trim "\u00a0 x y\u3000\n" = "x y" := by decide

example : firstWord? "  abc (x)" = some "abc" := by decide

end KeywordCensus.Text
