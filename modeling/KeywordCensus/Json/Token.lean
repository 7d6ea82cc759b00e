import KeywordCensus.Json.Numeral
import KeywordCensus.Json.Quoted

/-!
# Tokens of JSON documents

A document is first cut into tokens: punctuation, the three words, numerals and quoted texts.
`tokens` reads character by character, keeping what has been read of the token at hand; a word or a
numeral ends at the first character that cannot continue it.
-/

namespace KeywordCensus

/-- A token of a JSON document. -/
inductive Token where
  /-- An opening bracket. -/
  | openArray
  /-- A closing bracket. -/
  | closeArray
  /-- An opening brace. -/
  | openObject
  /-- A closing brace. -/
  | closeObject
  /-- A comma. -/
  | comma
  /-- A colon. -/
  | colon
  /-- A value that is neither a container nor a text. -/
  | scalar (value : Json)
  /-- A quoted text. -/
  | text (s : String)

namespace Token

/-- The token at hand, its characters in reverse. -/
inductive Partial where
  /-- No token has begun. -/
  | between
  /-- A run of letters. -/
  | word (letters : List Char)
  /-- A run of characters of a numeral. -/
  | numeral (characters : List Char)
  /-- A text after its opening quote. -/
  | quoted (done : List Char) (pending : Quoted.Pending)

/-- The tokens read so far, in reverse, and the one at hand. -/
structure Lexing where
  /-- Complete tokens, the last one first. -/
  done : List Token
  /-- The token at hand. -/
  current : Partial

/-- The blanks between tokens. -/
def isSpace (c : Char) : Bool := c = ' ' || c = '\t' || c = '\n' || c = '\r'

/-- The characters that continue a numeral. -/
def continuesNumeral (c : Char) : Bool :=
  c.isDigit || c = '.' || c = '-' || c = '+' || c = 'e' || c = 'E'

/-- The token of a punctuation character. -/
def punctuation? (c : Char) : Option Token :=
  if c = '[' then some .openArray
  else if c = ']' then some .closeArray
  else if c = '\x7b' then some .openObject
  else if c = '\x7d' then some .closeObject
  else if c = ',' then some .comma
  else if c = ':' then some .colon
  else none

/-- The value of a word. -/
def word? (letters : List Char) : Option Json :=
  if letters = ['n', 'u', 'l', 'l'] then some .null
  else if letters = ['t', 'r', 'u', 'e'] then some (.bool true)
  else if letters = ['f', 'a', 'l', 's', 'e'] then some (.bool false)
  else none

/-- Read a character that begins a token or separates two. -/
def begin? (done : List Token) (c : Char) : Option Lexing :=
  match punctuation? c with
  | some token => some ⟨token :: done, .between⟩
  | none =>
    if isSpace c then some ⟨done, .between⟩
    else if c = '"' then some ⟨done, .quoted [] .nothing⟩
    else if c.isDigit || c = '-' then some ⟨done, .numeral [c]⟩
    else if c.isLower then some ⟨done, .word [c]⟩
    else none

/-- Complete a word or a numeral. -/
def complete? : Lexing → Option (List Token)
  | ⟨done, .between⟩ => some done
  | ⟨done, .word letters⟩ => (word? letters.reverse).map fun v => .scalar v :: done
  | ⟨done, .numeral characters⟩ =>
    (Numeral.read characters.reverse).map fun n => .scalar (.number n) :: done
  | ⟨_, .quoted _ _⟩ => none

/-- Read one more character. -/
def lexChar (s : Lexing) (c : Char) : Option Lexing :=
  match s.current with
  | .between => begin? s.done c
  | .word letters =>
    if c.isLower then some ⟨s.done, .word (c :: letters)⟩
    else (complete? s).bind (begin? · c)
  | .numeral characters =>
    if continuesNumeral c then some ⟨s.done, .numeral (c :: characters)⟩
    else (complete? s).bind (begin? · c)
  | .quoted done pending =>
    if c = '"' ∧ pending = .nothing then
      some ⟨.text (String.ofList done.reverse) :: s.done, .between⟩
    else (Quoted.advance pending c).map fun r => ⟨s.done, .quoted (r.1 ++ done) r.2⟩

/-- The tokens of a document. -/
def tokens (cs : List Char) : Option (List Token) :=
  ((cs.foldlM lexChar ⟨[], .between⟩).bind complete?).map List.reverse

end Token

end KeywordCensus
