import KeywordCensus.Pattern.Basic
import KeywordCensus.Power
import KeywordCensus.Text.Blank
import KeywordCensus.Text.Digit

/-!
# Reading patterns

The text of a pattern is first cut into signs: characters and sets, the marks for the two ends of a
text, parentheses, bars and repetitions. The signs then build the pattern up, with the groups still
open on a stack. Whether a repetition prefers few or many makes no difference to what is found.
-/

namespace KeywordCensus.Pattern

/-- A sign of the text of a pattern. -/
inductive Sign where
  /-- A pattern of its own. -/
  | atom (p : Pattern)
  /-- An opening parenthesis. -/
  | openGroup
  /-- A closing parenthesis. -/
  | closeGroup
  /-- A bar. -/
  | bar
  /-- A repetition of what stands before. -/
  | repetition (least : Nat) (most : Option Nat)

/-- The set of one character. -/
def single (c : Char) : CharSet := ⟨[(c, c)], [], false⟩

/-- Every character but a line feed. -/
def anyButNewline : CharSet := ⟨[('\n', '\n')], [], true⟩

/-- What an escape stands for. -/
inductive Escape where
  /-- One character. -/
  | char (c : Char)
  /-- A class of characters. -/
  | set (has : Char → Bool)

/-- What the character after a backslash stands for: classes and control characters have letters,
and every other ASCII character that is no letter, digit or angle bracket stands for itself. -/
def escape? (c : Char) : Option Escape :=
  if c = 'd' then some (.set Text.isDecimalDigit)
  else if c = 'D' then some (.set fun x => !Text.isDecimalDigit x)
  else if c = 's' then some (.set Text.isBlank)
  else if c = 'S' then some (.set fun x => !Text.isBlank x)
  else if c = 'n' then some (.char '\n')
  else if c = 'r' then some (.char '\r')
  else if c = 't' then some (.char '\t')
  else if c = 'a' then some (.char (Char.ofNat 7))
  else if c = 'f' then some (.char (Char.ofNat 12))
  else if c = 'v' then some (.char (Char.ofNat 11))
  else if c.toNat < 128 && !c.isAlphanum && c != '<' && c != '>' then some (.char c)
  else none

/-- Add one character, a range or a class to a set. -/
def CharSet.addRange (s : CharSet) (a b : Char) : CharSet := { s with ranges := (a, b) :: s.ranges }

/-- Add a class to a set. -/
def CharSet.addClass (s : CharSet) (f : Char → Bool) : CharSet :=
  { s with classes := f :: s.classes }

/-- Read one item of a bracket: a character or an escape. -/
def bracketItem? : List Char → Option (Escape × List Char)
  | '\\' :: c :: rest => (escape? c).map fun e => (e, rest)
  | ['\\'] => none
  | c :: rest => some (.char c, rest)
  | [] => none

/-- Read the items of a bracket up to its end, for a text of less than so many characters. A hyphen
between two characters makes a range; before the end of the bracket it stands for itself. -/
def bracketItems? : Nat → CharSet → List Char → Option (CharSet × List Char)
  | 0, _, _ => none
  | _, _, [] => none
  | _, s, ']' :: rest => some (s, rest)
  | _, _, '[' :: _ => none
  | fuel + 1, s, cs =>
    match bracketItem? cs with
    | none => none
    | some (.set f, rest) =>
      match rest with
      | '-' :: c :: _ => if c = ']' then bracketItems? fuel (CharSet.addClass s f) rest else none
      | _ => bracketItems? fuel (CharSet.addClass s f) rest
    | some (.char a, rest) =>
      match rest with
      | '-' :: c :: after =>
        if c = ']' then bracketItems? fuel (CharSet.addRange s a a) rest
        else match bracketItem? (c :: after) with
          | some (.char b, rest) =>
            if a ≤ b then bracketItems? fuel (CharSet.addRange s a b) rest else none
          | _ => none
      | _ => bracketItems? fuel (CharSet.addRange s a a) rest

/-- Read a bracket after its opening: hyphens and a closing bracket at the very beginning stand for
themselves. -/
def bracket? (cs : List Char) : Option (CharSet × List Char) :=
  let (negated, cs) := match cs with
    | '^' :: rest => (true, rest)
    | cs => (false, cs)
  let hyphens := cs.takeWhile (· = '-')
  let cs := cs.dropWhile (· = '-')
  let set : CharSet := ⟨if hyphens.isEmpty then [] else [('-', '-')], [], negated⟩
  match hyphens, cs with
  | [], ']' :: rest => bracketItems? (rest.length + 1) (CharSet.addRange set ']' ']') rest
  | _, cs => bracketItems? (cs.length + 1) set cs

/-- Read a count with blanks around it. -/
def count? (cs : List Char) : Option (Nat × List Char) :=
  let cs := cs.dropWhile Text.isBlank
  let digits := cs.takeWhile Char.isDigit
  if digits.isEmpty then none
  else
    let n := digits.foldl (fun n c => n * 10 + (c.toNat - '0'.toNat)) 0
    if n < twoPow 32 then some (n, (cs.dropWhile Char.isDigit).dropWhile Text.isBlank) else none

/-- Read a counted repetition after its opening brace. -/
def counted? (cs : List Char) : Option (Sign × List Char) :=
  match count? cs with
  | none => none
  | some (least, '\x7d' :: rest) => some (.repetition least (some least), rest)
  | some (least, ',' :: '\x7d' :: rest) => some (.repetition least none, rest)
  | some (least, ',' :: rest) =>
    match count? rest with
    | some (most, '\x7d' :: rest) =>
      if least ≤ most then some (.repetition least (some most), rest) else none
    | _ => none
  | _ => none

/-- Drop the mark of a repetition that prefers few. -/
def dropLazy : Sign × List Char → Sign × List Char
  | (sign, '?' :: rest) => (sign, rest)
  | pair => pair

/-- Read one sign. -/
def sign? : List Char → Option (Sign × List Char)
  | [] => none
  | '\\' :: 'A' :: rest => some (.atom .start, rest)
  | '\\' :: 'z' :: rest => some (.atom .finish, rest)
  | '\\' :: c :: rest =>
    match escape? c with
    | some (.char c) => some (.atom (.one (single c)), rest)
    | some (.set f) => some (.atom (.one ⟨[], [f], false⟩), rest)
    | none => none
  | ['\\'] => none
  | '[' :: rest => (bracket? rest).map fun r => (.atom (.one r.1), r.2)
  | '(' :: '?' :: ':' :: rest => some (.openGroup, rest)
  | '(' :: '?' :: _ => none
  | '(' :: rest => some (.openGroup, rest)
  | ')' :: rest => some (.closeGroup, rest)
  | '|' :: rest => some (.bar, rest)
  | '*' :: rest => some (dropLazy (.repetition 0 none, rest))
  | '+' :: rest => some (dropLazy (.repetition 1 none, rest))
  | '?' :: rest => some (dropLazy (.repetition 0 (some 1), rest))
  | '\x7b' :: rest => (counted? rest).map dropLazy
  | '^' :: rest => some (.atom .start, rest)
  | '$' :: rest => some (.atom .finish, rest)
  | '.' :: rest => some (.atom (.one anyButNewline), rest)
  | c :: rest => some (.atom (.one (single c)), rest)

/-- Cut a text of less than so many characters into signs. -/
def signs? : Nat → List Char → Option (List Sign)
  | _, [] => some []
  | 0, _ => none
  | fuel + 1, cs =>
    match sign? cs with
    | none => none
    | some (sign, rest) => (signs? fuel rest).map (sign :: ·)

/-- A group under construction. -/
structure Group where
  /-- The branches that are complete, if there is one. -/
  branches : Option Pattern
  /-- The parts of the current branch, the last one first. -/
  parts : List Pattern

namespace Group

/-- A group without anything. -/
def empty : Group := ⟨none, []⟩

/-- The current branch. -/
def branch (g : Group) : Pattern := g.parts.foldl (fun after p => .both p after) .nothing

/-- The pattern of the group. -/
def toPattern (g : Group) : Pattern :=
  match g.branches with
  | none => g.branch
  | some p => .either p g.branch

end Group

/-- Take one more sign into account: the innermost group and those around it. -/
def addSign : Group × List Group → Sign → Option (Group × List Group)
  | (g, outer), .atom p => some ({ g with parts := p :: g.parts }, outer)
  | (g, outer), .openGroup => some (.empty, g :: outer)
  | (g, outer), .closeGroup =>
    match outer with
    | [] => none
    | around :: outer => some ({ around with parts := g.toPattern :: around.parts }, outer)
  | (g, outer), .bar => some (⟨some g.toPattern, []⟩, outer)
  | (g, outer), .repetition least most =>
    match g.parts with
    | [] => none
    | p :: before => some ({ g with parts := .times p least most :: before }, outer)

/-- Read a pattern. -/
def ofText? (text : String) : Option Pattern := do
  let cs := text.toList
  let signs ← signs? (cs.length + 1) cs
  match ← signs.foldlM addSign (Group.empty, []) with
  | (g, []) => some g.toPattern
  | _ => none

/-- What the text of an error says about a pattern that is refused: it names no place. -/
def refusal : String := "BADREGEX"

end KeywordCensus.Pattern
