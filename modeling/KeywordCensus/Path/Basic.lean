import KeywordCensus.Text.Bytes
import KeywordCensus.Text.Split

/-!
# Paths

A path is its bytes, written as a text with one character for each; what it means is its list of
components: a root, names, and steps up or to the current directory. A text is read as the path of
its bytes, and a path is shown as the text that its bytes show; paths that are no texts may be shown
alike. Repeated and trailing slashes mean nothing, and a step to the current directory
is a component only at the very beginning. Joining and taking the parent work on the text and keep
its spelling.
-/

namespace KeywordCensus

/-- A path, kept as it is spelled. -/
structure Path where
  /-- The spelling, a character for each byte. -/
  text : String
  deriving DecidableEq, Repr, Inhabited

namespace Path

/-- The path that is spelled as a text. -/
def ofText (s : String) : Path := ⟨Text.toBytes s⟩

/-- The text that is shown for a path. -/
def shown (p : Path) : String := Text.ofBytes p.text

end Path

/-- One step of a path. -/
inductive Component where
  /-- Restart at the root. -/
  | root
  /-- Stay; only as the first component. -/
  | current
  /-- Go to the parent directory. -/
  | parent
  /-- Descend to a name. -/
  | name (s : String)
  deriving DecidableEq, Repr

namespace Component

/-- The component that a part between slashes stands for, if it is not the first one of a path. -/
def ofPart? (part : List Char) : Option Component :=
  if part = [] ∨ part = ['.'] then none
  else if part = ['.', '.'] then some .parent
  else some (.name (String.ofList part))

/-- The spelling of a component. -/
def text : Component → List Char
  | .root => ['/']
  | .current => ['.']
  | .parent => ['.', '.']
  | .name s => s.toList

/-- The name, if it is one. -/
def name? : Component → Option String
  | .name s => some s
  | _ => none

/-- Is this a name? -/
def isName (c : Component) : Bool := c.name?.isSome

end Component

namespace Path

/-- Does the path begin at the root? -/
def isAbsolute (p : Path) : Bool := p.text.toList.head? = some '/'

/-- Does the path end with a slash? -/
def endsWithSlash (p : Path) : Bool := p.text.toList.getLast? = some '/'

/-- The components of a path. -/
def components (p : Path) : List Component :=
  let parts := Text.splitOn '/' p.text.toList
  if p.isAbsolute then .root :: parts.filterMap Component.ofPart?
  else match parts with
    | ['.'] :: rest => .current :: rest.filterMap Component.ofPart?
    | parts => parts.filterMap Component.ofPart?

/-- Can a text be the name of an entry of a directory? -/
def IsName (text : String) : Prop := text ≠ "" ∧ text ≠ "." ∧ text ≠ ".." ∧ '/' ∉ text.toList

instance : DecidablePred IsName := fun text =>
  inferInstanceAs (Decidable (text ≠ "" ∧ text ≠ "." ∧ text ≠ ".." ∧ '/' ∉ text.toList))

/-- The parts of a path between its slashes, empty ones left out. -/
def segments (p : Path) : List String :=
  ((Text.splitOn '/' p.text.toList).filter (· ≠ [])).map String.ofList

/-- The path that is reached by following `q` from `p`. An absolute `q` replaces `p`, and an empty
one leaves a trailing slash. -/
def join (p q : Path) : Path :=
  if q.isAbsolute then q
  else if p.text.isEmpty || p.endsWithSlash then ⟨p.text ++ q.text⟩
  else ⟨p.text ++ "/" ++ q.text⟩

/-- The path of an entry of a directory. -/
def child (p : Path) (name : String) : Path := p.join ⟨name⟩

/-- The spelling of a list of components. -/
def render : List Component → List Char
  | .root :: rest => '/' :: Text.join '/' (rest.map Component.text)
  | components => Text.join '/' (components.map Component.text)

/-- The path with a given list of components. -/
def ofComponents (components : List Component) : Path := ⟨String.ofList (render components)⟩

/-- Drop the parts at the end, given in reverse, that stand for no component. -/
def dropSilentEnd (absolute : Bool) : List (List Char) → List (List Char)
  | [] => []
  | part :: before =>
    if part = [] ∨ (part = ['.'] ∧ (absolute ∨ before ≠ [])) then dropSilentEnd absolute before
    else part :: before

/-- The path without its last component, spelled as it stands; the empty path and the root have no
parent. -/
def parent? (p : Path) : Option Path :=
  let absolute := p.isAbsolute
  match dropSilentEnd absolute (Text.splitOn '/' p.text.toList).reverse with
  | [] => none
  | _ :: before =>
    match dropSilentEnd absolute before with
    | [] => some ⟨if absolute then "/" else ""⟩
    | kept => some ⟨String.ofList (Text.join '/' kept.reverse)⟩

/-- The last component, if it is a name. -/
def fileName? (p : Path) : Option String := p.components.getLast?.bind Component.name?

/-- What follows the last point of a name, if that point is not its first character. -/
def extensionOf? (name : String) : Option String :=
  let reversed := name.toList.reverse
  match Text.cutOnce '.' reversed with
  | none => none
  | some (after, before) => if before.isEmpty then none else some (String.ofList after.reverse)

/-- The extension of the last component. -/
def extension? (p : Path) : Option String := p.fileName?.bind extensionOf?

/-- The extension of Essence specifications. -/
def essenceExtension : String := "essence"

/-- Does the path name an Essence specification? -/
def isEssence (p : Path) : Bool := p.extension? = some essenceExtension

example : (Path.mk "a//b/./c/").components = [.name "a", .name "b", .name "c"] := by
  decide +kernel

example : (Path.mk "./a").components = [.current, .name "a"] := by decide +kernel

example : (Path.mk "f//x/./m/").parent? = some ⟨"f//x"⟩ := by decide +kernel

example : (Path.mk "c/").child "x" = ⟨"c/x"⟩ := by decide +kernel

example : (Path.mk ".essence").isEssence = false := by decide +kernel

end Path

end KeywordCensus
