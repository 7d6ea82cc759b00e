import KeywordCensus.Path.Basic

/-!
# Normal and trimmed paths

`normalize` drops the steps to the current directory and lets a step up cancel the component before
it. `trim` keeps the last names of a normal path. Beside them stands `climb`, which follows
components from a directory: the lexical meaning of a path.
-/

namespace KeywordCensus.Path

/-- Take one component over into a normal form, whose components stand in reverse. A step up removes
the component before it, whatever that is, and stays only where there is nothing to remove. -/
def normalStep (done : List Component) : Component → List Component
  | .current => done
  | .parent =>
    match done with
    | .name _ :: before => before
    | .parent :: before => before
    | _ => .parent :: done
  | c => c :: done

/-- The components of the normal form. -/
def normalComponents (components : List Component) : List Component :=
  (components.foldl normalStep []).reverse

/-- The normal form of a path. -/
def normalize (p : Path) : Path := ofComponents (normalComponents p.components)

/-- The last `depth` names of the normal form, or all of it if it has no more names than that or
`depth` is zero. -/
def trim (p : Path) (depth : Nat) : Path :=
  let normal := normalComponents p.components
  let names := normal.filter Component.isName
  if depth = 0 ∨ names.length ≤ depth then ofComponents normal
  else ofComponents (names.drop (names.length - depth))

/-- The directory, as the names from the root in reverse, that components lead to from another one.
A step up from the root stays there. -/
def climb (start : List String) (components : List Component) : List String :=
  components.foldl (fun at_ c => match c with
    | .root => []
    | .current => at_
    | .parent => at_.drop 1
    | .name s => s :: at_) start

example : (Path.mk "/a/./b/../c").normalize = ⟨"/a/c"⟩ := by decide +kernel

example : (Path.mk "/..").normalize = ⟨"/.."⟩ := by decide +kernel

example : (Path.mk "../..").normalize = ⟨""⟩ := by decide +kernel

example : (Path.mk "/x/y/z").trim 2 = ⟨"y/z"⟩ := by decide +kernel

end KeywordCensus.Path
