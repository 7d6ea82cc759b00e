/-!
# Patterns

A pattern describes a set of texts. `reach` follows a pattern through a text: from a set of
positions to the set of positions at which a match that begins at one of them can end. A text
contains a match if a match beginning anywhere ends somewhere.
-/

namespace KeywordCensus

/-- A set of characters: those between the two ends of one of the ranges, or all others. -/
structure CharSet where
  /-- Least and greatest character of each range. -/
  ranges : List (Char × Char)
  /-- Further sets that belong to it. -/
  classes : List (Char → Bool)
  /-- Is the set everything else instead? -/
  negated : Bool

/-- Does the character belong to the set? -/
def CharSet.has (s : CharSet) (c : Char) : Bool :=
  (s.ranges.any (fun r => r.1 ≤ c && c ≤ r.2) || s.classes.any fun f => f c) != s.negated

/-- A pattern. -/
inductive Pattern where
  /-- The empty text. -/
  | nothing
  /-- One character of a set. -/
  | one (set : CharSet)
  /-- The beginning of the whole text. -/
  | start
  /-- The end of the whole text. -/
  | finish
  /-- One pattern and then another. -/
  | both (first second : Pattern)
  /-- One of two patterns. -/
  | either (first second : Pattern)
  /-- A pattern several times, at least `least` and, if given, at most `most` times. -/
  | times (body : Pattern) (least : Nat) (most : Option Nat)

namespace Pattern

/-- All positions of two lists, those of the first one first. -/
def union (xs ys : List Nat) : List Nat := xs ++ ys.filter fun y => !xs.contains y

/-- Apply a step so many times. -/
def iterate (step : List Nat → List Nat) : Nat → List Nat → List Nat
  | 0, positions => positions
  | n + 1, positions => if positions.isEmpty then [] else iterate step n (step positions)

/-- All positions reached by at most so many steps. -/
def upTo (step : List Nat → List Nat) : Nat → List Nat → List Nat → List Nat
  | 0, reached, _ => reached
  | n + 1, reached, fresh =>
    let next := (step fresh).filter fun y => !reached.contains y
    if next.isEmpty then reached else upTo step n (union reached next) next

/-- Where a match can end that begins at one of some positions. -/
def reach (text : Array Char) : Pattern → List Nat → List Nat
  | .nothing, positions => positions
  | .one set, positions =>
    positions.filterMap fun i => match text[i]? with
      | some c => if set.has c then some (i + 1) else none
      | none => none
  | .start, positions => positions.filter (· = 0)
  | .finish, positions => positions.filter (· = text.size)
  | .both p q, positions => reach text q (reach text p positions)
  | .either p q, positions => union (reach text p positions) (reach text q positions)
  | .times p least most, positions =>
    let first := iterate (reach text p) least positions
    upTo (reach text p) (match most with | some n => n - least | none => text.size + 1) first first

/-- Does the text contain a match? -/
def isIn (p : Pattern) (text : String) : Bool :=
  let chars := text.toList.toArray
  !(p.reach chars (List.range (chars.size + 1))).isEmpty

end Pattern

end KeywordCensus
