import KeywordCensus.Floating.Basic
import KeywordCensus.SortedMap

/-!
# JSON values

A JSON value with the fields of an object in a list, so that the order in which they are written is
part of the value. A value is *canonical* when every object lists its fields in strictly increasing
key order; `Json.canonical` brings a value into that form, the last of several fields with one key
winning.
-/

namespace KeywordCensus

/-- A number of a JSON document: whole, or binary floating-point. -/
inductive JsonNumber where
  /-- A whole number. -/
  | whole (n : Int)
  /-- A double-precision number. -/
  | floating (x : Floating)
  deriving DecidableEq, Repr, Inhabited

/-- A JSON value. -/
inductive Json where
  /-- The null value. -/
  | null
  /-- A truth value. -/
  | bool (b : Bool)
  /-- A number. -/
  | number (n : JsonNumber)
  /-- A text. -/
  | text (s : String)
  /-- A list of values. -/
  | array (items : List Json)
  /-- Named values, in the order in which they are written. -/
  | object (fields : List (String × Json))
  deriving Repr, Inhabited

namespace Json

/-- A natural number as a value. -/
def ofNat (n : Nat) : Json := .number (.whole n)

/-- A text or null. -/
def ofText? : Option String → Json
  | none => .null
  | some s => .text s

/-- A natural number or null. -/
def ofNat? : Option Nat → Json
  | none => .null
  | some n => .ofNat n

/-- A map as an object, its fields in key order. -/
def ofMap {α : Type} (toJson : α → Json) (m : SortedMap α) : Json :=
  .object (m.entries.map fun e => (e.1, toJson e.2))

/-- The value of a field of an object. -/
def field? (name : String) : Json → Option Json
  | .object fields => (fields.find? fun e => e.1 == name).map (·.2)
  | _ => none

mutual

/-- How many values a value consists of, itself included. -/
def size : Json → Nat
  | .array items => 1 + sizeItems items
  | .object fields => 1 + sizeFields fields
  | _ => 1

/-- How many values a list of values consists of. -/
def sizeItems : List Json → Nat
  | [] => 0
  | item :: rest => size item + sizeItems rest

/-- How many values the fields of an object consist of. -/
def sizeFields : List (String × Json) → Nat
  | [] => 0
  | (_, value) :: rest => size value + sizeFields rest

end

mutual

/-- How many containers are open at the deepest place of a value. -/
def depth : Json → Nat
  | .array items => 1 + depthItems items
  | .object fields => 1 + depthFields fields
  | _ => 0

/-- The greatest depth in a list of values. -/
def depthItems : List Json → Nat
  | [] => 0
  | item :: rest => max (depth item) (depthItems rest)

/-- The greatest depth among the fields of an object. -/
def depthFields : List (String × Json) → Nat
  | [] => 0
  | (_, value) :: rest => max (depth value) (depthFields rest)

end

mutual

/-- The value with the fields of every object in key order, the last of several with one key
winning. -/
def canonical : Json → Json
  | .array items => .array (canonicalItems items)
  | .object fields => .object (SortedMap.ofList (canonicalFields fields)).entries
  | value => value

/-- Each value of a list in canonical form. -/
def canonicalItems : List Json → List Json
  | [] => []
  | item :: rest => canonical item :: canonicalItems rest

/-- Each field in canonical form. -/
def canonicalFields : List (String × Json) → List (String × Json)
  | [] => []
  | (key, value) :: rest => (key, canonical value) :: canonicalFields rest

end

@[simp] theorem size_pos (v : Json) : 0 < v.size := by
  cases v <;> simp only [size] <;> omega

@[simp] theorem sizeItems_append (xs ys : List Json) :
    sizeItems (xs ++ ys) = sizeItems xs + sizeItems ys := by
  induction xs with
  | nil => simp [sizeItems]
  | cons x rest ih => simp [sizeItems, ih, Nat.add_assoc]

@[simp] theorem sizeItems_reverse (xs : List Json) : sizeItems xs.reverse = sizeItems xs := by
  induction xs with
  | nil => rfl
  | cons x rest ih => simp [sizeItems, ih, Nat.add_comm]

@[simp] theorem sizeItems_map_snd (fields : List (String × Json)) :
    sizeItems (fields.map (·.2)) = sizeFields fields := by
  induction fields with
  | nil => rfl
  | cons e rest ih =>
    obtain ⟨key, value⟩ := e
    simp [sizeItems, sizeFields, ih]

end Json

end KeywordCensus
