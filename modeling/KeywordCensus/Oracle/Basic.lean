import KeywordCensus.Json.Basic
import KeywordCensus.Oracle.Version
import KeywordCensus.Path.Basic

/-!
# The parser of specifications

A census does not parse specifications itself; it asks an oracle, which answers a path with a syntax
tree or with an error.
-/

namespace KeywordCensus

/-- A length of time in milliseconds. -/
structure Span where
  /-- The milliseconds. -/
  milliseconds : Nat
  deriving DecidableEq, Repr, Inhabited

namespace Span

/-- A number of seconds. -/
def ofSeconds (n : Nat) : Span := ⟨n * 1000⟩

/-- The whole seconds. -/
def seconds (d : Span) : Nat := d.milliseconds / 1000

/-- The digits of the milliseconds below a second, without trailing zeros. -/
def fractionDigits (n : Nat) : List Char :=
  let digits := Nat.toDigits 10 (1000 + n % 1000)
  ((digits.drop 1).reverse.dropWhile (· = '0')).reverse

/-- The text of a span: seconds with as many places as needed from one second on, milliseconds
below, and nothing as nanoseconds. -/
def text (d : Span) : String :=
  if d.milliseconds = 0 then "0ns"
  else if d.milliseconds < 1000 then s!"{d.milliseconds}ms"
  else
    let fraction := fractionDigits d.milliseconds
    if fraction.isEmpty then s!"{d.seconds}s"
    else s!"{d.seconds}.{String.ofList fraction}s"

end Span

/-- Why the parser gives no answer. -/
inductive OracleError where
  /-- It cannot be run, or its output cannot be read. -/
  | notRun (binary : Path) (reason : String)
  /-- It ran and reported a failure. -/
  | rejected (status stderr : String)
  /-- It printed something that is no JSON document. -/
  | malformed (detail : String)
  /-- It did not finish in time. -/
  | timeout (limit : Span)
  /-- The moment at which it would have run out of time lies beyond the clock, and the whole run
  breaks off. -/
  | clockOverflow
  deriving DecidableEq, Repr

/-- The text of an error. -/
def OracleError.message : OracleError → String
  | .notRun binary reason => s!"failed to run {binary.shown}: {reason}"
  | .rejected status stderr => s!"oracle exited with {status}: {stderr}"
  | .malformed detail => s!"oracle output is not valid JSON: {detail}"
  | .timeout limit => s!"oracle did not finish within {limit.text}"
  | .clockOverflow => "overflow when adding duration to instant"

/-- What the text of an error says about a document that is refused: it names no place. -/
def Json.refusal : String := "MALFORMED"

/-- A parser of specifications. -/
structure Oracle where
  /-- The syntax tree of the file at a path. -/
  parse : Path → Except OracleError Json
  /-- What the parser says about its version. -/
  version : Except OracleError VersionInfo

end KeywordCensus
