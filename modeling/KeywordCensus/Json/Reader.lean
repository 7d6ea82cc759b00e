import KeywordCensus.Json.Token

/-!
# Reading JSON documents

The tokens of a document drive a machine that holds the containers still open. A document is one
value with nothing after it, and no value may have more than `nestingLimit` containers open at
once. `readDocument` keeps every field as it is written; `read` gives the canonical value.
-/

namespace KeywordCensus.Json

/-- The greatest number of containers that may be open at once. -/
def nestingLimit : Nat := 127

/-- A container that waits for the value being read, what it already holds in reverse. -/
inductive Frame where
  /-- An array. -/
  | array (done : List Json)
  /-- An object, with the key of the value being read. -/
  | object (done : List (String × Json)) (key : String)

/-- What may come next. -/
inductive Expecting where
  /-- A value. -/
  | value
  /-- The first item of the innermost array, or its end. -/
  | itemOrEnd
  /-- The first key of an object, or its end. -/
  | keyOrEnd
  /-- A further key of an object that already holds fields. -/
  | key (done : List (String × Json))
  /-- The colon after a key. -/
  | colon (done : List (String × Json)) (key : String)
  /-- The rest of what surrounds a complete value. -/
  | after (value : Json)

/-- The state of the machine: the open containers, innermost first, and what may come next. -/
structure Reading where
  /-- The open containers. -/
  frames : List Frame
  /-- What may come next. -/
  expecting : Expecting

/-- Begin a value. -/
def beginValue (limit : Nat) (frames : List Frame) : Token → Option Reading
  | .scalar v => some ⟨frames, .after v⟩
  | .text s => some ⟨frames, .after (.text s)⟩
  | .openArray =>
    if frames.length < limit then some ⟨.array [] :: frames, .itemOrEnd⟩ else none
  | .openObject => if frames.length < limit then some ⟨frames, .keyOrEnd⟩ else none
  | _ => none

/-- Read one more token. -/
def readToken (limit : Nat) (s : Reading) (token : Token) : Option Reading :=
  match s.expecting, token with
  | .value, token => beginValue limit s.frames token
  | .itemOrEnd, .closeArray =>
    match s.frames with
    | .array done :: frames => some ⟨frames, .after (.array done.reverse)⟩
    | _ => none
  | .itemOrEnd, token => beginValue limit s.frames token
  | .keyOrEnd, .closeObject => some ⟨s.frames, .after (.object [])⟩
  | .keyOrEnd, .text k => some ⟨s.frames, .colon [] k⟩
  | .key done, .text k => some ⟨s.frames, .colon done k⟩
  | .colon done k, .colon => some ⟨.object done k :: s.frames, .value⟩
  | .after v, .comma =>
    match s.frames with
    | .array done :: frames => some ⟨.array (v :: done) :: frames, .value⟩
    | .object done k :: frames => some ⟨frames, .key ((k, v) :: done)⟩
    | [] => none
  | .after v, .closeArray =>
    match s.frames with
    | .array done :: frames => some ⟨frames, .after (.array (v :: done).reverse)⟩
    | _ => none
  | .after v, .closeObject =>
    match s.frames with
    | .object done k :: frames => some ⟨frames, .after (.object ((k, v) :: done).reverse)⟩
    | _ => none
  | _, _ => none

/-- The value that a finished reading has produced. -/
def finished? : Reading → Option Json
  | ⟨[], .after v⟩ => some v
  | _ => none

/-- The value of a document with at most `limit` containers open at once, its fields as they are
written. -/
def readDocumentWithin (limit : Nat) (cs : List Char) : Option Json := do
  let tokens ← Token.tokens cs
  let final ← tokens.foldlM (readToken limit) ⟨[], .value⟩
  finished? final

/-- The value of a document, its fields as they are written. -/
def readDocument (s : String) : Option Json := readDocumentWithin nestingLimit s.toList

/-- The canonical value of a document. -/
def read (s : String) : Option Json := (readDocument s).map canonical

end KeywordCensus.Json
