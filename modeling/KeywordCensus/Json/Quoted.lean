import KeywordCensus.Text.Split

/-!
# Texts inside quotes

How a JSON document writes the characters of a text between its quotes: quote, backslash and
control characters are escaped, everything else stands for itself. Reading goes character by
character: `advance` accepts every escape of the format, and `unescape_escape` says that reading
undoes `escape`.
-/

namespace KeywordCensus.Quoted

/-- A hexadecimal digit, letters in lower case. -/
def hexDigit (n : Nat) : Char :=
  if n < 10 then Char.ofNat ('0'.toNat + n) else Char.ofNat ('a'.toNat + (n - 10))

/-- The value of a hexadecimal digit. -/
def hexValue? (c : Char) : Option Nat :=
  if c.isDigit then some (c.toNat - '0'.toNat)
  else if 'a' ≤ c ∧ c ≤ 'f' then some (c.toNat - 'a'.toNat + 10)
  else if 'A' ≤ c ∧ c ≤ 'F' then some (c.toNat - 'A'.toNat + 10)
  else none

/-- The written form of one character. -/
def escapeChar (c : Char) : List Char :=
  if c = '"' then ['\\', '"']
  else if c = '\\' then ['\\', '\\']
  else if c = '\n' then ['\\', 'n']
  else if c = '\r' then ['\\', 'r']
  else if c = '\t' then ['\\', 't']
  else if c.toNat = 8 then ['\\', 'b']
  else if c.toNat = 12 then ['\\', 'f']
  else if c.toNat < 32 then ['\\', 'u', '0', '0', hexDigit (c.toNat / 16), hexDigit (c.toNat % 16)]
  else [c]

/-- The written form of a text, without its quotes. -/
def escape (cs : List Char) : List Char := cs.flatMap escapeChar

/-- The written form of a text with its quotes. -/
def quote (s : String) : List Char := '"' :: escape s.toList ++ ['"']

/-- The character of a two-character escape. -/
def shortEscape? (c : Char) : Option Char :=
  if c = '"' then some '"'
  else if c = '\\' then some '\\'
  else if c = '/' then some '/'
  else if c = 'b' then some (Char.ofNat 8)
  else if c = 'f' then some (Char.ofNat 12)
  else if c = 'n' then some '\n'
  else if c = 'r' then some '\r'
  else if c = 't' then some '\t'
  else none

/-- Is this the first unit of a surrogate pair? -/
def isHighSurrogate (n : Nat) : Bool := 0xD800 ≤ n && n ≤ 0xDBFF

/-- Is this the second unit of a surrogate pair? -/
def isLowSurrogate (n : Nat) : Bool := 0xDC00 ≤ n && n ≤ 0xDFFF

/-- What part of an escape has been read. -/
inductive Pending where
  /-- Nothing: the next character stands for itself or begins an escape. -/
  | nothing
  /-- A backslash. -/
  | backslash
  /-- So many digits of a unit with their value so far, perhaps after a first surrogate. -/
  | unit (high : Option Nat) (digits : Nat) (value : Nat)
  /-- A first surrogate, whose partner must follow. -/
  | partner (high : Nat)
  /-- A first surrogate and a backslash. -/
  | partnerBackslash (high : Nat)
  deriving DecidableEq, Repr

/-- What a complete unit stands for. -/
def finishUnit : Option Nat → Nat → Option (List Char × Pending)
  | none, value =>
    if isHighSurrogate value then some ([], .partner value)
    else if isLowSurrogate value then none
    else some ([Char.ofNat value], .nothing)
  | some high, value =>
    if isLowSurrogate value then
      some ([Char.ofNat (0x10000 + (high - 0xD800) * 0x400 + (value - 0xDC00))], .nothing)
    else none

/-- Read one more character between the quotes: the characters of the text that it completes, at
most one, and what is pending then. A surrogate without its partner, an unknown escape and an
unescaped control character are refused. -/
def advance : Pending → Char → Option (List Char × Pending)
  | .nothing, c =>
    if c = '\\' then some ([], .backslash)
    else if c.toNat < 32 ∨ c = '"' then none
    else some ([c], .nothing)
  | .backslash, c =>
    if c = 'u' then some ([], .unit none 0 0)
    else (shortEscape? c).map fun char => ([char], .nothing)
  | .unit high digits value, c =>
    match hexValue? c with
    | none => none
    | some digit =>
      if digits = 3 then finishUnit high (value * 16 + digit)
      else some ([], .unit high (digits + 1) (value * 16 + digit))
  | .partner high, c => if c = '\\' then some ([], .partnerBackslash high) else none
  | .partnerBackslash high, c => if c = 'u' then some ([], .unit (some high) 0 0) else none

/-- Read characters between the quotes: the text so far, in reverse, and what is pending. -/
def unescape (state : List Char × Pending) (cs : List Char) : Option (List Char × Pending) :=
  cs.foldlM (fun s c => (advance s.2 c).map fun r => (r.1 ++ s.1, r.2)) state

theorem unescape_escapeChar (done : List Char) (c : Char) :
    unescape (done, .nothing) (escapeChar c) = some (c :: done, .nothing) := by
  have hc : Char.ofNat c.toNat = c := Char.ofNat_toNat c
  unfold escapeChar
  split
  · subst_vars; rfl
  split
  · subst_vars; rfl
  split
  · subst_vars; rfl
  split
  · subst_vars; rfl
  split
  · subst_vars; rfl
  split
  · rename_i h
    rw [h] at hc
    subst hc
    rfl
  split
  · rename_i h
    rw [h] at hc
    subst hc
    rfl
  split
  · rename_i h
    have key : ∀ n : Fin 32, unescape (done, .nothing)
        ['\\', 'u', '0', '0', hexDigit (n.val / 16), hexDigit (n.val % 16)]
          = some (Char.ofNat n.val :: done, .nothing) := by
      intro n
      have : ∀ n : Fin 32, hexValue? (hexDigit (n.val / 16)) = some (n.val / 16) ∧
          hexValue? (hexDigit (n.val % 16)) = some (n.val % 16) := by decide
      obtain ⟨h₁, h₂⟩ := this n
      have hlow : isHighSurrogate (n.val / 16 * 16 + n.val % 16) = false := by
        have := n.isLt
        simp only [isHighSurrogate, Bool.and_eq_false_iff, decide_eq_false_iff_not]
        omega
      have hlow' : isLowSurrogate (n.val / 16 * 16 + n.val % 16) = false := by
        have := n.isLt
        simp only [isLowSurrogate, Bool.and_eq_false_iff, decide_eq_false_iff_not]
        omega
      have hsum : n.val / 16 * 16 + n.val % 16 = n.val := by omega
      have hzero : hexValue? '0' = some 0 := rfl
      simp [unescape, advance, finishUnit, hzero, h₁, h₂, hlow, hlow']
      rw [hsum]
    have := key ⟨c.toNat, h⟩
    simpa [hc] using this
  · rename_i h₁ h₂ _ _ _ _ _ h₃
    simp [unescape, advance, h₁, h₂, h₃]

/-- Reading a written text gives the text back. -/
theorem unescape_escape (cs done : List Char) :
    unescape (done, .nothing) (escape cs) = some (cs.reverse ++ done, .nothing) := by
  induction cs generalizing done with
  | nil => rfl
  | cons c rest ih =>
    have h := unescape_escapeChar done c
    simp only [escape, List.flatMap_cons, unescape, List.foldlM_append] at h ih ⊢
    rw [h]
    simpa [unescape, escape] using ih (c :: done)

example : unescape ([], .nothing) "\\ud83d\\ude00\\/".toList = some ("/😀".toList, .nothing) := by
  decide +kernel

example : unescape ([], .nothing) "\\ud83dx".toList = none := by decide +kernel

end KeywordCensus.Quoted
