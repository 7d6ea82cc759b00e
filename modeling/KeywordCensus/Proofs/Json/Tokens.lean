import KeywordCensus.Proofs.Json.Numbers
import KeywordCensus.Proofs.Json.Numerals

/-!
# The tokens of a written document

An indented document is cut into the tokens of its value (`Json.tokens_writeIndented`). A word or a
numeral is complete only when the next character is read, so a text of tokens comes in two kinds:
after a value the token at hand may still have to be completed (`Token.Lexes`), and after everything
else nothing is at hand (`Token.Closes`). What follows a value in a document is a separator, and that
completes it (`Lexes.append`).

Numbers are the only values whose text may be read as something else: `Json.reread` is the value with
every number as its text is read.
-/

namespace KeywordCensus

/-! ## Characters of numerals -/

namespace Numeral

variable {cs whole fraction part rest : List Char} {negative : Bool} {number : JsonNumber}

theorem continuesNumeral_of_isDigit {c : Char} (h : c.isDigit = true) :
    Token.continuesNumeral c = true := by
  rw [Token.continuesNumeral, h]
  rfl

theorem continues_of_readDigits {n : Nat} (h : readDigits cs = some n) :
    ∀ c ∈ cs, Token.continuesNumeral c = true := by
  intro c hc
  rw [readDigits] at h
  split at h
  · cases h
  · rename_i hvalid
    cases hall : cs.all Char.isDigit with
    | true => exact continuesNumeral_of_isDigit (List.all_eq_true.mp hall c hc)
    | false => exact absurd (.inr (by rw [hall]; rfl)) hvalid

/-- An exponent part is a sign and digits. -/
theorem continues_of_readExponent {power : Int} (h : readExponent cs = some power) :
    ∀ c ∈ cs, Token.continuesNumeral c = true := by
  unfold readExponent at h
  split at h
  · obtain ⟨n, hn, -⟩ := Option.map_eq_some_iff.mp h
    exact List.forall_mem_cons.mpr ⟨rfl, continues_of_readDigits hn⟩
  · obtain ⟨n, hn, -⟩ := Option.map_eq_some_iff.mp h
    exact List.forall_mem_cons.mpr ⟨rfl, continues_of_readDigits hn⟩
  · obtain ⟨n, hn, -⟩ := Option.map_eq_some_iff.mp h
    exact continues_of_readDigits hn

/-- The exponent of a numeral that is read consists of characters that continue one. -/
theorem continues_of_readScaled {fraction : Option (List Char)} {c : Char}
    (hc : isExponentMark c = true)
    (h : readScaled negative whole fraction (some part) = some number) :
    ∀ d ∈ c :: part, Token.continuesNumeral d = true := by
  rw [readScaled] at h
  obtain ⟨power, hpower, -⟩ := Option.bind_eq_some_iff.mp h
  refine List.forall_mem_cons.mpr ⟨?_, continues_of_readExponent hpower⟩
  rcases Bool.or_eq_true_iff.mp hc with hmark | hmark
  · rw [of_decide_eq_true hmark]
    rfl
  · rw [of_decide_eq_true hmark]
    rfl

/-- So does everything that is read after a fraction. -/
theorem continues_of_readAfterFraction
    (h : readAfterFraction negative whole fraction rest = some number) :
    ∀ c ∈ rest, Token.continuesNumeral c = true := by
  cases rest with
  | nil => exact List.forall_mem_nil _
  | cons c part =>
    rw [readAfterFraction] at h
    split at h
    · exact continues_of_readScaled (by assumption) h
    · cases h

/-- Digits and what follows them continue a numeral. -/
theorem continues_of_dropWhile (h : ∀ c ∈ cs.dropWhile Char.isDigit, Token.continuesNumeral c = true) :
    ∀ c ∈ cs, Token.continuesNumeral c = true := by
  intro c hc
  rw [← List.takeWhile_append_dropWhile (p := Char.isDigit) (l := cs)] at hc
  rcases List.mem_append.mp hc with hdigit | hrest
  · exact continuesNumeral_of_isDigit (List.all_eq_true.mp List.all_takeWhile c hdigit)
  · exact h c hrest

theorem continues_of_readAfterWhole (h : readAfterWhole negative whole rest = some number) :
    ∀ c ∈ rest, Token.continuesNumeral c = true := by
  cases rest with
  | nil => exact List.forall_mem_nil _
  | cons c part =>
    rw [readAfterWhole] at h
    -- After the whole part comes a point, an exponent, or nothing.
    split at h
    · rename_i hpoint
      simp only at h
      split at h
      · cases h
      · refine List.forall_mem_cons.mpr ⟨?_, continues_of_dropWhile
          (continues_of_readAfterFraction h)⟩
        rw [hpoint]
        rfl
    · split at h
      · exact continues_of_readScaled (by assumption) h
      · cases h

/-- A cut off sign put back gives the numeral. -/
theorem withSign_cutSign (cs : List Char) : withSign (cutSign cs).1 (cutSign cs).2 = cs := by
  unfold cutSign
  split <;> rfl

/-- **A numeral is a run of its characters, beginning with a digit or a minus sign.** -/
theorem continues_of_read (h : read cs = some number) :
    (∀ c ∈ cs, Token.continuesNumeral c = true) ∧
      ∃ c rest, cs = c :: rest ∧ (c.isDigit || decide (c = '-')) = true := by
  have hsplit := withSign_cutSign cs
  rw [read] at h
  -- The sign is a character of its own in front, so both cases begin with a character known.
  generalize cutSign cs = parts at h hsplit
  obtain ⟨negative, body⟩ := parts
  simp only at h hsplit
  split at h
  · rename_i hwhole
    have hbody := continues_of_dropWhile (continues_of_readAfterWhole h)
    subst hsplit
    cases negative with
    | true => exact ⟨List.forall_mem_cons.mpr ⟨rfl, hbody⟩, '-', body, rfl, rfl⟩
    | false =>
      refine ⟨hbody, ?_⟩
      cases body with
      | nil => cases hwhole
      | cons c rest =>
        refine ⟨c, rest, rfl, ?_⟩
        -- Without a digit in front there is no whole part to read.
        by_cases hc : c.isDigit = true
        · rw [hc]
          rfl
        · rw [List.takeWhile_cons_of_neg hc] at hwhole
          cases hwhole
  · cases h

end Numeral

/-! ## Texts of tokens -/

namespace Token

variable {a b text : List Char} {ts us : List Token} {c : Char}

/-- Can a character stand after a value in a document? -/
def separates (c : Char) : Bool := c = ',' || c = '\n'

theorem separates_iff : separates c = true ↔ c = ',' ∨ c = '\n' := by
  rw [separates, Bool.or_eq_true, decide_eq_true_eq, decide_eq_true_eq]

/-- Is the token at hand complete, the tokens being these, before the end or a separator? -/
structure Settles (s : Lexing) (done : List Token) : Prop where
  complete : complete? s = some done
  next : ∀ c, separates c = true → lexChar s c = begin? done c

/-- Does a text consist of these tokens, the last of which may still have to be completed? -/
def Lexes (text : List Char) (ts : List Token) : Prop :=
  ∀ done, ∃ s, text.foldlM lexChar ⟨done, .between⟩ = some s ∧ Settles s (ts.reverse ++ done)

/-- Does a text consist of these tokens, with nothing at hand at its end? -/
def Closes (text : List Char) (ts : List Token) : Prop :=
  ∀ done, text.foldlM lexChar ⟨done, .between⟩ = some ⟨ts.reverse ++ done, .between⟩

/-- Does a text begin with a separator? -/
def Separated (text : List Char) : Prop := ∃ c rest, text = c :: rest ∧ separates c = true

theorem closes_nil : Closes [] [] := fun _ => rfl

/-- Texts that close with their tokens close one after the other with both. -/
theorem Closes.append (ha : Closes a ts) (hb : Closes b us) : Closes (a ++ b) (ts ++ us) := by
  intro done
  rw [List.foldlM_append, ha done, List.reverse_append, List.append_assoc]
  exact hb _

theorem settles_between (done : List Token) : Settles ⟨done, .between⟩ done := ⟨rfl, fun _ _ => rfl⟩

/-- A text that closes is lexed on its own. -/
theorem Closes.settled (h : Closes text ts) : Lexes text ts :=
  fun done => ⟨_, h done, settles_between _⟩

/-- **What is at hand after a value is completed by a separator.** -/
theorem Lexes.append (ha : Lexes a ts) (hb : Closes b us) (hseparated : Separated b) :
    Closes (a ++ b) (ts ++ us) := by
  intro done
  obtain ⟨s, hs, hsettles⟩ := ha done
  obtain ⟨c, rest, rfl, hc⟩ := hseparated
  have hrest := hb (ts.reverse ++ done)
  have hstep : lexChar s c = lexChar ⟨ts.reverse ++ done, .between⟩ c := hsettles.next c hc
  rw [List.foldlM_append, hs, List.reverse_append, List.append_assoc, ← hrest]
  show (c :: rest).foldlM lexChar s = _
  rw [List.foldlM_cons, List.foldlM_cons, hstep]

/-- The tokens of a document are those that its text consists of. -/
theorem tokens_of_lexes (h : Lexes text ts) : tokens text = some ts := by
  obtain ⟨s, hs, hsettles⟩ := h []
  rw [tokens, hs, Option.bind_some, hsettles.complete, List.append_nil, Option.map_some,
    List.reverse_reverse]

/-! ## Tokens one by one -/

theorem closes_punctuation {token : Token} (h : punctuation? c = some token) :
    Closes [c] [token] := by
  intro done
  show (begin? done c).bind _ = _
  rw [begin?, h]
  rfl

theorem closes_space (h : isSpace c = true) (hnot : punctuation? c = none) : Closes [c] [] := by
  intro done
  show (begin? done c).bind _ = _
  rw [begin?, hnot]
  simp only [h, if_true]
  rfl

/-- A new line is no token. -/
theorem closes_newline (level : Nat) : Closes (Json.newline level) [] := by
  have hspaces : ∀ n, Closes (List.replicate n ' ') [] := by
    intro n
    induction n with
    | zero => exact closes_nil
    | succ n ih => exact (closes_space rfl rfl).append ih
  exact (closes_space rfl rfl).append (hspaces _)

theorem separated_newline (level : Nat) (text : List Char) :
    Separated (Json.newline level ++ text) := ⟨'\n', _, rfl, rfl⟩

/-- Inside quotes, every character but a quote that is not escaped goes on. -/
theorem foldlM_quoted (done : List Token) {state last : List Char × Quoted.Pending}
    (cs : List Char) (h : Quoted.unescape state cs = some last) :
    cs.foldlM lexChar ⟨done, .quoted state.1 state.2⟩ = some ⟨done, .quoted last.1 last.2⟩ := by
  induction cs generalizing state with
  | nil =>
    cases h
    rfl
  | cons c rest ih =>
    rw [Quoted.unescape, List.foldlM_cons] at h
    obtain ⟨next, hnext, hrest⟩ := Option.bind_eq_some_iff.mp h
    obtain ⟨r, hr, rfl⟩ := Option.map_eq_some_iff.mp hnext
    have hgoes : ¬ (c = '"' ∧ state.2 = .nothing) := by
      -- A quote that is not escaped would end the string, and is not unescaped either.
      rintro ⟨rfl, hnothing⟩
      rw [hnothing] at hr
      cases hr
    have hstep : lexChar ⟨done, .quoted state.1 state.2⟩ c =
        some ⟨done, .quoted (r.1 ++ state.1) r.2⟩ := by
      rw [lexChar]
      simp only [if_neg hgoes, hr, Option.map_some]
    rw [List.foldlM_cons, hstep]
    exact ih hrest

/-- **A quoted text is one token.** -/
theorem closes_quote (s : String) : Closes (Quoted.quote s) [.text s] := by
  intro done
  have hescape := foldlM_quoted done _ (Quoted.unescape_escape s.toList [])
  rw [List.append_nil] at hescape
  -- The closing quote is met with nothing pending, so it ends the string.
  have hend : lexChar ⟨done, .quoted s.toList.reverse .nothing⟩ '"' =
      some ⟨.text s :: done, .between⟩ := by
    rw [lexChar]
    simp only [and_self, if_true, List.reverse_reverse, String.ofList_toList]
  rw [Quoted.quote, List.cons_append, List.foldlM_cons]
  show ((Quoted.escape s.toList ++ ['"']).foldlM lexChar ⟨done, .quoted [] .nothing⟩) = _
  rw [List.foldlM_append, hescape]
  show (lexChar ⟨done, .quoted s.toList.reverse .nothing⟩ '"').bind _ = _
  rw [hend]
  rfl

theorem settles_word {letters : List Char} {v : Json} (done : List Token)
    (h : word? letters.reverse = some v) : Settles ⟨done, .word letters⟩ (.scalar v :: done) := by
  refine ⟨?_, fun c hc => ?_⟩
  · rw [complete?, h]
    rfl
  · have hlower : ¬ c.isLower = true := by
      rcases separates_iff.mp hc with rfl | rfl <;> decide
    rw [lexChar]
    simp only [if_neg hlower, complete?, h]
    rfl

theorem lexes_null : Lexes ['n', 'u', 'l', 'l'] [.scalar .null] :=
  fun done => ⟨_, rfl, settles_word done rfl⟩

theorem lexes_bool (b : Bool) : Lexes (Json.writeBool b) [.scalar (.bool b)] := by
  cases b with
  | true => exact fun done => ⟨_, rfl, settles_word done rfl⟩
  | false => exact fun done => ⟨_, rfl, settles_word done rfl⟩

theorem begin?_numeral (done : List Token) (h : (c.isDigit || decide (c = '-')) = true) :
    begin? done c = some ⟨done, .numeral [c]⟩ := by
  have hnot : ∀ d : Char, (d.isDigit || decide (d = '-')) = false → c ≠ d := by
    -- Punctuation, spaces and quotes are told from a digit or a minus one by one.
    rintro d hd rfl
    rw [h] at hd
    cases hd
  have hpunctuation : punctuation? c = none := by
    rw [punctuation?, if_neg (hnot _ rfl), if_neg (hnot _ rfl), if_neg (hnot _ rfl),
      if_neg (hnot _ rfl), if_neg (hnot _ rfl), if_neg (hnot _ rfl)]
  have hspace : isSpace c = false := by
    rw [isSpace, decide_eq_false (hnot _ rfl), decide_eq_false (hnot _ rfl),
      decide_eq_false (hnot _ rfl), decide_eq_false (hnot _ rfl)]
    rfl
  rw [begin?, hpunctuation]
  simp only [hspace, Bool.false_eq_true, if_false, if_neg (hnot '"' rfl), h, if_true]

/-- **A numeral is one token.** -/
theorem lexes_numeral {number : JsonNumber} (h : Numeral.read text = some number) :
    Lexes text [.scalar (.number number)] := by
  obtain ⟨hcontinues, c, rest, rfl, hc⟩ := Numeral.continues_of_read h
  intro done
  -- The characters after the first one are collected, by induction on them.
  have hrun : ∀ (cs read : List Char), (∀ d ∈ cs, continuesNumeral d = true) →
      cs.foldlM lexChar ⟨done, .numeral read⟩ = some ⟨done, .numeral (cs.reverse ++ read)⟩ := by
    intro cs
    induction cs with
    | nil => exact fun read _ => rfl
    | cons d cs ih =>
      intro read hcs
      obtain ⟨hd, hrest⟩ := List.forall_mem_cons.mp hcs
      have hstep : lexChar ⟨done, .numeral read⟩ d = some ⟨done, .numeral (d :: read)⟩ := by
        rw [lexChar]
        simp only [hd, if_true]
      rw [List.foldlM_cons, hstep, List.reverse_cons, List.append_assoc]
      exact ih _ hrest
  refine ⟨⟨done, .numeral (rest.reverse ++ [c])⟩, ?_, ?_, fun d hd => ?_⟩
  · rw [List.foldlM_cons]
    show (begin? done c).bind _ = _
    rw [begin?_numeral done hc]
    exact hrun rest [c] (List.forall_mem_cons.mp hcontinues).2
  · rw [complete?, List.reverse_append, List.reverse_reverse]
    show (Numeral.read (c :: rest)).map _ = _
    rw [h]
    rfl
  · -- A separator ends the numeral, which is then read as a whole.
    have hstops : ¬ continuesNumeral d = true := by
      rcases separates_iff.mp hd with rfl | rfl <;> decide
    rw [lexChar]
    simp only [if_neg hstops, complete?, List.reverse_append, List.reverse_reverse]
    show ((Numeral.read (c :: rest)).map _).bind _ = _
    rw [h]
    rfl

end Token

namespace Json

/-! ## Values as they are read -/

/-- The number that the text of a number is read as, if it is read at all. -/
def rereadNumber (n : JsonNumber) : JsonNumber := (Numeral.read (writeNumber n)).getD n

/-- The value with every number as its text is read. -/
def reread (v : Json) : Json := v.mapNumbers rereadNumber

/-- Can the texts of all numbers in a value be read? -/
def Readable (v : Json) : Prop := v.NumbersAre fun n => (Numeral.read (writeNumber n)).isSome = true

/-! ## The tokens of a value -/

mutual

/-- The tokens of a value. -/
def tokensOf : Json → List Token
  | .null => [.scalar .null]
  | .bool b => [.scalar (.bool b)]
  | .number n => [.scalar (.number n)]
  | .text s => [.text s]
  | .array [] => [.openArray, .closeArray]
  | .array (item :: rest) => .openArray :: tokensOf item ++ tokensOfItems rest ++ [.closeArray]
  | .object [] => [.openObject, .closeObject]
  | .object ((key, value) :: rest) =>
    .openObject :: .text key :: .colon :: tokensOf value ++ tokensOfFields rest ++ [.closeObject]

/-- The tokens of further values. -/
def tokensOfItems : List Json → List Token
  | [] => []
  | item :: rest => .comma :: tokensOf item ++ tokensOfItems rest

/-- The tokens of further fields. -/
def tokensOfFields : List (String × Json) → List Token
  | [] => []
  | (key, value) :: rest => .comma :: .text key :: .colon :: tokensOf value ++ tokensOfFields rest

end

open Token

/-- A key with its colon. -/
theorem closes_key (key : String) :
    Closes (Quoted.quote key ++ [':', ' ']) [.text key, .colon] :=
  (closes_quote key).append ((closes_punctuation rfl).append (closes_space rfl rfl))

mutual

/-- **The indented text of a value consists of its tokens**, -/
theorem lexes_writeIndentedAt (level : Nat) : ∀ v : Json, v.Readable →
    Lexes (writeIndentedAt level v) (tokensOf v.reread)
  | .null, _ => lexes_null
  | .bool b, _ => lexes_bool b
  | .number n, h => by
    obtain ⟨number, hnumber⟩ := Option.isSome_iff_exists.mp (numbersAre_number.mp h)
    have hreread : rereadNumber n = number := by
      rw [rereadNumber, hnumber]
      rfl
    have hlexes : Lexes (writeNumber n) [.scalar (.number (rereadNumber n))] := by
      rw [hreread]
      exact lexes_numeral hnumber
    exact hlexes
  | .text s, _ => (closes_quote s).settled
  | .array [], _ => ((closes_punctuation rfl).append (closes_punctuation rfl)).settled
  | .array (item :: rest), h => by
    obtain ⟨hitem, hrest⟩ := List.forall_mem_cons.mp (numbersAre_array.mp h)
    -- The items lex up to the last separator, and the bracket on its own line closes them.
    have hend : Closes (newline level ++ [']']) [.closeArray] :=
      (closes_newline level).append (closes_punctuation rfl)
    obtain ⟨hitems, hseparated⟩ := closes_writeIndentedItems (level + 1)
      ⟨hend, separated_newline level _⟩ rest hrest
    have hopen : Closes ('[' :: newline (level + 1)) [.openArray] :=
      (closes_punctuation rfl).append (closes_newline _)
    have hall := hopen.append ((lexes_writeIndentedAt (level + 1) item hitem).append hitems hseparated)
    refine Closes.settled ?_
    rw [writeIndentedAt, reread, mapNumbers, mapNumbersItems, tokensOf]
    simp only [List.cons_append, List.append_assoc, List.nil_append] at hall ⊢
    exact hall
  | .object [], _ => ((closes_punctuation rfl).append (closes_punctuation rfl)).settled
  | .object ((key, value) :: rest), h => by
    obtain ⟨hvalue, hrest⟩ := List.forall_mem_cons.mp (numbersAre_object.mp h)
    -- So do the fields, with a key before each value.
    have hend : Closes (newline level ++ ['\x7d']) [.closeObject] :=
      (closes_newline level).append (closes_punctuation rfl)
    obtain ⟨hfields, hseparated⟩ := closes_writeIndentedFields (level + 1)
      ⟨hend, separated_newline level _⟩ rest hrest
    have hopen : Closes ('\x7b' :: newline (level + 1)) [.openObject] :=
      (closes_punctuation rfl).append (closes_newline _)
    have hall := hopen.append ((closes_key key).append
      ((lexes_writeIndentedAt (level + 1) value hvalue).append hfields hseparated))
    refine Closes.settled ?_
    rw [writeIndentedAt, reread, mapNumbers, mapNumbersFields, tokensOf]
    simp only [List.cons_append, List.append_assoc, List.nil_append] at hall ⊢
    exact hall

/-- and so does the text of further values, -/
theorem closes_writeIndentedItems (level : Nat) {last : List Char} {ts : List Token}
    (hlast : Closes last ts ∧ Separated last) : ∀ items : List Json,
    (∀ item ∈ items, item.Readable) →
    Closes (writeIndentedItems level items ++ last)
        (tokensOfItems (mapNumbersItems rereadNumber items) ++ ts) ∧
      Separated (writeIndentedItems level items ++ last)
  | [], _ => hlast
  | item :: rest, h => by
    obtain ⟨hitem, hrest⟩ := List.forall_mem_cons.mp h
    obtain ⟨hitems, hseparated⟩ := closes_writeIndentedItems level hlast rest hrest
    have hcomma : Closes (',' :: newline level) [.comma] :=
      (closes_punctuation rfl).append (closes_newline level)
    have hall := hcomma.append ((lexes_writeIndentedAt level item hitem).append hitems hseparated)
    refine ⟨?_, ',', _, rfl, rfl⟩
    rw [writeIndentedItems, mapNumbersItems, tokensOfItems]
    simp only [List.cons_append, List.append_assoc, List.nil_append] at hall ⊢
    exact hall

/-- or of further fields. -/
theorem closes_writeIndentedFields (level : Nat) {last : List Char} {ts : List Token}
    (hlast : Closes last ts ∧ Separated last) : ∀ fields : List (String × Json),
    (∀ field ∈ fields, field.2.Readable) →
    Closes (writeIndentedFields level fields ++ last)
        (tokensOfFields (mapNumbersFields rereadNumber fields) ++ ts) ∧
      Separated (writeIndentedFields level fields ++ last)
  | [], _ => hlast
  | (key, value) :: rest, h => by
    obtain ⟨hvalue, hrest⟩ := List.forall_mem_cons.mp h
    obtain ⟨hfields, hseparated⟩ := closes_writeIndentedFields level hlast rest hrest
    have hcomma : Closes (',' :: newline level) [.comma] :=
      (closes_punctuation rfl).append (closes_newline level)
    have hall := hcomma.append ((closes_key key).append
      ((lexes_writeIndentedAt level value hvalue).append hfields hseparated))
    refine ⟨?_, ',', _, rfl, rfl⟩
    rw [writeIndentedFields, mapNumbersFields, tokensOfFields]
    simp only [List.cons_append, List.append_assoc, List.nil_append] at hall ⊢
    exact hall

end

/-- **The tokens of an indented document are those of its value**, with every number as its text is
read. -/
theorem tokens_writeIndented {v : Json} (h : v.Readable) :
    tokens (writeIndentedAt 0 v) = some (tokensOf v.reread) :=
  tokens_of_lexes (lexes_writeIndentedAt 0 v h)

end Json

end KeywordCensus
