import KeywordCensus.Report.Basic

/-!
# Delimited text is read back as it was written

A reader of delimited text takes one character after the other. It knows the records that are
complete, the fields of the record that it is in, and where in a field it stands: before it, in a
field without quotes, between quotes, after a quote that may be the last one, or after a carriage
return. A record ends with a newline or with a carriage return and a newline, and the end of the
text ends a record that has been begun. What no rule covers is refused: a quote within a field
without quotes, and anything but a delimiter or an end after the closing quote.

The invariant of reading is that nothing which has been read is changed by what follows, so a field
may be followed through on its own (`foldlM_writeField`), then a line (`foldlM_writeLine`), then a
table. The main statement is that the lines of a table are read as that table, and the report of a
census as its usage table (`read_written`).
-/

namespace KeywordCensus.Csv

/-! ## A reader -/

/-- Where in a field a reader stands. -/
inductive Place where
  /-- Before its first character. -/
  | fresh
  /-- In a field without quotes, after some characters. -/
  | bare (cs : List Char)
  /-- Between quotes, after some characters. -/
  | quoted (cs : List Char)
  /-- After a quote that is the last one of the field, or the first one of two. -/
  | closed (cs : List Char)
  /-- After a field and a carriage return. -/
  | returned (cs : List Char)

/-- The field that has been read, if it may end here. -/
def Place.field? : Place → Option (List Char)
  | .fresh => some []
  | .bare cs => some cs
  | .closed cs => some cs
  | .quoted _ => none
  | .returned _ => none

/-- What a reader knows. -/
structure Reader where
  /-- The complete records. -/
  records : List (List (List Char))
  /-- The complete fields of the record that it is in. -/
  fields : List (List Char)
  /-- Where it stands in the next field. -/
  place : Place

namespace Reader

/-- Nothing has been read. -/
def start : Reader := ⟨[], [], .fresh⟩

/-- A field is complete, and another one follows. -/
def endField (r : Reader) (field : List Char) : Reader :=
  { r with fields := r.fields ++ [field], place := .fresh }

/-- A field is complete, and the record with it. -/
def endRecord (r : Reader) (field : List Char) : Reader :=
  ⟨r.records ++ [r.fields ++ [field]], [], .fresh⟩

/-- Read the character after a field. -/
def afterField (delimiter : Char) (r : Reader) (field : List Char) (c : Char) : Option Reader :=
  if c = delimiter then some (r.endField field)
  else if c = '\n' then some (r.endRecord field)
  else if c = '\r' then some { r with place := .returned field }
  else none

/-- Read a character of a field without quotes, or the one after it. -/
def inBare (delimiter : Char) (r : Reader) (cs : List Char) (c : Char) : Option Reader :=
  (r.afterField delimiter cs c).or (some { r with place := .bare (cs ++ [c]) })

/-- Read a character. -/
def step (delimiter : Char) (r : Reader) (c : Char) : Option Reader :=
  match r.place with
  | .fresh => if c = '"' then some { r with place := .quoted [] } else r.inBare delimiter [] c
  | .bare cs => if c = '"' then none else r.inBare delimiter cs c
  | .quoted cs => some { r with place := if c = '"' then .closed cs else .quoted (cs ++ [c]) }
  | .closed cs =>
    if c = '"' then some { r with place := .quoted (cs ++ ['"']) } else r.afterField delimiter cs c
  | .returned cs => if c = '\n' then some (r.endRecord cs) else none

/-- The records of a text that ends here. -/
def finish (r : Reader) : Option (List (List (List Char))) :=
  match r.fields, r.place with
  | [], .fresh => some r.records
  | _, place => place.field?.map fun field => (r.endRecord field).records

end Reader

/-- The records of a delimited text, each one as its fields. -/
def read (delimiter : Char) (text : String) : Option (List (List String)) :=
  ((text.toList.foldlM (Reader.step delimiter) Reader.start).bind Reader.finish).map fun records =>
    records.map fun fields => fields.map String.ofList

/-! ## Following a field through -/

variable {delimiter : Char} {records : List (List (List Char))} {fields : List (List Char)}

/-- May a character separate fields? -/
structure IsDelimiter (delimiter : Char) : Prop where
  /-- It is no quote. -/
  not_quote : delimiter ≠ '"'
  /-- It is no carriage return. -/
  not_return : delimiter ≠ '\r'
  /-- It is no newline. -/
  not_newline : delimiter ≠ '\n'

theorem isSpecial_eq_false {c : Char} (h : isSpecial delimiter c = false) :
    c ≠ delimiter ∧ c ≠ '"' ∧ c ≠ '\n' ∧ c ≠ '\r' := by
  simpa [isSpecial, and_assoc] using h

/-- A character that needs no quotes is one more of a field without quotes. -/
theorem inBare_of_not_special {c : Char} (h : isSpecial delimiter c = false) (r : Reader)
    (cs : List Char) :
    r.inBare delimiter cs c = some { r with place := .bare (cs ++ [c]) } := by
  obtain ⟨hdelimiter, -, hnewline, hreturn⟩ := isSpecial_eq_false h
  simp [Reader.inBare, Reader.afterField, hdelimiter, hnewline, hreturn]

theorem foldlM_bare {cs : List Char} (h : ∀ c ∈ cs, isSpecial delimiter c = false)
    (done : List Char) :
    cs.foldlM (Reader.step delimiter) ⟨records, fields, .bare done⟩ =
      some ⟨records, fields, .bare (done ++ cs)⟩ := by
  induction cs generalizing done with
  | nil => simp
  | cons c rest ih =>
    obtain ⟨hc, hrest⟩ := List.forall_mem_cons.mp h
    have hstep : Reader.step delimiter ⟨records, fields, .bare done⟩ c =
        some ⟨records, fields, .bare (done ++ [c])⟩ := by
      simp [Reader.step, (isSpecial_eq_false hc).2.1, inBare_of_not_special hc]
    rw [List.foldlM_cons, hstep]
    simpa using ih hrest (done ++ [c])

/-- Between quotes, a text whose quotes are doubled is read as it is. -/
theorem foldlM_doubleQuotes (cs done : List Char) :
    (doubleQuotes cs).foldlM (Reader.step delimiter) ⟨records, fields, .quoted done⟩ =
      some ⟨records, fields, .quoted (done ++ cs)⟩ := by
  induction cs generalizing done with
  | nil => simp [doubleQuotes]
  | cons c rest ih =>
    have hrest := ih (done ++ [c])
    rw [List.append_assoc, List.singleton_append] at hrest
    rw [doubleQuotes, List.flatMap_cons, ← doubleQuotes, List.foldlM_append]
    by_cases hc : c = '"'
    · subst hc
      -- The first quote may end the field, the second one says that it does not.
      simpa [Reader.step] using hrest
    · simpa [Reader.step, hc] using hrest

/-- **A written field is read as the field**, up to the point where it may end. -/
theorem foldlM_writeField (cs : List Char) :
    ∃ place : Place, place.field? = some cs ∧
      (writeField delimiter cs).foldlM (Reader.step delimiter) ⟨records, fields, .fresh⟩ =
        some ⟨records, fields, place⟩ := by
  unfold writeField
  -- A quoted field is read to its closing quote, a bare one character by character.
  split
  · refine ⟨.closed cs, rfl, ?_⟩
    have hopen : Reader.step delimiter ⟨records, fields, .fresh⟩ '"' =
        some ⟨records, fields, .quoted []⟩ := rfl
    have hbody : (doubleQuotes cs).foldlM (Reader.step delimiter) ⟨records, fields, .quoted []⟩ =
        some ⟨records, fields, .quoted cs⟩ := foldlM_doubleQuotes cs []
    have hclose : Reader.step delimiter ⟨records, fields, .quoted cs⟩ '"' =
        some ⟨records, fields, .closed cs⟩ := rfl
    simp [List.foldlM_append, hopen, hbody, hclose]
  · rename_i hplain
    have hcs : ∀ c ∈ cs, isSpecial delimiter c = false := by simpa using hplain
    cases cs with
    | nil => exact ⟨.fresh, rfl, rfl⟩
    | cons c rest =>
      obtain ⟨hc, hrest⟩ := List.forall_mem_cons.mp hcs
      refine ⟨.bare (c :: rest), rfl, ?_⟩
      have hstep : Reader.step delimiter ⟨records, fields, .fresh⟩ c =
          some ⟨records, fields, .bare [c]⟩ := by
        simp [Reader.step, (isSpecial_eq_false hc).2.1, inBare_of_not_special hc]
      rw [List.foldlM_cons, hstep]
      exact foldlM_bare hrest [c]

/-! ## Lines and tables -/

/-- Where a field may end, a character that is no quote is read as the one after it, if it can be. -/
theorem step_of_field {place : Place} {field : List Char} (h : place.field? = some field)
    {c : Char} (hc : c ≠ '"') {r : Reader}
    (hafter : Reader.afterField delimiter ⟨records, fields, place⟩ field c = some r) :
    Reader.step delimiter ⟨records, fields, place⟩ c = some r := by
  cases place with
  | fresh =>
    cases h
    simp [Reader.step, hc, Reader.inBare, hafter]
  | bare cs =>
    cases h
    simp [Reader.step, hc, Reader.inBare, hafter]
  | closed cs =>
    cases h
    simp [Reader.step, hc, hafter]
  | quoted cs => cases h
  | returned cs => cases h

/-- The line of a record is read as this record. -/
theorem foldlM_writeLine (hdelimiter : IsDelimiter delimiter) {row : List (List Char)}
    (hrow : row ≠ []) :
    (writeLine delimiter row).foldlM (Reader.step delimiter) ⟨records, fields, .fresh⟩ =
      some ⟨records ++ [fields ++ row], [], .fresh⟩ := by
  induction row generalizing fields with
  | nil => exact absurd rfl hrow
  | cons field rest ih =>
    obtain ⟨place, hplace, hfield⟩ : ∃ place : Place, place.field? = some field ∧
        (writeField delimiter field).foldlM (Reader.step delimiter) ⟨records, fields, .fresh⟩ =
          some ⟨records, fields, place⟩ := foldlM_writeField field
    cases rest with
    | nil =>
      -- The last field is followed by the end of the line.
      have hend : Reader.step delimiter ⟨records, fields, place⟩ '\n' =
          some ⟨records ++ [fields ++ [field]], [], .fresh⟩ := by
        refine step_of_field hplace (by decide) ?_
        rw [Reader.afterField, if_neg hdelimiter.not_newline.symm, if_pos rfl]
        rfl
      rw [writeLine, List.map_cons, List.map_nil, Text.join, List.foldlM_append, hfield]
      simp [hend]
    | cons next more =>
      have hnext : Reader.step delimiter ⟨records, fields, place⟩ delimiter =
          some ⟨records, fields ++ [field], .fresh⟩ := by
        refine step_of_field hplace hdelimiter.not_quote ?_
        rw [Reader.afterField, if_pos rfl]
        rfl
      have hrest : (writeLine delimiter (next :: more)).foldlM (Reader.step delimiter)
          ⟨records, fields ++ [field], .fresh⟩ =
            some ⟨records ++ [fields ++ field :: next :: more], [], .fresh⟩ := by
        rw [ih (List.cons_ne_nil next more), List.append_assoc, List.singleton_append]
      have hline : writeLine delimiter (field :: next :: more) =
          writeField delimiter field ++ delimiter :: writeLine delimiter (next :: more) := by
        simp [writeLine, Text.join]
      rw [hline, List.foldlM_append, hfield]
      simp [hnext, hrest]

/-- The lines of a table are read as its rows. -/
theorem foldlM_writeLines (hdelimiter : IsDelimiter delimiter) {rows : List (List (List Char))}
    (hrows : ∀ row ∈ rows, row ≠ []) :
    (rows.flatMap (writeLine delimiter)).foldlM (Reader.step delimiter) ⟨records, [], .fresh⟩ =
      some ⟨records ++ rows, [], .fresh⟩ := by
  induction rows generalizing records with
  | nil => simp
  | cons row rest ih =>
    obtain ⟨hrow, hrest⟩ := List.forall_mem_cons.mp hrows
    rw [List.flatMap_cons, List.foldlM_append, foldlM_writeLine hdelimiter hrow]
    simp [ih hrest]

/-- A document is read as the table that it was written from. -/
theorem read_document (hdelimiter : IsDelimiter delimiter) {rows : List (List String)}
    (hrows : ∀ row ∈ rows, row ≠ []) : read delimiter (document delimiter rows) = some rows := by
  have hchars : (document delimiter rows).toList =
      (rows.map fun row => row.map String.toList).flatMap (writeLine delimiter) := by
    simp [document, List.flatMap_map]
  have hnonempty : ∀ row ∈ rows.map fun row => row.map String.toList, row ≠ [] := by
    simpa using hrows
  have htexts : ((rows.map fun row => row.map String.toList).map fun fields =>
      fields.map String.ofList) = rows := by
    simp [Function.comp_def]
  rw [read, hchars, Reader.start, foldlM_writeLines hdelimiter hnonempty]
  exact congrArg some htexts

/-- A document is one line after the other. -/
theorem join_line (delimiter : Char) (rows : List (List String)) :
    String.join (rows.map (line delimiter)) = document delimiter rows := by
  refine String.toList_injective ?_
  simp [document, line, String.toList_join, List.flatMap_def, Function.comp_def]

/-- **What is written is read back.** A reader finds the rows of a table in its lines, field by
field, whatever characters the fields hold, and in the report of a census the rows of its usage
table. -/
theorem read_written (hdelimiter : IsDelimiter delimiter) :
    (∀ rows : List (List String), (∀ row ∈ rows, row ≠ []) →
      read delimiter (String.join (rows.map (line delimiter))) = some rows) ∧
    ∀ (c : Census) (settings : ReportSettings),
      read delimiter (c.toCsv settings delimiter) =
        some (Table.rows c settings.pathDepth settings.maxKeywords) := by
  constructor
  · intro rows hrows
    rw [join_line]
    exact read_document hdelimiter hrows
  · intro c settings
    refine read_document hdelimiter fun row hrow => ?_
    rcases List.mem_cons.mp hrow with rfl | hrow
    · exact List.cons_ne_nil _ _
    · obtain ⟨file, -, rfl⟩ := List.mem_map.mp hrow
      exact List.cons_ne_nil _ _

/-- A table with quotes, delimiters, ends of lines and empty fields, between semicolons. -/
theorem read_written_semicolons :
    IsDelimiter ';' ∧
    read ';' (String.join ([["say \"hi\"", "", "a;b"], [""], ["\r\n", " x "]].map (line ';'))) =
      some [["say \"hi\"", "", "a;b"], [""], ["\r\n", " x "]] := by
  have hdelimiter : IsDelimiter ';' := ⟨by decide, by decide, by decide⟩
  exact ⟨hdelimiter, (read_written hdelimiter).1 _ (by decide)⟩

/-- A record may end with a carriage return and a newline, and the last one with the text. -/
example : read ',' "a,\"b\"\"\"\r\n,c" = some [["a", "b\""], ["", "c"]] := by decide +kernel

/-- A quote has no place in a field without quotes. -/
example : read ',' "a\"b\n" = none := by decide +kernel

end KeywordCensus.Csv
