import KeywordCensus.Proofs.Json.Tokens

/-!
# A written document is read back

The machine that reads a document is driven by the tokens of the value that was written. It stands
where it stood after each value, with the value in hand, unless more containers are open on the way
than there may be (`drives_tokensOf`). So a written document is refused for its depth and for no
other reason (`readDocumentWithin_writeIndented`).

What is read from any document has whole numbers of 64 bits only (`numbersAre_of_read`): every step
of the reader and every step of the machine keeps that.
-/

namespace KeywordCensus.Json

/-! ## Tokens drive the machine -/

section Machine

variable {limit most least n m : Nat} {frames : List Frame} {s s' s'' : Reading} {token : Token}
  {ts us : List Token}

/-- A state that is reached if the most containers open on the way are not too many. -/
def within (limit most : Nat) (s : Reading) : Option Reading :=
  if most ≤ limit then some s else none

/-- Do tokens lead from one state to another, with so many containers open at the most? -/
def Drives (limit : Nat) (ts : List Token) (s : Reading) (most : Nat) (s' : Reading) : Prop :=
  ts.foldlM (readToken limit) s = within limit most s'

theorem Drives.of_eq (h : Drives limit ts s n s') (heq : n = m) : Drives limit ts s m s' := heq ▸ h

theorem drives_nil (h : n ≤ limit) : Drives limit [] s n s := (if_pos h).symm

/-- On a way in two parts, the more containers count. -/
theorem Drives.append (hfirst : Drives limit ts s n s')
    (hsecond : n ≤ limit → Drives limit us s' m s'') :
    Drives limit (ts ++ us) s (max n m) s'' := by
  rw [Drives, List.foldlM_append, hfirst, within]
  by_cases hn : n ≤ limit
  · rw [if_pos hn]
    refine (hsecond hn).trans ?_
    rw [within, within]
    exact ite_congr (propext (by omega)) (fun _ => rfl) fun _ => rfl
  · rw [if_neg hn, within, if_neg fun hmax => hn (Nat.max_le.mp hmax).1]
    rfl

/-- A token that changes nothing about the open containers is no part of the count. -/
theorem drives_cons (token : Token) (s' : Reading) (hstep : readToken limit s token = some s')
    (hrest : Drives limit us s' n s'') : Drives limit (token :: us) s n s'' := by
  rw [Drives, List.foldlM_cons, hstep]
  exact hrest

/-- A key is followed by a colon, and then its value begins. -/
theorem drives_key (frames : List Frame) (done : List (String × Json)) (key : String)
    (hkey : readToken limit s (.text key) = some ⟨frames, .colon done key⟩)
    (hrest : Drives limit us ⟨.object done key :: frames, .value⟩ n s'') :
    Drives limit (.text key :: .colon :: us) s n s'' :=
  drives_cons (.text key) ⟨frames, .colon done key⟩ hkey
    (drives_cons .colon ⟨.object done key :: frames, .value⟩ rfl hrest)

/-- May a value begin? -/
def Begins (e : Expecting) : Prop := e = .value ∨ e = .itemOrEnd

/-- Where a value may begin every token but a closing bracket begins one. -/
theorem readToken_begins {e : Expecting} (he : Begins e) (htoken : token ≠ .closeArray) :
    readToken limit ⟨frames, e⟩ token = beginValue limit frames token := by
  rcases he with rfl | rfl
  · rfl
  · cases token with
    | closeArray => exact absurd rfl htoken
    | _ => rfl

section Begins

variable {e : Expecting} (he : Begins e)

include he

/-- A value without containers is one token, -/
theorem drives_scalar (hframes : frames.length ≤ limit) {v : Json} (htoken : token ≠ .closeArray)
    (hvalue : beginValue limit frames token = some ⟨frames, .after v⟩) :
    Drives limit [token] ⟨frames, e⟩ frames.length ⟨frames, .after v⟩ :=
  drives_cons token _ ((readToken_begins he htoken).trans hvalue) (drives_nil hframes)

/-- and a container is opened only if it is not one too many. -/
theorem drives_openArray : Drives limit [.openArray] ⟨frames, e⟩ (frames.length + 1)
    ⟨.array [] :: frames, .itemOrEnd⟩ := by
  rw [Drives, List.foldlM_cons, readToken_begins he (by rintro ⟨⟩)]
  exact Option.bind_fun_some _

theorem drives_openObject : Drives limit [.openObject] ⟨frames, e⟩ (frames.length + 1)
    ⟨frames, .keyOrEnd⟩ := by
  rw [Drives, List.foldlM_cons, readToken_begins he (by rintro ⟨⟩)]
  exact Option.bind_fun_some _

end Begins

mutual

/-- **Reading a value leaves the machine where it was, with the value in hand**, unless too many
containers are open on the way. -/
theorem drives_tokensOf (frames : List Frame) (hframes : frames.length ≤ limit) {e : Expecting}
    (he : Begins e) : ∀ v : Json,
    Drives limit (tokensOf v) ⟨frames, e⟩ (frames.length + v.depth) ⟨frames, .after v⟩
  | .null => drives_scalar he hframes (by rintro ⟨⟩) rfl
  | .bool _ => drives_scalar he hframes (by rintro ⟨⟩) rfl
  | .number _ => drives_scalar he hframes (by rintro ⟨⟩) rfl
  | .text _ => drives_scalar he hframes (by rintro ⟨⟩) rfl
  | .array [] => by
    refine ((drives_openArray he).append fun hopen => ?_).of_eq (Nat.max_self _)
    exact drives_cons .closeArray ⟨frames, .after (.array [])⟩ rfl (drives_nil hopen)
  | .array (item :: rest) => by
    -- The array is open while its items are read: one frame more, and the limit must allow that.
    have hrest (hopen : frames.length + 1 ≤ limit) :=
      (drives_tokensOf (.array [] :: frames) hopen (.inr rfl) item).append fun _ =>
        drives_tokensOfItems frames hopen [] item rest
    rw [tokensOf, List.append_assoc]
    refine ((drives_openArray he).append hrest).of_eq ?_
    rw [depth, depthItems, List.length_cons]
    omega
  | .object [] => by
    refine ((drives_openObject he).append fun hopen => ?_).of_eq (Nat.max_self _)
    exact drives_cons .closeObject ⟨frames, .after (.object [])⟩ rfl (drives_nil hopen)
  | .object ((key, value) :: rest) => by
    -- The key waits in the frame while its value is read.
    have hrest (hopen : frames.length + 1 ≤ limit) :=
      (drives_tokensOf (.object [] key :: frames) hopen (.inl rfl) value).append fun _ =>
        drives_tokensOfFields frames hopen [] key value rest
    rw [tokensOf, List.append_assoc]
    refine ((drives_openObject he).append fun hopen =>
      drives_key frames [] key rfl (hrest hopen)).of_eq ?_
    rw [depth, depthFields, List.length_cons]
    omega

/-- The rest of an array is read behind the items that have been read, -/
theorem drives_tokensOfItems (frames : List Frame) (hframes : frames.length + 1 ≤ limit)
    (done : List Json) (v : Json) : ∀ items : List Json,
    Drives limit (tokensOfItems items ++ [.closeArray]) ⟨.array done :: frames, .after v⟩
      (frames.length + 1 + depthItems items)
      ⟨frames, .after (.array (done.reverse ++ v :: items))⟩
  | [] => by
    rw [← List.reverse_cons]
    exact drives_cons .closeArray _ rfl (drives_nil hframes)
  | item :: rest => by
    have hrest := (drives_tokensOf (.array (v :: done) :: frames) hframes (.inl rfl) item).append
      fun _ => drives_tokensOfItems frames hframes (v :: done) item rest
    rw [List.reverse_cons, List.append_assoc] at hrest
    rw [tokensOfItems, List.append_assoc]
    refine (drives_cons .comma ⟨.array (v :: done) :: frames, .value⟩ rfl hrest).of_eq ?_
    rw [depthItems, List.length_cons]
    omega

/-- and the rest of an object behind the fields. -/
theorem drives_tokensOfFields (frames : List Frame) (hframes : frames.length + 1 ≤ limit)
    (done : List (String × Json)) (key : String) (v : Json) : ∀ fields : List (String × Json),
    Drives limit (tokensOfFields fields ++ [.closeObject]) ⟨.object done key :: frames, .after v⟩
      (frames.length + 1 + depthFields fields)
      ⟨frames, .after (.object (done.reverse ++ (key, v) :: fields))⟩
  | [] => by
    rw [← List.reverse_cons]
    exact drives_cons .closeObject _ rfl (drives_nil hframes)
  | (next, value) :: rest => by
    have hrest := (drives_tokensOf (.object ((key, v) :: done) next :: frames) hframes (.inl rfl)
      value).append fun _ => drives_tokensOfFields frames hframes ((key, v) :: done) next value rest
    rw [List.reverse_cons, List.append_assoc] at hrest
    rw [tokensOfFields, List.append_assoc]
    refine (drives_cons .comma ⟨frames, .key ((key, v) :: done)⟩ rfl
      (drives_key frames ((key, v) :: done) next rfl hrest)).of_eq ?_
    rw [depthFields, List.length_cons]
    omega

end

/-- **A written value is read back unless it is too deep**, its numbers as their texts are read. -/
theorem readDocumentWithin_writeIndented {v : Json} (h : v.Readable) :
    readDocumentWithin limit (writeIndentedAt 0 v) =
      if v.depth ≤ limit then some v.reread else none := by
  have hdrives : Drives limit (tokensOf v.reread) ⟨[], .value⟩ (0 + v.reread.depth)
      ⟨[], .after v.reread⟩ := drives_tokensOf [] (Nat.zero_le _) (.inl rfl) v.reread
  have hdepth : v.reread.depth = v.depth := depth_mapNumbers v
  rw [Nat.zero_add, hdepth] at hdrives
  rw [readDocumentWithin, tokens_writeIndented h]
  show ((tokensOf v.reread).foldlM (readToken limit) ⟨[], .value⟩).bind finished? = _
  rw [hdrives, within]
  split <;> rfl

end Machine

/-! ## What is read -/

section Numbers

variable {P : JsonNumber → Prop} {limit : Nat} {s s' : Reading} {frames : List Frame} {token : Token}

/-- What every step keeps, a run keeps. -/
theorem foldlM_preserves {σ α : Type} {step : σ → α → Option σ} {I : σ → Prop} {A : α → Prop}
    (hstep : ∀ s a next, I s → A a → step s a = some next → I next) {xs : List α} {s last : σ}
    (hs : I s) (hxs : ∀ a ∈ xs, A a) (h : xs.foldlM step s = some last) : I last := by
  induction xs generalizing s with
  | nil =>
    cases h
    exact hs
  | cons a rest ih =>
    obtain ⟨ha, hrest⟩ := List.forall_mem_cons.mp hxs
    rw [List.foldlM_cons] at h
    obtain ⟨next, hnext, h⟩ := Option.bind_eq_some_iff.mp h
    exact ih (hstep s a next hs ha hnext) hrest h

/-- Do all numbers in a token have a property? -/
def TokenNumbersAre (P : JsonNumber → Prop) : Token → Prop
  | .scalar v => v.NumbersAre P
  | _ => True

theorem numbersAre_word {letters : List Char} {v : Json} (h : Token.word? letters = some v) :
    v.NumbersAre P := by
  rw [Token.word?] at h
  split at h
  · cases h
    exact numbersAre_null
  · split at h
    · cases h
      exact numbersAre_bool true
    · split at h
      · cases h
        exact numbersAre_bool false
      · cases h

theorem tokenNumbersAre_punctuation {c : Char} (h : Token.punctuation? c = some token) :
    TokenNumbersAre P token := by
  rw [Token.punctuation?] at h
  repeat' split at h
  all_goals cases h <;> trivial

section Lexing

variable {state next : Token.Lexing} {done : List Token} {c : Char}

theorem tokenNumbersAre_begin (hdone : ∀ token ∈ done, TokenNumbersAre P token)
    (h : Token.begin? done c = some next) : ∀ token ∈ next.done, TokenNumbersAre P token := by
  rw [Token.begin?] at h
  split at h
  · cases h
    exact List.forall_mem_cons.mpr ⟨tokenNumbersAre_punctuation ‹_›, hdone⟩
  · repeat' split at h
    all_goals cases h <;> exact hdone

/-- Completing the last token adds only numbers that fit. -/
theorem tokenNumbersAre_complete
    (hstate : ∀ token ∈ state.done, TokenNumbersAre JsonNumber.Fits token)
    (h : Token.complete? state = some done) :
    ∀ token ∈ done, TokenNumbersAre JsonNumber.Fits token := by
  obtain ⟨before, current⟩ := state
  cases current with
  | between =>
    cases h
    exact hstate
  | word letters =>
    obtain ⟨v, hv, rfl⟩ := Option.map_eq_some_iff.mp h
    exact List.forall_mem_cons.mpr ⟨numbersAre_word hv, hstate⟩
  | numeral characters =>
    obtain ⟨n, hn, rfl⟩ := Option.map_eq_some_iff.mp h
    exact List.forall_mem_cons.mpr ⟨numbersAre_number.mpr (Numeral.fits_of_read hn), hstate⟩
  | quoted _ _ => cases h

/-- One more character adds no other numbers. -/
theorem tokenNumbersAre_lexChar
    (hstate : ∀ token ∈ state.done, TokenNumbersAre JsonNumber.Fits token)
    (h : Token.lexChar state c = some next) :
    ∀ token ∈ next.done, TokenNumbersAre JsonNumber.Fits token := by
  -- A character that ends what came before begins something new, and completing adds one token.
  have hfresh (hbind : (Token.complete? state).bind (Token.begin? · c) = some next) :
      ∀ token ∈ next.done, TokenNumbersAre JsonNumber.Fits token := by
    obtain ⟨done, hdone, hbegin⟩ := Option.bind_eq_some_iff.mp hbind
    exact tokenNumbersAre_begin (tokenNumbersAre_complete hstate hdone) hbegin
  obtain ⟨before, current⟩ := state
  cases current with
  | between => exact tokenNumbersAre_begin hstate h
  | word letters =>
    rw [Token.lexChar] at h
    simp only at h
    split at h
    · cases h
      exact hstate
    · exact hfresh h
  | numeral characters =>
    rw [Token.lexChar] at h
    simp only at h
    split at h
    · cases h
      exact hstate
    · exact hfresh h
  | quoted done pending =>
    rw [Token.lexChar] at h
    simp only at h
    split at h
    · cases h
      exact List.forall_mem_cons.mpr ⟨trivial, hstate⟩
    · obtain ⟨r, -, rfl⟩ := Option.map_eq_some_iff.mp h
      exact hstate

/-- **The whole numbers in the tokens of a document have 64 bits.** -/
theorem tokenNumbersAre_tokens {cs : List Char} {ts : List Token} (h : Token.tokens cs = some ts) :
    ∀ token ∈ ts, TokenNumbersAre JsonNumber.Fits token := by
  obtain ⟨done, hdone, rfl⟩ := Option.map_eq_some_iff.mp h
  obtain ⟨state, hrun, hcomplete⟩ := Option.bind_eq_some_iff.mp hdone
  have hstate : ∀ token ∈ state.done, TokenNumbersAre JsonNumber.Fits token :=
    foldlM_preserves (A := fun _ => True) (fun _ _ _ hs _ hnext => tokenNumbersAre_lexChar hs hnext)
      (List.forall_mem_nil _) (fun _ _ => trivial) hrun
  have hall := tokenNumbersAre_complete hstate hcomplete
  exact fun token htoken => hall token (List.mem_reverse.mp htoken)

end Lexing

/-- Do all numbers in what an open container holds have a property? -/
def FrameNumbersAre (P : JsonNumber → Prop) : Frame → Prop
  | .array done => ∀ item ∈ done, item.NumbersAre P
  | .object done _ => ∀ field ∈ done, field.2.NumbersAre P

/-- Do all numbers in what the machine has in hand have a property? -/
def ExpectingNumbersAre (P : JsonNumber → Prop) : Expecting → Prop
  | .key done => ∀ field ∈ done, field.2.NumbersAre P
  | .colon done _ => ∀ field ∈ done, field.2.NumbersAre P
  | .after v => v.NumbersAre P
  | _ => True

/-- Do all numbers that the machine holds have a property? -/
structure ReadingNumbersAre (P : JsonNumber → Prop) (s : Reading) : Prop where
  frames : ∀ frame ∈ s.frames, FrameNumbersAre P frame
  expecting : ExpectingNumbersAre P s.expecting

/-- Beginning a value keeps all numbers that were read of their kind. -/
theorem numbersAre_beginValue (hframes : ∀ frame ∈ frames, FrameNumbersAre P frame)
    (htoken : TokenNumbersAre P token) (h : beginValue limit frames token = some s) :
    ReadingNumbersAre P s := by
  cases token with
  | scalar v =>
    cases h
    exact ⟨hframes, htoken⟩
  | text s =>
    cases h
    exact ⟨hframes, numbersAre_text s⟩
  | openArray =>
    rw [beginValue] at h
    split at h
    · cases h
      exact ⟨List.forall_mem_cons.mpr ⟨List.forall_mem_nil _, hframes⟩, trivial⟩
    · cases h
  | openObject =>
    rw [beginValue] at h
    split at h
    · cases h
      exact ⟨hframes, trivial⟩
    · cases h
  | closeArray => cases h
  | closeObject => cases h
  | comma => cases h
  | colon => cases h

/-- **One more token adds no other numbers.** -/
theorem numbersAre_readToken (hs : ReadingNumbersAre P s) (htoken : TokenNumbersAre P token)
    (h : readToken limit s token = some s') : ReadingNumbersAre P s' := by
  obtain ⟨hframes, hexpecting⟩ := hs
  -- By what the machine expects, and then by the token. Only the tokens that are allowed are left.
  unfold readToken at h
  split at h
  · exact numbersAre_beginValue hframes htoken h
  · split at h
    · rename_i hopen
      rw [hopen] at hframes
      cases h
      obtain ⟨hdone, hrest⟩ := List.forall_mem_cons.mp hframes
      exact ⟨hrest, numbersAre_array.mpr fun item hitem => hdone item (List.mem_reverse.mp hitem)⟩
    · cases h
  · exact numbersAre_beginValue hframes htoken h
  · cases h
    exact ⟨hframes, numbersAre_object.mpr (List.forall_mem_nil _)⟩
  · cases h
    exact ⟨hframes, List.forall_mem_nil _⟩
  · -- A key and a colon are no numbers.
    rename_i hkey
    rw [hkey] at hexpecting
    cases h
    exact ⟨hframes, hexpecting⟩
  · rename_i hcolon
    rw [hcolon] at hexpecting
    cases h
    exact ⟨List.forall_mem_cons.mpr ⟨hexpecting, hframes⟩, trivial⟩
  · -- After a comma the value read last goes to the frame that is open.
    rename_i hafter
    rw [hafter] at hexpecting
    split at h
    · rename_i hopen
      rw [hopen] at hframes
      cases h
      obtain ⟨hdone, hrest⟩ := List.forall_mem_cons.mp hframes
      exact ⟨List.forall_mem_cons.mpr ⟨List.forall_mem_cons.mpr ⟨hexpecting, hdone⟩, hrest⟩, trivial⟩
    · rename_i hopen
      rw [hopen] at hframes
      cases h
      obtain ⟨hdone, hrest⟩ := List.forall_mem_cons.mp hframes
      exact ⟨hrest, List.forall_mem_cons.mpr ⟨hexpecting, hdone⟩⟩
    · cases h
  · -- A closing bracket makes a value of the frame and what was read last.
    rename_i v hafter
    rw [hafter] at hexpecting
    split at h
    · rename_i done rest hopen
      rw [hopen] at hframes
      cases h
      obtain ⟨hdone, hrest⟩ := List.forall_mem_cons.mp hframes
      have hitems : ∀ item ∈ v :: done, item.NumbersAre P :=
        List.forall_mem_cons.mpr ⟨hexpecting, hdone⟩
      exact ⟨hrest, numbersAre_array.mpr fun item hitem => hitems item (List.mem_reverse.mp hitem)⟩
    · cases h
  · rename_i v hafter
    rw [hafter] at hexpecting
    split at h
    · rename_i done key rest hopen
      rw [hopen] at hframes
      cases h
      obtain ⟨hdone, hrest⟩ := List.forall_mem_cons.mp hframes
      have hfields : ∀ field ∈ (key, v) :: done, field.2.NumbersAre P :=
        List.forall_mem_cons.mpr ⟨hexpecting, hdone⟩
      exact ⟨hrest, numbersAre_object.mpr fun field hfield =>
        hfields field (List.mem_reverse.mp hfield)⟩
    · cases h
  · cases h

/-- **The whole numbers of a value that is read have 64 bits**, and it is canonical. -/
theorem numbersAre_of_read {document : String} {v : Json} (h : read document = some v) :
    v.NumbersAre JsonNumber.Fits ∧ v.canonical = v := by
  obtain ⟨written, hwritten, rfl⟩ := Option.map_eq_some_iff.mp h
  refine ⟨NumbersAre.canonical ?_, canonical_canonical written⟩
  obtain ⟨ts, hts, hmachine⟩ := Option.bind_eq_some_iff.mp hwritten
  obtain ⟨final, hfinal, hfinished⟩ := Option.bind_eq_some_iff.mp hmachine
  have hstart : ReadingNumbersAre JsonNumber.Fits ⟨[], .value⟩ := ⟨List.forall_mem_nil _, trivial⟩
  have hall : ReadingNumbersAre JsonNumber.Fits final :=
    foldlM_preserves (fun _ _ _ hs htoken hnext => numbersAre_readToken hs htoken hnext) hstart
      (tokenNumbersAre_tokens hts) hfinal
  unfold finished? at hfinished
  split at hfinished
  · cases hfinished
    exact hall.expecting
  · cases hfinished

end Numbers

end KeywordCensus.Json
