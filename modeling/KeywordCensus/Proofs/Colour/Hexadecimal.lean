import Mathlib.Data.List.Forall2
import Mathlib.Data.List.TakeWhile
import KeywordCensus.Colour.Basic

/-!
# The hexadecimal form of a colour

A colour is spelled by six hexadecimal digits in either case, two for each channel, with a hash sign in
front or without one (`Colour.Spells`). Reading takes every spelling for its colour, and the form in
which a colour is written is one of them. It takes more, too (`Colour.Reads`): any number of hash signs,
and a plus sign for the first digit of a channel. Where two bytes end inside a character it breaks off
(`Colour.BreaksOff`). `Colour.spells_iff` says of every text which of these it is.

Bytes are read in pairs: `Colour.nextChannel_eq_ok_iff` is the step and `Colour.readChannels_eq_ok_iff`
the run.
-/

namespace KeywordCensus.Colour

variable {a b d : Char} {cs front rest pair digits : List Char} {k n : Nat} {channel : UInt8}
  {s : String} {c : Colour}

/-! ## Digits -/

/-- The digits from zero to fifteen. -/
def hexDigits : List Char :=
  ['0', '1', '2', '3', '4', '5', '6', '7', '8', '9', 'A', 'B', 'C', 'D', 'E', 'F']

/-- Is `d` the digit `n`, in either case? -/
def IsDigit (d : Char) (n : Nat) : Prop := hexDigits[n]? = some d.toUpper

instance : Decidable (IsDigit d n) := inferInstanceAs (Decidable (_ = _))

theorem IsDigit.lt (h : IsDigit d n) : n < 16 := (List.getElem?_eq_some_iff.mp h).1

theorem IsDigit.ascii (h : IsDigit d n) : d.toNat < 128 := by
  have hmem := List.mem_of_getElem? h
  by_cases hlower : 'a'.val ≤ d.val ∧ d.val ≤ 'z'.val
  · exact Nat.lt_of_le_of_lt (UInt32.le_iff_toNat_le.mp hlower.2) (by decide)
  · have hupper : d.toUpper = d := dif_neg hlower
    rw [hupper] at hmem
    have hlast : hexDigits.all (·.toNat ≤ 70) := by decide
    have hle := of_decide_eq_true (List.all_eq_true.mp hlast d hmem)
    omega

theorem bounds_of_hexValue? (h : hexValue? d = some n) : d.toNat < 128 ∧ n < 16 := by
  rw [hexValue?] at h
  -- Digits, small letters and capitals are three runs of character numbers.
  split at h
  · rename_i hdigit
    simp only [Char.isDigit, Bool.and_eq_true, decide_eq_true_eq, UInt32.le_iff_toNat_le] at hdigit
    have hlast : d.toNat ≤ 57 := hdigit.2
    cases h
    exact ⟨by omega, by show d.toNat - 48 < 16; omega⟩
  split at h
  · rename_i hlower
    have hlast : d.toNat ≤ 102 := hlower.2
    cases h
    exact ⟨by omega, by show d.toNat - 97 + 10 < 16; omega⟩
  split at h
  · rename_i hupper
    have hlast : d.toNat ≤ 70 := hupper.2
    cases h
    exact ⟨by omega, by show d.toNat - 65 + 10 < 16; omega⟩
  · cases h

/-- Ranges and table give the same values to all ASCII characters. -/
theorem hexValue?_ofNat : ∀ k < 128, ∀ n < 16,
    (hexValue? (Char.ofNat k) = some n ↔ IsDigit (Char.ofNat k) n) := by
  decide +kernel

/-- The digit reader accepts a character with a number exactly if it is the digit of that number, in
either case. -/
theorem hexValue?_eq_some_iff : hexValue? d = some n ↔ IsDigit d n := by
  have htable (hascii : d.toNat < 128) (hn : n < 16) : hexValue? d = some n ↔ IsDigit d n := by
    have hk := hexValue?_ofNat d.toNat hascii n hn
    rwa [Char.ofNat_toNat] at hk
  constructor
  · intro h
    obtain ⟨hascii, hn⟩ := bounds_of_hexValue? h
    exact (htable hascii hn).mp h
  · intro h
    exact (htable h.ascii h.lt).mpr h

/-! ## Pairs of bytes -/

/-- Is `pair` the channel in two digits, the first for its sixteens? -/
def IsPair (pair : List Char) (channel : UInt8) : Prop :=
  ∃ a b high low, pair = [a, b] ∧ IsDigit a high ∧ IsDigit b low ∧
    channel.toNat = 16 * high + low

/-- Is `pair` a plus sign and the channel in one digit? -/
def IsSigned (pair : List Char) (channel : UInt8) : Prop :=
  ∃ d, pair = ['+', d] ∧ IsDigit d channel.toNat

/-- The pairs that are read as a channel. -/
def IsRead (pair : List Char) (channel : UInt8) : Prop :=
  IsPair pair channel ∨ IsSigned pair channel

theorem utf8Size_of_ascii (h : d.toNat < 128) : d.utf8Size = 1 := by
  refine if_pos (UInt32.le_iff_toNat_le.mpr ?_)
  exact Nat.le_of_lt_succ h

theorem byteLength_append (cs rest : List Char) :
    byteLength (cs ++ rest) = byteLength cs + byteLength rest := by
  induction cs with
  | nil => exact (Nat.zero_add _).symm
  | cons d cs ih =>
    show d.utf8Size + byteLength (cs ++ rest) = d.utf8Size + byteLength cs + byteLength rest
    rw [ih, Nat.add_assoc]

theorem byteLength_eq_zero (h : byteLength cs = 0) : cs = [] := by
  cases cs with
  | nil => rfl
  | cons d cs =>
    have hpos := d.utf8Size_pos
    have hsum : d.utf8Size + byteLength cs = 0 := h
    omega

theorem IsRead.byteLength (h : IsRead pair channel) : byteLength pair = 2 := by
  rcases h with ⟨a, b, high, low, rfl, ha, hb, -⟩ | ⟨d, rfl, hd⟩
  · show a.utf8Size + (b.utf8Size + 0) = 2
    rw [utf8Size_of_ascii ha.ascii, utf8Size_of_ascii hb.ascii]
  · show '+'.utf8Size + (d.utf8Size + 0) = 2
    rw [utf8Size_of_ascii hd.ascii]
    rfl

/-- Two bytes are one character of two bytes, or two characters of one. -/
theorem byteLength_eq_two (h : byteLength cs = 2) :
    (∃ a, cs = [a] ∧ a.utf8Size = 2) ∨ ∃ a b, cs = [a, b] ∧ a.utf8Size = 1 ∧ b.utf8Size = 1 := by
  match cs, h with
  | [a], h => exact .inl ⟨a, rfl, h⟩
  | [a, b], h =>
    have hsum : a.utf8Size + (b.utf8Size + 0) = 2 := h
    have ha := a.utf8Size_pos
    have hb := b.utf8Size_pos
    exact .inr ⟨a, b, rfl, by omega, by omega⟩
  | a :: b :: d :: rest, h =>
    have hsum : a.utf8Size + (b.utf8Size + (d.utf8Size + byteLength rest)) = 2 := h
    have ha := a.utf8Size_pos
    have hb := b.utf8Size_pos
    have hd := d.utf8Size_pos
    omega

theorem takeTwoBytes?_eq_some_iff : takeTwoBytes? cs = some (front, rest) ↔
    cs = front ++ rest ∧ byteLength front = 2 := by
  constructor
  · intro h
    cases cs with
    | nil => cases h
    | cons a cs =>
      -- One character of two bytes, or two of one byte: anything else ends in `none`.
      rw [takeTwoBytes?.eq_def] at h
      dsimp only at h
      split at h
      · rename_i htwo
        cases h
        exact ⟨rfl, htwo⟩
      split at h
      · rename_i hone
        split at h
        · rename_i b rest
          split at h
          · rename_i hsecond
            cases h
            refine ⟨rfl, ?_⟩
            show a.utf8Size + (b.utf8Size + 0) = 2
            rw [hone, hsecond]
          · cases h
        · cases h
      · cases h
  · rintro ⟨rfl, htwo⟩
    rcases byteLength_eq_two htwo with ⟨a, rfl, ha⟩ | ⟨a, b, rfl, ha, hb⟩
    · exact if_pos ha
    · show takeTwoBytes? (a :: b :: rest) = _
      rw [takeTwoBytes?, if_neg (by omega), if_pos ha, if_pos hb]

/-- The cut after two bytes fails exactly if no beginning has that length. -/
theorem takeTwoBytes?_eq_none_iff : takeTwoBytes? cs = none ↔
    ∀ front, front <+: cs → byteLength front ≠ 2 := by
  constructor
  · rintro h front ⟨rest, rfl⟩ htwo
    rw [takeTwoBytes?_eq_some_iff.mpr ⟨rfl, htwo⟩] at h
    cases h
  · intro h
    cases htake : takeTwoBytes? cs with
    | none => rfl
    | some taken =>
      obtain ⟨hcs, htwo⟩ := takeTwoBytes?_eq_some_iff.mp htake
      exact absurd htwo (h taken.1 ⟨taken.2, hcs.symm⟩)

/-- A plus sign is no digit: the reader accepts it all the same, as the sign of a number. -/
theorem not_isDigit_plus : ¬ IsDigit '+' n := by
  intro h
  exact absurd (List.mem_of_getElem? h) (by decide)

theorem ofNat_eq_iff (h : n < 256) : UInt8.ofNat n = channel ↔ channel.toNat = n := by
  constructor
  · rintro rfl
    exact UInt8.toNat_ofNat_of_lt' h
  · rintro rfl
    exact UInt8.ofNat_toNat

/-- A pair is read as a channel exactly if it is two digits of it, or a plus and one digit. -/
theorem readChannel?_eq_some_iff : readChannel? pair = some channel ↔ IsRead pair channel := by
  constructor
  · intro h
    cases pair using readChannel?.fun_cases with
    | case1 d =>
      rw [readChannel?.eq_1] at h
      obtain ⟨low, hlow, hread⟩ := Option.map_eq_some_iff.mp h
      have hdigit := hexValue?_eq_some_iff.mp hlow
      have hlt := hdigit.lt
      rw [ofNat_eq_iff (by omega)] at hread
      exact .inr ⟨d, rfl, hread ▸ hdigit⟩
    | case2 a b ha =>
      rw [readChannel?.eq_2 a b ha] at h
      obtain ⟨high, hhigh, h⟩ := Option.bind_eq_some_iff.mp h
      obtain ⟨low, hlow, h⟩ := Option.bind_eq_some_iff.mp h
      have ha := hexValue?_eq_some_iff.mp hhigh
      have hb := hexValue?_eq_some_iff.mp hlow
      have hltHigh := ha.lt
      have hltLow := hb.lt
      have hread := (ofNat_eq_iff (by omega)).mp (Option.some.inj h)
      exact .inl ⟨a, b, high, low, rfl, ha, hb, by omega⟩
    | case3 pair hsigned hpair =>
      rw [readChannel?.eq_3 pair hsigned hpair] at h
      cases h
  · rintro (⟨a, b, high, low, rfl, ha, hb, hread⟩ | ⟨d, rfl, hd⟩)
    · -- A plus sign is not the first of two digits, so the second equation applies.
      have hplus : a = '+' → False := by
        rintro rfl
        exact not_isDigit_plus ha
      have hltHigh := ha.lt
      have hltLow := hb.lt
      rw [readChannel?.eq_2 a b hplus, hexValue?_eq_some_iff.mpr ha, hexValue?_eq_some_iff.mpr hb]
      exact congrArg some ((ofNat_eq_iff (by omega)).mpr (by omega))
    · rw [readChannel?.eq_1, hexValue?_eq_some_iff.mpr hd]
      exact congrArg some UInt8.ofNat_toNat

/-- **One channel is read from a pair in front.** -/
theorem nextChannel_eq_ok_iff : nextChannel cs = .ok (channel, rest) ↔
    ∃ pair, cs = pair ++ rest ∧ IsRead pair channel := by
  constructor
  · intro h
    rw [nextChannel] at h
    split at h
    · cases h
    · rename_i pair tail htake
      split at h
      · cases h
      · rename_i value hvalue
        cases h
        exact ⟨pair, (takeTwoBytes?_eq_some_iff.mp htake).1, readChannel?_eq_some_iff.mp hvalue⟩
  · rintro ⟨pair, hcs, hread⟩
    rw [nextChannel, takeTwoBytes?_eq_some_iff.mpr ⟨hcs, hread.byteLength⟩]
    dsimp only
    rw [readChannel?_eq_some_iff.mpr hread]

/-- Do two bytes from the front end inside a character? -/
def Cuts (cs : List Char) : Prop :=
  2 ≤ byteLength cs ∧ ∀ front, front <+: cs → byteLength front ≠ 2

/-- The next channel breaks off exactly if a character lies across its end. -/
theorem nextChannel_eq_splitCharacter_iff (h : 2 ≤ byteLength cs) :
    nextChannel cs = .error .splitCharacter ↔ Cuts cs := by
  rw [Cuts, and_iff_right h, ← takeTwoBytes?_eq_none_iff, nextChannel]
  split
  · rename_i htake
    exact ⟨fun _ => htake, fun _ => rfl⟩
  · rename_i pair tail htake
    rw [htake]
    split
    all_goals exact ⟨nofun, nofun⟩

/-! ## Channels one after the other -/

/-- Read some channels from the front. -/
def readChannels : Nat → List Char → Except HexFailure (List UInt8)
  | 0, _ => .ok []
  | k + 1, cs => do
    let (channel, rest) ← nextChannel cs
    let channels ← readChannels k rest
    return channel :: channels

theorem readChannels_succ_of_ok (h : nextChannel cs = .ok (channel, rest)) :
    readChannels (k + 1) cs = (readChannels k rest).map (channel :: ·) := by
  rw [readChannels, h]
  rfl

theorem readChannels_succ_of_error {e : HexFailure} (h : nextChannel cs = .error e) :
    readChannels (k + 1) cs = .error e := by
  rw [readChannels, h]
  rfl

theorem byteLength_rest (hread : IsRead pair channel)
    (h : byteLength (pair ++ rest) = 2 * (k + 1)) : byteLength rest = 2 * k := by
  rw [byteLength_append, hread.byteLength] at h
  omega

theorem map_eq_ok_iff {ε α β : Type} {f : α → β} {x : Except ε α} {y : β} :
    x.map f = .ok y ↔ ∃ value, x = .ok value ∧ f value = y := by
  cases x with
  | error e => exact ⟨nofun, nofun⟩
  | ok value =>
    constructor
    · exact fun h => ⟨value, rfl, Except.ok.inj h⟩
    · rintro ⟨_, hx, rfl⟩
      cases hx
      rfl

theorem map_eq_error_iff {ε α β : Type} {f : α → β} {x : Except ε α} {e : ε} :
    x.map f = .error e ↔ x = .error e := by
  cases x with
  | error _ => exact ⟨fun h => by cases h; rfl, fun h => by cases h; rfl⟩
  | ok _ => exact ⟨nofun, nofun⟩

/-- **What bytes for so many channels are read as.** The induction is over the channels that are left;
a pair that is read takes two bytes, so that the rest has bytes for one channel less. -/
theorem readChannels_eq_ok_iff (h : byteLength cs = 2 * k) {channels : List UInt8} :
    readChannels k cs = .ok channels ↔
      channels.length = k ∧ ∃ pairs, cs = pairs.flatten ∧ List.Forall₂ IsRead pairs channels := by
  -- By induction on the channels that are due, with twice as many bytes.
  induction k generalizing cs channels with
  | zero =>
    rw [byteLength_eq_zero h, List.length_eq_zero_iff]
    constructor
    · intro hread
      cases hread
      exact ⟨rfl, [], rfl, .nil⟩
    · rintro ⟨rfl, -⟩
      rfl
  | succ k ih =>
    constructor
    · intro hread
      cases hnext : nextChannel cs with
      | error e =>
        rw [readChannels_succ_of_error hnext] at hread
        cases hread
      | ok next =>
        obtain ⟨pair, rfl, hpair⟩ := nextChannel_eq_ok_iff.mp hnext
        rw [readChannels_succ_of_ok hnext] at hread
        obtain ⟨later, hlater, rfl⟩ := map_eq_ok_iff.mp hread
        obtain ⟨hlength, pairs, hrest, hpairs⟩ := (ih (byteLength_rest hpair h)).mp hlater
        exact ⟨congrArg Nat.succ hlength, pair :: pairs, by rw [hrest, List.flatten_cons],
          .cons hpair hpairs⟩
    · rintro ⟨hlength, pairs, rfl, hpairs⟩
      cases hpairs with
      | nil => cases hlength
      | cons hpair hpairs =>
        rw [List.flatten_cons] at h ⊢
        rw [readChannels_succ_of_ok (nextChannel_eq_ok_iff.mpr ⟨_, rfl, hpair⟩)]
        refine map_eq_ok_iff.mpr ⟨_, ?_, rfl⟩
        exact (ih (byteLength_rest hpair h)).mpr ⟨Nat.succ.inj hlength, _, rfl, hpairs⟩

/-- **Reading breaks off at the first pair that ends inside a character.** -/
theorem readChannels_eq_splitCharacter_iff (h : byteLength cs = 2 * k) :
    readChannels k cs = .error .splitCharacter ↔ ∃ (pairs : List (List Char)) (rest : List Char),
      cs = pairs.flatten ++ rest ∧ (∀ pair ∈ pairs, ∃ channel, IsRead pair channel) ∧ Cuts rest := by
  induction k generalizing cs with
  | zero =>
    constructor
    · nofun
    · -- Without any bytes left there is nothing to cut.
      rintro ⟨pairs, rest, rfl, -, hcuts, -⟩
      rw [byteLength_append] at h
      omega
  | succ k ih =>
    constructor
    · intro hbreak
      cases hnext : nextChannel cs with
      | error e =>
        rw [readChannels_succ_of_error hnext] at hbreak
        cases hbreak
        -- The first pair is cut, or it is read and a later one is.
        exact ⟨[], cs, rfl, nofun, (nextChannel_eq_splitCharacter_iff (by omega)).mp hnext⟩
      | ok next =>
        obtain ⟨pair, rfl, hpair⟩ := nextChannel_eq_ok_iff.mp hnext
        rw [readChannels_succ_of_ok hnext, map_eq_error_iff] at hbreak
        obtain ⟨pairs, rest, hrest, hpairs, hcuts⟩ := (ih (byteLength_rest hpair h)).mp hbreak
        refine ⟨pair :: pairs, rest, ?_, List.forall_mem_cons.mpr ⟨⟨_, hpair⟩, hpairs⟩, hcuts⟩
        rw [hrest, List.flatten_cons, List.append_assoc]
    · rintro ⟨pairs, rest, rfl, hpairs, hcuts⟩
      cases pairs with
      | nil =>
        exact readChannels_succ_of_error ((nextChannel_eq_splitCharacter_iff hcuts.1).mpr hcuts)
      | cons pair pairs =>
        obtain ⟨⟨channel, hpair⟩, hpairs⟩ := List.forall_mem_cons.mp hpairs
        rw [List.flatten_cons, List.append_assoc] at h ⊢
        rw [readChannels_succ_of_ok (nextChannel_eq_ok_iff.mpr ⟨pair, rfl, hpair⟩),
          map_eq_error_iff]
        exact (ih (byteLength_rest hpair h)).mpr ⟨pairs, rest, rfl, hpairs, hcuts⟩

/-! ## Colours -/

/-- The channels of a colour in the order in which they are written. -/
def channels (c : Colour) : List UInt8 := [c.red, c.green, c.blue]

/-- Is `s` the six digits of a colour, after a hash sign or without one? -/
def Spells (s : String) (c : Colour) : Prop :=
  ∃ pairs : List (List Char), (s.toList = pairs.flatten ∨ s.toList = '#' :: pairs.flatten) ∧
    List.Forall₂ IsPair pairs c.channels

/-- Is `s` any number of hash signs and then three pairs that are read as the channels of a colour? -/
def Reads (s : String) (c : Colour) : Prop :=
  ∃ n pairs, s.toList = List.replicate n '#' ++ List.flatten pairs ∧
    List.Forall₂ IsRead pairs c.channels

/-- Is `s` any number of hash signs and then six bytes of other characters, of which some pairs are
read and the next one ends inside a character? -/
def BreaksOff (s : String) : Prop :=
  ∃ n pairs rest, s.toList = List.replicate n '#' ++ (List.flatten pairs ++ rest) ∧
    (List.flatten pairs ++ rest).head? ≠ some '#' ∧ byteLength (pairs.flatten ++ rest) = 6 ∧
    (∀ pair ∈ pairs, ∃ channel, IsRead pair channel) ∧ Cuts rest

/-- What stands after the hash signs in front. -/
def afterHashes (s : String) : List Char := s.toList.dropWhile (· = '#')

/-- The digits are what is left after every leading hash, however many. -/
theorem afterHashes_eq_iff : afterHashes s = digits ↔
    (∃ n, s.toList = List.replicate n '#' ++ digits) ∧ digits.head? ≠ some '#' := by
  constructor
  · rintro rfl
    constructor
    · refine ⟨(s.toList.takeWhile (· = '#')).length, ?_⟩
      have hhashes : ∀ d ∈ s.toList.takeWhile (· = '#'), d = '#' := by
        intro d hd
        have hmark := List.mem_takeWhile_imp hd
        exact of_decide_eq_true hmark
      rw [← List.eq_replicate_of_mem hhashes]
      exact List.takeWhile_append_dropWhile.symm
    · intro hhead
      have hnot := List.head?_dropWhile_not (· = '#') s.toList
      rw [show (s.toList.dropWhile (· = '#')).head? = some '#' from hhead] at hnot
      cases hnot
  · rintro ⟨⟨n, hs⟩, hhead⟩
    -- The hash signs are dropped, and the first other character stops that.
    have hpos : ∀ d ∈ List.replicate n '#', (decide (d = '#')) = true := fun d hd =>
      decide_eq_true (List.eq_of_mem_replicate hd)
    rw [afterHashes, hs, List.dropWhile_append_of_pos hpos]
    cases digits with
    | nil => rfl
    | cons d digits =>
      have hd : d ≠ '#' := fun h => hhead (congrArg some h)
      exact List.dropWhile_cons_of_neg (by rwa [decide_eq_true_iff])

theorem IsRead.head?_ne (h : IsRead pair channel) : (pair ++ rest).head? ≠ some '#' := by
  have hhash (n : Nat) : ¬ IsDigit '#' n := fun h =>
    absurd (List.mem_of_getElem? h) (by decide)
  rcases h with ⟨a, b, high, low, rfl, ha, hb, -⟩ | ⟨d, rfl, hd⟩
  · intro hhead
    cases hhead
    exact hhash high ha
  · nofun

/-- A text of another length is no colour; from six bytes three channels are read. -/
theorem map_channels_ofHex (s : String) : (ofHex s).map channels =
    if byteLength (afterHashes s) ≠ 6 then .error .notAColour
    else readChannels 3 (afterHashes s) := by
  rw [ofHex]
  dsimp only
  rw [← afterHashes]
  split
  · rfl
  -- Three channels in a row, each of which may end the reading.
  cases hred : nextChannel (afterHashes s) with
  | error e => exact (readChannels_succ_of_error hred).symm
  | ok next =>
    rw [readChannels_succ_of_ok hred]
    dsimp only [bind, Except.bind]
    cases hgreen : nextChannel next.2 with
    | error e =>
      rw [readChannels_succ_of_error hgreen]
      rfl
    | ok next =>
      rw [readChannels_succ_of_ok hgreen]
      dsimp only
      cases hblue : nextChannel next.2 with
      | error e =>
        rw [readChannels_succ_of_error hblue]
        rfl
      | ok next =>
        rw [readChannels_succ_of_ok hblue]
        rfl

theorem channels_injective : Function.Injective channels := by
  rintro ⟨_, _, _⟩ ⟨_, _, _⟩ h
  cases h
  rfl

/-- Pairs that are read as channels begin with no hash, so taking hashes away takes none of theirs.
-/
theorem head?_flatten_ne {pairs : List (List Char)} (h : List.Forall₂ IsRead pairs c.channels) :
    pairs.flatten.head? ≠ some '#' := by
  cases h with
  | cons hpair _ => exact hpair.head?_ne

theorem byteLength_flatten {pairs : List (List Char)} {channels : List UInt8}
    (h : List.Forall₂ IsRead pairs channels) :
    byteLength pairs.flatten = 2 * channels.length := by
  induction h with
  | nil => rfl
  | cons hpair _ ih =>
    rw [List.flatten_cons, byteLength_append, hpair.byteLength, ih, List.length_cons]
    omega

theorem ofHex_eq_ok_iff : ofHex s = .ok c ↔ Reads s c := by
  have hmap : ofHex s = .ok c ↔ (ofHex s).map channels = .ok c.channels := by
    rw [map_eq_ok_iff]
    exact ⟨fun h => ⟨c, h, rfl⟩, fun ⟨_, h, hc⟩ => channels_injective hc ▸ h⟩
  rw [hmap, map_channels_ofHex]
  constructor
  · intro h
    split at h
    · cases h
    · rename_i hsix
      obtain ⟨-, pairs, hdigits, hpairs⟩ := (readChannels_eq_ok_iff (not_not.mp hsix)).mp h
      obtain ⟨⟨n, hs⟩, -⟩ := afterHashes_eq_iff.mp hdigits
      exact ⟨n, pairs, hs, hpairs⟩
  · rintro ⟨n, pairs, hs, hpairs⟩
    have hsix : byteLength pairs.flatten = 6 := byteLength_flatten hpairs
    rw [afterHashes_eq_iff.mpr ⟨⟨n, hs⟩, head?_flatten_ne hpairs⟩, if_neg (not_not_intro hsix)]
    exact (readChannels_eq_ok_iff hsix).mpr ⟨rfl, pairs, rfl, hpairs⟩

/-- The parser breaks off exactly where a pair ends inside a character. -/
theorem ofHex_eq_splitCharacter_iff : ofHex s = .error .splitCharacter ↔ BreaksOff s := by
  rw [← map_eq_error_iff (f := channels), map_channels_ofHex]
  constructor
  · intro h
    split at h
    · cases h
    · rename_i hsix
      obtain ⟨pairs, rest, hdigits, hpairs, hcuts⟩ :=
        (readChannels_eq_splitCharacter_iff (not_not.mp hsix)).mp h
      obtain ⟨⟨n, hs⟩, hhead⟩ := afterHashes_eq_iff.mp hdigits
      exact ⟨n, pairs, rest, hs, hhead, hdigits ▸ not_not.mp hsix, hpairs, hcuts⟩
  · rintro ⟨n, pairs, rest, hs, hhead, hsix, hpairs, hcuts⟩
    rw [afterHashes_eq_iff.mpr ⟨⟨n, hs⟩, hhead⟩, if_neg (not_not_intro hsix)]
    exact (readChannels_eq_splitCharacter_iff hsix).mpr ⟨pairs, rest, rfl, hpairs, hcuts⟩

/-! ## The grammar -/

/-- A character is the digit of a number exactly if its upper case is the digit written for it. -/
theorem isDigit_iff (h : n < 16) : IsDigit d n ↔ d.toUpper = hexDigit n := by
  have hwritten : ∀ n < 16, hexDigits[n]? = some (hexDigit n) := by decide
  rw [IsDigit, hwritten n h]
  exact ⟨fun hd => (Option.some.inj hd).symm, fun hd => congrArg some hd.symm⟩

/-- A channel is spelled as it is written, in either case. -/
theorem isPair_iff : IsPair pair channel ↔ pair.map Char.toUpper = writeChannel channel := by
  have hlt := channel.toNat_lt
  constructor
  · rintro ⟨a, b, high, low, rfl, ha, hb, hvalue⟩
    have hhigh := ha.lt
    have hlow := hb.lt
    rw [writeChannel, show channel.toNat / 16 = high by omega,
      show channel.toNat % 16 = low by omega, ← (isDigit_iff hhigh).mp ha,
      ← (isDigit_iff hlow).mp hb]
    rfl
  · intro h
    obtain ⟨a, rest, rfl, ha, hrest⟩ := List.map_eq_cons_iff.mp h
    obtain ⟨b, rest, rfl, hb, hnil⟩ := List.map_eq_cons_iff.mp hrest
    rw [List.map_eq_nil_iff.mp hnil]
    exact ⟨a, b, channel.toNat / 16, channel.toNat % 16, rfl, (isDigit_iff (by omega)).mpr ha,
      (isDigit_iff (by omega)).mpr hb, by omega⟩

/-- Digits are pairs for some channels if their upper-case form is how the channels are written. -/
theorem exists_pairs_iff {channels : List UInt8} :
    (∃ pairs, digits = pairs.flatten ∧ List.Forall₂ IsPair pairs channels) ↔
      digits.map Char.toUpper = channels.flatMap writeChannel := by
  -- Pair by pair, as every channel is written in two digits.
  induction channels generalizing digits with
  | nil =>
    rw [List.flatMap_nil, List.map_eq_nil_iff]
    constructor
    · rintro ⟨pairs, rfl, hpairs⟩
      cases hpairs
      rfl
    · rintro rfl
      exact ⟨[], rfl, .nil⟩
  | cons channel channels ih =>
    rw [List.flatMap_cons, List.map_eq_append_iff]
    constructor
    · rintro ⟨pairs, rfl, hpairs⟩
      cases hpairs with
      | cons hpair hpairs =>
        exact ⟨_, _, List.flatten_cons, isPair_iff.mp hpair, ih.mp ⟨_, rfl, hpairs⟩⟩
    · rintro ⟨pair, rest, rfl, hpair, hrest⟩
      obtain ⟨pairs, rfl, hpairs⟩ := ih.mpr hrest
      exact ⟨pair :: pairs, List.flatten_cons.symm, .cons (isPair_iff.mpr hpair) hpairs⟩

theorem writeHex_eq (c : Colour) : c.writeHex = '#' :: c.channels.flatMap writeChannel := by
  rw [writeHex, channels, List.flatMap_cons, List.flatMap_cons, List.flatMap_cons,
    List.flatMap_nil, List.append_nil, ← List.append_assoc]
  rfl

/-- Without a plus sign, what is read is spelled. -/
theorem forall₂_isPair {pairs : List (List Char)} {channels : List UInt8}
    (h : List.Forall₂ IsRead pairs channels) (hplus : '+' ∉ pairs.flatten) :
    List.Forall₂ IsPair pairs channels := by
  induction h with
  | nil => exact .nil
  | cons hpair _ ih =>
    rw [List.flatten_cons, List.mem_append, not_or] at hplus
    refine .cons (hpair.resolve_right ?_) (ih hplus.2)
    rintro ⟨d, rfl, -⟩
    exact hplus.1 (List.mem_cons_self ..)

theorem not_mem_plus {pairs : List (List Char)} {channels : List UInt8}
    (h : List.Forall₂ IsPair pairs channels) : '+' ∉ pairs.flatten := by
  induction h with
  | nil => nofun
  | cons hpair _ ih =>
    rw [List.flatten_cons, List.mem_append, not_or]
    refine ⟨?_, ih⟩
    obtain ⟨a, b, high, low, rfl, ha, hb, -⟩ := hpair
    rw [List.mem_cons, List.mem_singleton, not_or]
    exact ⟨fun h => not_isDigit_plus (h ▸ ha), fun h => not_isDigit_plus (h ▸ hb)⟩

/-- **What is spelled is what is read with at most one hash sign and no plus sign.** -/
theorem spells_iff_reads : Spells s c ↔
    Reads s c ∧ ¬ ['#', '#'] <+: s.toList ∧ '+' ∉ s.toList := by
  constructor
  · rintro ⟨pairs, hs, hpairs⟩
    have hread : List.Forall₂ IsRead pairs c.channels := hpairs.imp fun _ _ => .inl
    have hhead := head?_flatten_ne hread
    have hplus := not_mem_plus hpairs
    have hfront : ¬ ['#'] <+: pairs.flatten := fun ⟨rest, hrest⟩ => hhead (hrest ▸ rfl)
    rcases hs with hs | hs
    · refine ⟨⟨0, pairs, hs, hread⟩, fun hprefix => hfront ?_, hs ▸ hplus⟩
      exact (List.prefix_append ['#'] ['#']).trans (hs ▸ hprefix)
    · refine ⟨⟨1, pairs, hs, hread⟩, fun hprefix => hfront ?_, ?_⟩
      · rw [hs] at hprefix
        exact (List.cons_prefix_cons.mp hprefix).2
      · rw [hs]
        exact List.not_mem_cons_of_ne_of_not_mem (by decide) hplus
  · rintro ⟨⟨n, pairs, hs, hread⟩, hhashes, hplus⟩
    have hpairs : List.Forall₂ IsPair pairs c.channels :=
      forall₂_isPair hread fun hmem => hplus (hs ▸ List.mem_append_right _ hmem)
    -- Two hash signs are excluded, so there is one or none.
    match n, hs with
    | 0, hs => exact ⟨pairs, .inl hs, hpairs⟩
    | 1, hs => exact ⟨pairs, .inr hs, hpairs⟩
    | n + 2, hs => exact absurd ⟨_, hs.symm⟩ hhashes

/-- A text spells a colour exactly if it is the written form up to case and the leading hash. -/
theorem spells_iff_toHex : Spells s c ↔ ∃ digits, (s.toList = digits ∨ s.toList = '#' :: digits) ∧
    c.toHex = String.ofList ('#' :: digits.map Char.toUpper) := by
  have hform (digits : List Char) : c.toHex = String.ofList ('#' :: digits.map Char.toUpper) ↔
      ∃ pairs, digits = pairs.flatten ∧ List.Forall₂ IsPair pairs c.channels := by
    rw [exists_pairs_iff, toHex, String.ofList_inj, writeHex_eq, List.cons_inj_right, eq_comm]
  constructor
  · rintro ⟨pairs, hs, hpairs⟩
    exact ⟨pairs.flatten, hs, (hform _).mpr ⟨pairs, rfl, hpairs⟩⟩
  · rintro ⟨digits, hs, hdigits⟩
    obtain ⟨pairs, rfl, hpairs⟩ := (hform digits).mp hdigits
    exact ⟨pairs, hs, hpairs⟩

theorem toUpper_writeChannel (channel : UInt8) :
    (writeChannel channel).map Char.toUpper = writeChannel channel := by
  have hupper : ∀ n < 16, (hexDigit n).toUpper = hexDigit n := by decide
  have hlt := channel.toNat_lt
  rw [writeChannel, List.map_cons, List.map_singleton, hupper _ (by omega), hupper _ (by omega)]

theorem spells_toHex (c : Colour) : Spells c.toHex c := by
  have hupper : (c.channels.flatMap writeChannel).map Char.toUpper =
      c.channels.flatMap writeChannel := by
    rw [List.map_flatMap]
    exact congrArg c.channels.flatMap (funext toUpper_writeChannel)
  refine spells_iff_toHex.mpr ⟨c.channels.flatMap writeChannel, .inr ?_, ?_⟩
  · rw [toHex, String.toList_ofList, writeHex_eq]
  · rw [hupper, toHex, writeHex_eq]

/-- **The grammar of colours, and what is read.** A text spells a colour if it is read as one, has no
second hash sign in front, and no plus sign. -/
theorem spells_iff (s : String) (c : Colour) :
    (Spells s c ↔ ofHex s = .ok c ∧ ¬ ['#', '#'] <+: s.toList ∧ '+' ∉ s.toList) ∧
      (ofHex s = .ok c ↔ Reads s c) ∧
      (ofHex s = .error .splitCharacter ↔ BreaksOff s) ∧
      (Spells s c ↔ ∃ digits, (s.toList = digits ∨ s.toList = '#' :: digits) ∧
        c.toHex = String.ofList ('#' :: digits.map Char.toUpper)) ∧
      ofHex c.toHex = .ok c :=
  ⟨by rw [ofHex_eq_ok_iff, spells_iff_reads], ofHex_eq_ok_iff, ofHex_eq_splitCharacter_iff,
    spells_iff_toHex, ofHex_eq_ok_iff.mpr (spells_iff_reads.mp (spells_toHex c)).1⟩

example : ofHex "##FF6400" = .ok hotOrange := by rfl

example : ofHex "+f+f+f" = .ok ⟨15, 15, 15⟩ := by rfl

example : ofHex "a€bc" = .error .splitCharacter := by rfl

end KeywordCensus.Colour
