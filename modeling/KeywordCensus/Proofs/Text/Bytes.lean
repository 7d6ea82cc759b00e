import KeywordCensus.Text.Bytes
import KeywordCensus.Text.Split
import Mathlib.Data.String.Basic
import Mathlib.Data.UInt
import Mathlib.Tactic.SplitIfs

/-!
# Texts and their bytes

A text is what its bytes show (`ofBytes_toBytes`), so texts are told apart by their bytes. A
character of one byte is among the bytes of a text just where it is in the text (`mem_toBytes`):
slashes and points can be looked for in the bytes.
-/

namespace KeywordCensus.Text

variable {s t : String} {c d : Char}

/-- Showing bytes goes byte by byte, with what the last character has begun. -/
theorem showFrom_cons (begun : Option Begun) (b : Nat) (rest : List Nat) :
    showFrom begun (b :: rest) = (readByte begun b).1 ++ showFrom (readByte begun b).2 rest := by
  cases begun <;> rfl

/-- The last byte of a character. -/
theorem showFrom_last {number low high b : Nat} (h : low ≤ b ∧ b ≤ high) (rest : List Nat) :
    showFrom (some ⟨number, 0, low, high⟩) (b :: rest) =
      Char.ofNat (64 * number + b % 64) :: showFrom none rest := by
  rw [showFrom_cons, readByte, if_pos h]
  rfl

/-- A byte in the midst of a character. -/
theorem showFrom_later {number later low high b : Nat} (h : low ≤ b ∧ b ≤ high)
    (rest : List Nat) :
    showFrom (some ⟨number, later + 1, low, high⟩) (b :: rest) =
      showFrom (some ⟨64 * number + b % 64, later, 0x80, 0xBF⟩) rest := by
  rw [showFrom_cons, readByte, if_pos h]
  rfl

theorem showFrom_first {b : Nat} {begun : Begun} (h : readFirst b = ([], some begun))
    (rest : List Nat) : showFrom none (b :: rest) = showFrom (some begun) rest := by
  rw [showFrom_cons, readByte, h]
  rfl

theorem number_valid (c : Char) :
    c.val.toNat < 0xD800 ∨ 0xDFFF < c.val.toNat ∧ c.val.toNat < 0x110000 := c.valid

/-- The numbers of the bytes of a character with a given number. -/
def charBytes (v : Nat) : List Nat :=
  if v ≤ 0x7F then [v]
  else if v ≤ 0x7FF then [v / 64 % 32 + 192, v % 64 + 128]
  else if v ≤ 0xFFFF then [v / 4096 % 16 + 224, v / 64 % 64 + 128, v % 64 + 128]
  else [v / 262144 % 8 + 240, v / 4096 % 64 + 128, v / 64 % 64 + 128, v % 64 + 128]

theorem byte_toNat {n : Nat} (h : n < 256) : (UInt8.ofNat n).toNat = n :=
  UInt8.toNat_ofNat_of_lt' h

/-- The library encodes a character as the bytes of its number. -/
theorem map_utf8EncodeChar (c : Char) :
    (String.utf8EncodeChar c).map UInt8.toNat = charBytes c.val.toNat := by
  rw [String.utf8EncodeChar, charBytes]
  generalize c.val.toNat = v
  split_ifs
  all_goals simp (disch := omega) only [List.map_cons, List.map_nil, byte_toNat]

/-- **The bytes of a character show the character**, whatever follows. -/
theorem showFrom_encode (c : Char) (rest : List Nat) :
    showFrom none ((String.utf8EncodeChar c).map UInt8.toNat ++ rest) = c :: showFrom none rest := by
  have hvalid := number_valid c
  have hchar : Char.ofNat c.val.toNat = c := Char.ofNat_toNat c
  rw [map_utf8EncodeChar, charBytes]
  -- From here on the character is its number, and the cases are the lengths of its encoding.
  generalize c.val.toNat = v at hvalid hchar
  split_ifs with h₁ h₂ h₃
  · rw [List.singleton_append, showFrom_cons, readByte, readFirst, if_pos h₁, hchar]
    rfl
  · have hfirst : readFirst (v / 64 % 32 + 192) = ([], some ⟨v / 64, 0, 0x80, 0xBF⟩) := by
      have hnumber : v / 64 % 32 + 192 - 0xC0 = v / 64 := by omega
      rw [readFirst, if_neg (by omega), if_pos (by omega), hnumber]
    have hnumber : 64 * (v / 64) + (v % 64 + 128) % 64 = v := by omega
    rw [List.cons_append, showFrom_first hfirst, List.singleton_append, showFrom_last (by omega),
      hnumber, hchar]
  · have hfirst : readFirst (v / 4096 % 16 + 224) = ([], some ⟨v / 4096, 1,
        if v / 4096 % 16 + 224 = 0xE0 then 0xA0 else 0x80,
        if v / 4096 % 16 + 224 = 0xED then 0x9F else 0xBF⟩) := by
      have hnumber : v / 4096 % 16 + 224 - 0xE0 = v / 4096 := by omega
      rw [readFirst, if_neg (by omega), if_neg (by omega), if_pos (by omega), hnumber]
    have hnumber : 64 * (64 * (v / 4096) + (v / 64 % 64 + 128) % 64) + (v % 64 + 128) % 64 = v := by
      omega
    rw [List.cons_append, showFrom_first hfirst, List.cons_append,
      showFrom_later (by split_ifs <;> omega), List.singleton_append, showFrom_last (by omega),
      hnumber, hchar]
  · have hfirst : readFirst (v / 262144 % 8 + 240) = ([], some ⟨v / 262144, 2,
        if v / 262144 % 8 + 240 = 0xF0 then 0x90 else 0x80,
        if v / 262144 % 8 + 240 = 0xF4 then 0x8F else 0xBF⟩) := by
      have hnumber : v / 262144 % 8 + 240 - 0xF0 = v / 262144 := by omega
      rw [readFirst, if_neg (by omega), if_neg (by omega), if_neg (by omega), if_pos (by omega),
        hnumber]
    have hnumber : 64 * (64 * (64 * (v / 262144) + (v / 4096 % 64 + 128) % 64) +
        (v / 64 % 64 + 128) % 64) + (v % 64 + 128) % 64 = v := by
      omega
    rw [List.cons_append, showFrom_first hfirst, List.cons_append,
      showFrom_later (by split_ifs <;> omega), List.cons_append, showFrom_later (by omega),
      List.singleton_append, showFrom_last (by omega), hnumber, hchar]

/-! ## Texts in bytes -/

/-- The bytes of a character, each as the character with its number. -/
def encode (c : Char) : List Char := (String.utf8EncodeChar c).map fun b => Char.ofNat b.toNat

theorem toList_toBytes (s : String) : (toBytes s).toList = s.toList.flatMap encode := by
  rw [toBytes, String.toList_ofList, bytes, List.map_flatMap]
  rfl

/-- A byte is told by the character that stands for it. -/
theorem toNat_ofNat {n : Nat} (h : n < 256) : (Char.ofNat n).toNat = n := by
  have hvalid : n.isValidChar := .inl (by omega)
  rw [Char.ofNat, dif_pos hvalid]
  show (UInt32.ofNatLT n _).toNat = n
  rw [UInt32.toNat_ofNatLT]

theorem map_toNat_encode (c : Char) :
    (encode c).map Char.toNat = (String.utf8EncodeChar c).map UInt8.toNat := by
  rw [encode, List.map_map]
  exact List.map_congr_left fun b _ => toNat_ofNat b.toNat_lt

/-- The bytes of characters are shown as these, whatever follows: the induction is on the
characters, since every one of them ends with nothing begun. -/
theorem showFrom_toBytes (cs : List Char) (rest : List Nat) :
    showFrom none ((cs.flatMap encode).map Char.toNat ++ rest) = cs ++ showFrom none rest := by
  induction cs with
  | nil => rfl
  | cons c cs ih =>
    rw [List.flatMap_cons, List.map_append, List.append_assoc, map_toNat_encode, showFrom_encode,
      ih, List.cons_append]

/-- **A text is what its bytes show.** -/
theorem ofBytes_toBytes (s : String) : ofBytes (toBytes s) = s := by
  have h := showFrom_toBytes s.toList []
  rw [List.append_nil] at h
  rw [ofBytes, toList_toBytes, h]
  show String.ofList (s.toList ++ []) = s
  rw [List.append_nil, String.ofList_toList]

theorem toBytes_inj : toBytes s = toBytes t ↔ s = t := by
  constructor
  · intro h
    rw [← ofBytes_toBytes s, h, ofBytes_toBytes]
  · exact congrArg toBytes

theorem toBytes_append (s t : String) : toBytes (s ++ t) = toBytes s ++ toBytes t := by
  refine String.toList_inj.mp ?_
  rw [String.toList_append, toList_toBytes, toList_toBytes, toList_toBytes, String.toList_append,
    List.flatMap_append]

/-- A character of one byte stands for itself. -/
theorem encode_of_ascii (h : c.toNat < 128) : encode c = [c] := by
  have hle : c.val.toNat ≤ 127 := Nat.le_of_lt_succ h
  have hbyte : (UInt8.ofNat c.val.toNat).toNat = c.toNat := byte_toNat (by omega)
  rw [encode, String.utf8EncodeChar, if_pos hle, List.map_singleton, hbyte, Char.ofNat_toNat]

/-- No byte of another character stands for a character of one byte. -/
theorem toNat_of_mem_encode (h : ¬ c.toNat < 128) (hd : d ∈ encode c) : 128 ≤ d.toNat := by
  have hmem : d.toNat ∈ charBytes c.val.toNat := by
    rw [← map_utf8EncodeChar, ← map_toNat_encode]
    exact List.mem_map_of_mem hd
  have hlong : ¬ c.val.toNat ≤ 0x7F := fun hle => h (Nat.lt_succ_of_le hle)
  rw [charBytes, if_neg hlong] at hmem
  generalize c.val.toNat = v at hmem
  split_ifs at hmem
  all_goals
    simp only [List.mem_cons, List.not_mem_nil, or_false] at hmem
    omega

/-- A character below 128 occurs in an encoding only as itself. -/
theorem mem_encode_ascii (h : d.toNat < 128) : d ∈ encode c ↔ d = c := by
  by_cases hc : c.toNat < 128
  · rw [encode_of_ascii hc, List.mem_singleton]
  · constructor
    · intro hd
      exact absurd (toNat_of_mem_encode hc hd) (Nat.not_le_of_lt h)
    · rintro rfl
      exact absurd h hc

/-- A character of one byte is among the bytes of a text if it is in the text. -/
theorem mem_toBytes (h : d.toNat < 128) : d ∈ (toBytes s).toList ↔ d ∈ s.toList := by
  rw [toList_toBytes, List.mem_flatMap]
  constructor
  · rintro ⟨c, hc, hd⟩
    rwa [(mem_encode_ascii h).mp hd]
  · exact fun hd => ⟨d, hd, (mem_encode_ascii h).mpr rfl⟩

/-- Is every character of a text one byte? -/
def IsAscii (s : String) : Prop := ∀ c ∈ s.toList, c.toNat < 128

-- The characters of the text are looked at one by one, not all characters that there are.
instance (s : String) : Decidable (IsAscii s) :=
  List.decidableBAll (fun c : Char => c.toNat < 128) s.toList

/-- A text of characters of one byte is its own bytes. -/
theorem toBytes_of_ascii (h : IsAscii s) : toBytes s = s := by
  refine String.toList_inj.mp ?_
  rw [toList_toBytes]
  rw [IsAscii] at h
  generalize s.toList = cs at h
  induction cs with
  | nil => rfl
  | cons c cs ih =>
    obtain ⟨hc, hcs⟩ := List.forall_mem_cons.mp h
    rw [List.flatMap_cons, encode_of_ascii hc, ih hcs, List.singleton_append]

/-- Only the text itself has the bytes that spell a text of characters of one byte. -/
theorem toBytes_eq_iff (h : IsAscii t) : toBytes s = t ↔ s = t := by
  rw [← toBytes_inj (s := s) (t := t), toBytes_of_ascii h]

end KeywordCensus.Text
