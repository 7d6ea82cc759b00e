import KeywordCensus.Json.Printer
import KeywordCensus.Json.Reader

/-!
# Numerals are read as they are written

A whole number of 64 bits is written so that it is read back (`read_writeWhole`), and no other whole
number is ever read (`fits_of_read`). A numeral with a fraction or an exponent is read as far as its
parts go: `read_fraction` and `read_exponent` say which parts these are. What is kept of their digits
always fits (`digits_collectWhole_le`, `digits_collectFraction_le`).
-/

namespace KeywordCensus

/-- Is a whole number one of those that a document is read to? -/
def JsonNumber.Fits : JsonNumber → Prop
  | .whole n => -(twoPow 63 : Int) ≤ n ∧ n < (twoPow 64 : Int)
  | .floating _ => True

namespace Numeral

variable {cs whole fraction part rest : List Char} {acc : Significand} {n : Nat} {c : Char}

/-! ## Digits -/

theorem isDigit_of_mem_toDigits (n : Nat) : ∀ c ∈ Nat.toDigits 10 n, c.isDigit = true :=
  fun _ hc => Nat.isDigit_of_mem_toDigits (by decide) (by decide) hc

/-- The digits of a positive number do not begin with a zero. -/
theorem toDigits_eq_cons (hn : 0 < n) :
    ∃ c rest, Nat.toDigits 10 n = c :: rest ∧ c ≠ '0' := by
  induction n using Nat.strongRecOn with
  | ind n ih =>
    by_cases hsmall : n < 10
    · refine ⟨n.digitChar, [], Nat.toDigits_of_lt_base hsmall, ?_⟩
      rw [ne_eq, Nat.digitChar_eq_zero]
      omega
    · obtain ⟨c, rest, hrest, hc⟩ := ih (n / 10) (by omega) (by omega)
      rw [Nat.toDigits_of_base_le (by decide) (by omega), hrest]
      exact ⟨c, rest ++ [(n % 10).digitChar], rfl, hc⟩

theorem isIntegerPart_cons (hc : c ≠ '0') (h : ∀ d ∈ c :: cs, d.isDigit = true) :
    isIntegerPart (c :: cs) = true := by
  have hall : (c :: cs).all Char.isDigit = true := List.all_eq_true.mpr h
  have hne : (c != '0') = true := bne_iff_ne.mpr hc
  rw [isIntegerPart, hall, hne]
  · rfl
  · intro heq
    exact absurd heq hc

/-- The digits of a number are an integer part. -/
theorem isIntegerPart_toDigits (n : Nat) : isIntegerPart (Nat.toDigits 10 n) = true := by
  rcases Nat.eq_zero_or_pos n with rfl | hn
  · rfl
  · obtain ⟨c, rest, hdigits, hc⟩ := toDigits_eq_cons hn
    have hall := isDigit_of_mem_toDigits n
    rw [hdigits] at hall ⊢
    exact isIntegerPart_cons hc hall

/-! ## Collecting digits -/

/-- Digits that fit together are collected, -/
theorem collectWhole_eq (h : Nat.ofDigitChars 10 cs acc.digits ≤ limit) (hfull : acc.full = false) :
    collectWhole acc cs = ⟨Nat.ofDigitChars 10 cs acc.digits, acc.exponent, false⟩ := by
  induction cs generalizing acc with
  | nil =>
    obtain ⟨digits, exponent, full⟩ := acc
    cases hfull
    rw [collectWhole, Nat.ofDigitChars_nil]
  | cons c rest ih =>
    rw [Nat.ofDigitChars_cons, Nat.mul_comm 10] at h
    have hstep : acc.digits * 10 + digitValue c ≤ limit := by
      -- The digits that follow only make the number larger, so it is within the limit now already.
      refine Nat.le_trans ?_ h
      rw [Nat.ofDigitChars_eq_ofDigitChars_zero]
      have hpow : 0 < 10 ^ rest.length := Nat.pow_pos (by decide)
      exact Nat.le_trans (Nat.le_mul_of_pos_left _ hpow) (Nat.le_add_right _ _)
    rw [collectWhole, if_neg, Nat.ofDigitChars_cons, Nat.mul_comm 10]
    · exact ih h rfl
    · rw [hfull]
      rintro (hcontra | hcontra)
      · cases hcontra
      · exact absurd hstep (Nat.not_le.mpr hcontra)

/-- and nothing that does not fit is. -/
theorem digits_collectWhole_le (h : acc.digits ≤ limit) : (collectWhole acc cs).digits ≤ limit := by
  induction cs generalizing acc with
  | nil => exact h
  | cons c rest ih =>
    rw [collectWhole]
    split
    · exact ih h
    · rename_i hfits
      exact ih (Nat.not_lt.mp (not_or.mp hfits).2)

/-- Collecting a fraction stops before the digits pass the limit. -/
theorem digits_collectFraction_le (h : acc.digits ≤ limit) :
    (collectFraction acc cs).digits ≤ limit := by
  induction cs generalizing acc with
  | nil => exact h
  | cons c rest ih =>
    rw [collectFraction]
    split
    · exact h
    · rename_i hfits
      exact ih (Nat.not_lt.mp hfits)

/-- A fraction does not raise the power of ten to scale by. -/
theorem exponent_collectFraction_le (acc : Significand) (cs : List Char) :
    (collectFraction acc cs).exponent ≤ acc.exponent := by
  induction cs generalizing acc with
  | nil => exact Int.le_refl _
  | cons c rest ih =>
    rw [collectFraction]
    split
    · exact Int.le_refl _
    · exact Int.le_trans (ih _) (Int.sub_le_self _ (by decide))

/-! ## The parts of a numeral -/

/-- A sign with what follows it. -/
def withSign (negative : Bool) (body : List Char) : List Char :=
  if negative then '-' :: body else body

theorem cutSign_withSign (negative : Bool) (h : c.isDigit = true) :
    cutSign (withSign negative (c :: cs)) = (negative, c :: cs) := by
  cases negative with
  | true => rfl
  | false =>
    show cutSign (c :: cs) = _
    rw [cutSign]
    rintro rest ⟨⟩
    cases h

/-- Is what follows no digit? -/
def StopsDigits (cs : List Char) : Prop := ∀ c ∈ cs.head?, c.isDigit = false

theorem stopsDigits_nil : StopsDigits [] := by
  rintro c ⟨⟩

theorem stopsDigits_cons (h : c.isDigit = false) : StopsDigits (c :: rest) := by
  rintro d ⟨⟩
  exact h

/-- A rest that does not begin with a digit ends the run of digits before it. -/
theorem StopsDigits.takeWhile (h : StopsDigits rest) (hdigits : ∀ c ∈ cs, c.isDigit = true) :
    (cs ++ rest).takeWhile Char.isDigit = cs ∧ (cs ++ rest).dropWhile Char.isDigit = rest := by
  rw [List.takeWhile_append_of_pos hdigits, List.dropWhile_append_of_pos hdigits]
  cases rest with
  | nil => exact ⟨List.append_nil cs, rfl⟩
  | cons c rest =>
    have hc : ¬ c.isDigit = true := Bool.eq_false_iff.mp (h c rfl)
    rw [List.takeWhile_cons_of_neg hc, List.dropWhile_cons_of_neg hc]
    exact ⟨List.append_nil cs, rfl⟩

/-- Reading a numeral is reading on after its whole part. -/
theorem readAfterWhole_of_read (negative : Bool) (hwhole : isIntegerPart whole = true)
    (hdigits : ∀ c ∈ whole, c.isDigit = true) (hrest : StopsDigits rest) :
    read (withSign negative (whole ++ rest)) = readAfterWhole negative whole rest := by
  have hcut : cutSign (withSign negative (whole ++ rest)) = (negative, whole ++ rest) := by
    cases whole with
    | nil => cases hwhole
    | cons c w => exact cutSign_withSign negative (hdigits c (List.mem_cons_self ..))
  obtain ⟨htake, hdrop⟩ := hrest.takeWhile hdigits
  rw [read, hcut]
  simp only [htake, hdrop, hwhole, if_true]

section Parts

variable (negative : Bool) (hwhole : isIntegerPart whole = true)
  (hdigits : ∀ c ∈ whole, c.isDigit = true)

include hwhole hdigits

/-- Digits alone are a whole number, -/
theorem read_digits : read (withSign negative whole) = readWhole negative whole := by
  have hread := readAfterWhole_of_read negative hwhole hdigits stopsDigits_nil
  rw [List.append_nil] at hread
  exact hread

/-- a point begins a fraction, -/
theorem read_fraction (hfraction : ∀ c ∈ fraction, c.isDigit = true) (hne : fraction ≠ []) :
    read (withSign negative (whole ++ '.' :: fraction)) =
      readScaled negative whole (some fraction) none := by
  obtain ⟨htake, hdrop⟩ := stopsDigits_nil.takeWhile hfraction
  rw [List.append_nil] at htake hdrop
  have hempty : ¬ fraction.isEmpty = true := fun h => hne (List.isEmpty_iff.mp h)
  rw [readAfterWhole_of_read negative hwhole hdigits (stopsDigits_cons rfl), readAfterWhole,
    if_pos rfl]
  simp only [htake, hdrop, if_neg hempty, readAfterFraction]

/-- and a mark begins an exponent, with a fraction before it -/
theorem read_fraction_exponent (hfraction : ∀ c ∈ fraction, c.isDigit = true)
    (hne : fraction ≠ []) : read (withSign negative (whole ++ '.' :: fraction ++ 'e' :: part)) =
      readScaled negative whole (some fraction) (some part) := by
  have hmark : StopsDigits ('e' :: part) := stopsDigits_cons rfl
  obtain ⟨htake, hdrop⟩ := hmark.takeWhile hfraction
  have hempty : ¬ fraction.isEmpty = true := fun h => hne (List.isEmpty_iff.mp h)
  rw [List.append_assoc, List.cons_append,
    readAfterWhole_of_read negative hwhole hdigits (stopsDigits_cons rfl), readAfterWhole,
    if_pos rfl]
  simp only [htake, hdrop, if_neg hempty, readAfterFraction]
  exact if_pos rfl

/-- or without one. -/
theorem read_exponent : read (withSign negative (whole ++ 'e' :: part)) =
    readScaled negative whole none (some part) := by
  rw [readAfterWhole_of_read negative hwhole hdigits (stopsDigits_cons rfl), readAfterWhole,
    if_neg (by decide)]
  exact if_pos rfl

end Parts

/-! ## Whole numbers -/

/-- The digits written for a number within the limit are collected as that number. -/
theorem collectWhole_toDigits (h : n ≤ limit) :
    collectWhole ⟨0, 0, false⟩ (Nat.toDigits 10 n) = ⟨n, 0, false⟩ := by
  rw [collectWhole_eq, Nat.ofDigitChars_ten_toDigits]
  · rw [Nat.ofDigitChars_ten_toDigits]
    exact h
  · rfl

/-- **A whole number of 64 bits is read as it is written.** -/
theorem read_writeWhole {n : Int} (h : (JsonNumber.whole n).Fits) :
    read (Json.writeWhole n) = some (.whole n) := by
  obtain ⟨hleast, hgreatest⟩ := h
  have hlimit : limit = twoPow 64 - 1 := rfl
  have htwo : (0 : Int) < twoPow 63 ∧ (twoPow 63 : Int) < twoPow 64 := by decide
  have hsize : n.natAbs ≤ limit := by omega
  have hwrite : Json.writeWhole n = withSign (decide (n < 0)) (Nat.toDigits 10 n.natAbs) := by
    rw [Json.writeWhole, withSign]
    simp only [decide_eq_true_eq]
  rw [hwrite, read_digits _ (isIntegerPart_toDigits _) (isDigit_of_mem_toDigits _), readWhole,
    collectWhole_toDigits hsize]
  -- Below zero the size may be one larger than above, as the limits of the type say.
  by_cases hneg : n < 0
  · simp only [hneg, decide_true, Bool.false_eq_true, Bool.not_true, if_false]
    rw [if_neg (by omega)]
    exact congrArg (fun k => some (JsonNumber.whole k)) (by omega)
  · simp only [hneg, decide_false, Bool.false_eq_true, Bool.not_false, if_false, if_true]
    exact congrArg (fun k => some (JsonNumber.whole k)) (by omega)

section Fits

variable {negative : Bool} {number : JsonNumber}

/-- A numeral with a fraction or an exponent is read as a number that fits. -/
theorem fits_readScaled {fraction exponent : Option (List Char)}
    (h : readScaled negative whole fraction exponent = some number) : number.Fits := by
  unfold readScaled at h
  obtain ⟨power, -, h⟩ := Option.bind_eq_some_iff.mp h
  obtain ⟨x, -, rfl⟩ := Option.map_eq_some_iff.mp h
  trivial

theorem fits_readWhole (h : readWhole negative whole = some number) : number.Fits := by
  have hdigits : (collectWhole ⟨0, 0, false⟩ whole).digits ≤ limit :=
    digits_collectWhole_le (Nat.zero_le limit)
  have hlimit : limit = twoPow 64 - 1 := rfl
  have htwo : 0 < twoPow 63 ∧ twoPow 63 < twoPow 64 := by decide
  rw [readWhole] at h
  -- A number that is too long is read as a floating one, which always fits. What is left is within
  -- the limits of its sign.
  split at h
  · obtain ⟨x, -, rfl⟩ := Option.map_eq_some_iff.mp h
    trivial
  · split at h
    · rw [← Option.some.inj h]
      constructor <;> omega
    · split at h
      · rw [← Option.some.inj h]
        trivial
      · rename_i hfits
        rw [← Option.some.inj h]
        constructor <;> omega

theorem fits_readAfterFraction
    (h : readAfterFraction negative whole fraction rest = some number) : number.Fits := by
  cases rest with
  | nil =>
    rw [readAfterFraction] at h
    exact fits_readScaled h
  | cons c part =>
    rw [readAfterFraction] at h
    split at h
    · exact fits_readScaled h
    · cases h

theorem fits_readAfterWhole (h : readAfterWhole negative whole rest = some number) :
    number.Fits := by
  cases rest with
  | nil =>
    rw [readAfterWhole] at h
    exact fits_readWhole h
  | cons c part =>
    rw [readAfterWhole] at h
    split at h
    · simp only at h
      split at h
      · cases h
      · exact fits_readAfterFraction h
    · split at h
      · exact fits_readScaled h
      · cases h

/-- **Only whole numbers of 64 bits are read.** -/
theorem fits_of_read (h : read cs = some number) : number.Fits := by
  rw [read] at h
  simp only at h
  split at h
  · exact fits_readAfterWhole h
  · cases h

end Fits

end Numeral

end KeywordCensus
