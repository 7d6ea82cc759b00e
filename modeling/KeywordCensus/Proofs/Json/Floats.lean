import KeywordCensus.Json.Printer
import KeywordCensus.Proofs.Floating.Decimals
import KeywordCensus.Proofs.Json.Numerals

/-!
# Written floating-point numbers can be read

The text of a floating-point number is a numeral, with a fraction, an exponent or both. It is read
unless scaling makes it infinite, and that takes a power of ten that no number of moderate size is
written with: the digits before the point are few, and so is what an exponent says
(`isSome_read_writeFloating`). What it is read as need not be the number that was written.
-/

namespace KeywordCensus.Numeral

variable {cs whole fraction part : List Char} {acc : Significand} {digits n : Nat} {exponent : Int}

/-! ## Scaling -/

/-- **What is scaled by a moderate power of ten stays finite.** -/
theorem isSome_scale (hdigits : digits ≤ limit) (hexponent : exponent ≤ 30) :
    (scale digits exponent).isSome = true := by
  rw [scale]
  -- Only scaling up can leave the range, and the exponent is small.
  split
  · split <;> rfl
  · split
    · rfl
    · split
      · omega
      · have hten : tenPow exponent.toNat ≤ 2 ^ 100 :=
          Nat.le_trans (Nat.pow_le_pow_right (by decide) (by omega : exponent.toNat ≤ 30)) (by decide)
        obtain ⟨s, m, e, hproduct, -⟩ := Floating.atMost_mul
          (Floating.atMost_ofNat (Nat.le_trans hdigits (by decide : limit ≤ 2 ^ 64)) (by decide))
          (Floating.atMost_ofNat hten (by decide)) (by decide)
        rw [powerOfTen, hproduct]
        rfl

/-- A digit that is left out raises the power of ten by one. -/
theorem exponent_collectWhole_le (acc : Significand) (cs : List Char) :
    (collectWhole acc cs).exponent ≤ acc.exponent + cs.length := by
  induction cs generalizing acc with
  | nil => rw [collectWhole, List.length_nil]; omega
  | cons c rest ih =>
    rw [collectWhole, List.length_cons]
    split
    · have hrest := ih ⟨acc.digits, acc.exponent + 1, true⟩
      simp only at hrest
      omega
    · have hrest := ih ⟨acc.digits * 10 + digitValue c, acc.exponent, false⟩
      simp only at hrest
      omega

/-- What is collected fits, and the power of ten is at most the number of digits before the point. -/
theorem collect_le (whole : List Char) (fraction : Option (List Char)) :
    (collect whole fraction).digits ≤ limit ∧ (collect whole fraction).exponent ≤ whole.length := by
  have hwhole := exponent_collectWhole_le ⟨0, 0, false⟩ whole
  have hdigits : (collectWhole ⟨0, 0, false⟩ whole).digits ≤ limit :=
    digits_collectWhole_le (Nat.zero_le limit)
  rw [Int.zero_add] at hwhole
  cases fraction with
  | none => exact ⟨hdigits, hwhole⟩
  | some fraction =>
    exact ⟨digits_collectFraction_le hdigits,
      Int.le_trans (exponent_collectFraction_le _ fraction) hwhole⟩

/-- A numeral is read if its integer part is not long and its exponent not great. -/
theorem isSome_readScaled {negative : Bool} {fraction exponent : Option (List Char)} {power : Int}
    (hpower : power? exponent = some power) (hsmall : whole.length + power ≤ 30) :
    (readScaled negative whole fraction exponent).isSome = true := by
  obtain ⟨hdigits, hexponent⟩ := collect_le whole fraction
  have hscale := isSome_scale hdigits
    (by omega : (collect whole fraction).exponent + power ≤ 30)
  rw [readScaled, hpower]
  show ((scale _ _).map _).isSome = true
  rw [Option.isSome_map, hscale]

/-! ## Exponents -/

/-- The digits of a number are read as the number. -/
theorem readDigits_toDigits (n : Nat) : readDigits (Nat.toDigits 10 n) = some n := by
  have hvalid : ¬ ((Nat.toDigits 10 n).isEmpty = true ∨
      (!(Nat.toDigits 10 n).all Char.isDigit) = true) := by
    have hall : (Nat.toDigits 10 n).all Char.isDigit = true :=
      List.all_eq_true.mpr (isDigit_of_mem_toDigits n)
    rw [hall]
    rintro (hempty | hcontra)
    · exact Nat.toDigits_ne_nil (List.isEmpty_iff.mp hempty)
    · cases hcontra
  have hvalue : (Nat.toDigits 10 n).foldl (fun n c => n * 10 + digitValue c) 0 = n := by
    have hstep : (fun n c => n * 10 + digitValue c) = fun n c => 10 * n + (c.toNat - '0'.toNat) := by
      funext n c
      rw [Nat.mul_comm, digitValue]
    rw [hstep, ← Nat.ofDigitChars_eq_foldl, Nat.ofDigitChars_ten_toDigits]
  rw [readDigits, if_neg hvalid, hvalue]

/-- A written exponent is read as the exponent. -/
theorem readExponent_write (place : Int) :
    readExponent ((if place < 0 then '-' else '+') :: Nat.toDigits 10 place.natAbs) =
      some place := by
  by_cases hneg : place < 0
  · have hvalue : Int.negOfNat place.natAbs = place := by
      rw [Int.negOfNat_eq, Int.ofNat_eq_natCast]
      omega
    rw [if_pos hneg, readExponent, readDigits_toDigits, Option.map_some, hvalue]
  · have hvalue : Int.ofNat place.natAbs = place := by
      rw [Int.ofNat_eq_natCast]
      omega
    rw [if_neg hneg, readExponent, readDigits_toDigits, Option.map_some, hvalue]

/-! ## Texts -/

/-- Can a numeral be read, with any sign? -/
def Reads (cs : List Char) : Prop := ∀ negative, (read (withSign negative cs)).isSome = true

section Parts

variable (hwhole : isIntegerPart whole = true) (hdigits : ∀ c ∈ whole, c.isDigit = true)

include hwhole hdigits

/-- Digits, a point and digits are read, as long as the whole part is short. -/
theorem reads_fraction (hfraction : ∀ c ∈ fraction, c.isDigit = true) (hne : fraction ≠ [])
    (hsmall : whole.length ≤ 30) : Reads (whole ++ '.' :: fraction) := by
  intro negative
  rw [read_fraction negative hwhole hdigits hfraction hne]
  exact isSome_readScaled rfl (by omega)

/-- A numeral with an exponent is read, as long as the point stays where the digits fit. -/
theorem reads_exponent {place : Int} (hfraction : ∀ c ∈ fraction, c.isDigit = true)
    (hsmall : whole.length + place ≤ 30) :
    Reads (whole ++ (if fraction.isEmpty then [] else '.' :: fraction) ++ 'e' ::
      (if place < 0 then '-' else '+') :: Nat.toDigits 10 place.natAbs) := by
  intro negative
  by_cases hempty : fraction.isEmpty = true
  · rw [if_pos hempty, List.append_nil, read_exponent negative hwhole hdigits]
    exact isSome_readScaled (readExponent_write place) hsmall
  · rw [if_neg hempty, read_fraction_exponent negative hwhole hdigits hfraction
      fun hnil => hempty (List.isEmpty_iff.mpr hnil)]
    exact isSome_readScaled (readExponent_write place) hsmall

end Parts

/-- The first digits of a positive number are an integer part, and so are more digits behind them. -/
theorem isIntegerPart_take (hn : n ≠ 0) {k : Nat} (hk : 0 < k) (more : List Char)
    (hmore : ∀ c ∈ more, c.isDigit = true) :
    isIntegerPart ((Nat.toDigits 10 n).take k ++ more) = true ∧
      ∀ c ∈ (Nat.toDigits 10 n).take k ++ more, c.isDigit = true := by
  have hall : ∀ c ∈ (Nat.toDigits 10 n).take k ++ more, c.isDigit = true := fun c hc =>
    (List.mem_append.mp hc).elim (fun h => isDigit_of_mem_toDigits n c (List.mem_of_mem_take h))
      (hmore c)
  refine ⟨?_, hall⟩
  obtain ⟨c, rest, hcons, hc⟩ := toDigits_eq_cons (Nat.pos_of_ne_zero hn)
  obtain ⟨k, rfl⟩ := Nat.exists_eq_succ_of_ne_zero (Nat.pos_iff_ne_zero.mp hk)
  rw [hcons, List.take_succ_cons, List.cons_append] at hall ⊢
  exact isIntegerPart_cons hc hall

theorem isDigit_replicate (k : Nat) : ∀ c ∈ List.replicate k '0', c.isDigit = true := by
  intro c hc
  rw [List.eq_of_mem_replicate hc]
  rfl

/-- A decimal whose first digit is not far before the point is written so that it can be read. -/
theorem reads_writePositional (hn : n ≠ 0) (hsmall : (Nat.toDigits 10 n).length + exponent ≤ 30) :
    Reads (DecimalStyle.json.writePositional (Nat.toDigits 10 n) exponent) := by
  have hdigits := isDigit_of_mem_toDigits n
  have hlength : 0 < (Nat.toDigits 10 n).length := Nat.length_toDigits_pos
  rw [DecimalStyle.writePositional]
  -- The point stands before the digits, behind them, or between two of them.
  split
  · have hfraction : ∀ c ∈ List.replicate (-((Nat.toDigits 10 n).length + exponent)).toNat '0' ++
        Nat.toDigits 10 n, c.isDigit = true := fun c hc =>
      (List.mem_append.mp hc).elim (isDigit_replicate _ c) (hdigits c)
    exact reads_fraction (rfl : isIntegerPart ['0'] = true) (isDigit_replicate 1) hfraction
      (List.append_ne_nil_of_right_ne_nil _ Nat.toDigits_ne_nil) (by decide)
  · split
    · rename_i hwhole
      obtain ⟨hinteger, hall⟩ := isIntegerPart_take hn hlength
        (List.replicate exponent.toNat '0') (isDigit_replicate _)
      rw [List.take_length] at hinteger hall
      refine reads_fraction hinteger hall (isDigit_replicate 1) (by decide) ?_
      rw [List.length_append, List.length_replicate]
      omega
    · rename_i hpoint hwhole
      obtain ⟨hinteger, hall⟩ := isIntegerPart_take hn
        (by omega : 0 < ((Nat.toDigits 10 n).length + exponent).toNat) [] (List.forall_mem_nil _)
      rw [List.append_nil] at hinteger hall
      refine reads_fraction hinteger hall (fun c hc => hdigits c (List.mem_of_mem_drop hc)) ?_ ?_
      · rw [ne_eq, List.drop_eq_nil_iff]
        omega
      · rw [List.length_take]
        omega

theorem reads_writeScientific (hn : n ≠ 0) {place : Int} (hsmall : place ≤ 29) :
    Reads (DecimalStyle.writeScientific (Nat.toDigits 10 n) place) := by
  obtain ⟨hinteger, hall⟩ := isIntegerPart_take hn Nat.one_pos [] (List.forall_mem_nil _)
  rw [List.append_nil] at hinteger hall
  refine reads_exponent hinteger hall
    (fun c hc => isDigit_of_mem_toDigits n c (List.mem_of_mem_drop hc)) ?_
  rw [List.length_take]
  omega

/-- **A decimal whose first digit does not stand too high is written so that it can be read.** -/
theorem reads_write {d : Decimal} (h : d.digits ≠ 0 → d.leading ≤ 29) :
    Reads (DecimalStyle.json.write d) := by
  rw [DecimalStyle.write]
  split
  · exact reads_fraction (rfl : isIntegerPart ['0'] = true) (isDigit_replicate 1) (isDigit_replicate 1)
      (by decide) (by decide)
  · rename_i hdigits
    have hleading := h hdigits
    rw [Decimal.leading, Decimal.length] at hleading
    simp only [DecimalStyle.json]
    split
    · exact reads_writePositional hdigits (by omega)
    · exact reads_writeScientific hdigits (by omega)

/-- **A written number of moderate size can be read.** -/
theorem isSome_read_writeFloating {x : Floating} {k : Nat} (h : Floating.AtMost k x) (hk : k ≤ 90) :
    (read (DecimalStyle.json.writeFloating .binary64 x)).isSome = true := by
  obtain ⟨negative, m, e, rfl, hm⟩ := h
  have hread : Reads (DecimalStyle.json.write
      (if m = 0 then ⟨0, 0⟩ else Decimal.shortest .binary64 m e)) := by
    refine reads_write fun hdigits => ?_
    -- Zero has no digits to place. Any other number has its first digit where the bound says.
    by_cases hzero : m = 0
    · rw [if_pos hzero] at hdigits
      exact absurd rfl hdigits
    · rw [if_neg hzero] at hdigits ⊢
      exact Decimal.leading_le hdigits (Decimal.atMost_shortest hm .binary64)
        (Nat.lt_of_le_of_lt (Nat.pow_le_pow_right (by decide) (Nat.succ_le_succ hk)) (by decide))
  have hwrite : DecimalStyle.json.writeFloating .binary64 (.finite negative m e) =
      withSign negative (DecimalStyle.json.write
        (if m = 0 then ⟨0, 0⟩ else Decimal.shortest .binary64 m e)) := by
    cases negative <;> rfl
  rw [hwrite]
  exact hread negative

end KeywordCensus.Numeral
