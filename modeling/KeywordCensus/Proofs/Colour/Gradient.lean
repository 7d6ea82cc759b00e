import KeywordCensus.Colour.Gradient
import KeywordCensus.Proofs.Floating.Value

/-!
# Gradients keep order

Between whole bounds a gradient is a function of one rational number, the share of the way that a
number has gone from the first bound to the last (`gradient_eq_blend`). The share goes from zero to one
and grows with the number (`share_mono`), whichever of the bounds is the larger it is zero at the first
and one at the last, and a channel of the colour goes one way as the share grows (`channelAt_mono`,
`channelAt_anti`).
-/

namespace KeywordCensus

open Floating

variable {k n m low high : ℕ} {t t' : ℚ} {a b : UInt8} {first last : Colour} {x y z : Floating}

/-! ## The share of the way -/

/-- The share of the way from one bound to another that a number has gone: from zero to one, in double
precision. It is zero if there is no way to go. -/
def share (n low high : ℕ) : ℚ :=
  if high = low then 0
  else max 0 (min 1 (rounded (rounded ((n : ℚ) - low) / rounded ((high : ℚ) - low))))

theorem share_nonneg (n low high : ℕ) : 0 ≤ share n low high := by
  rw [share]
  split
  · exact le_rfl
  · exact le_max_left _ _

theorem share_le_one (n low high : ℕ) : share n low high ≤ 1 := by
  rw [share]
  split
  · exact zero_le_one
  · exact max_le zero_le_one (min_le_left _ _)

@[simp] theorem share_self (n low : ℕ) : share n low low = 0 := if_pos rfl

/-- Different whole numbers are still apart by one after rounding. -/
theorem one_le_rounded_sub (h : low < high) : 1 ≤ rounded ((high : ℚ) - low) := by
  rw [← rounded_one]
  refine rounded_mono ?_
  rw [le_sub_iff_add_le']
  exact_mod_cast h

/-- The bounds may be mirrored. -/
theorem rounded_sub_div (n low high : ℕ) :
    rounded ((n : ℚ) - low) / rounded ((high : ℚ) - low) =
      rounded ((low : ℚ) - n) / rounded ((low : ℚ) - high) := by
  rw [← neg_sub, rounded_neg, ← neg_sub (low : ℚ) high, rounded_neg, neg_div_neg_eq]

/-- The share of the way from low to high does not fall as the count climbs. -/
theorem share_mono (h : low ≤ high) (hnm : n ≤ m) : share n low high ≤ share m low high := by
  rcases h.eq_or_lt with rfl | hlt
  · rw [share_self, share_self]
  have hpos : 0 ≤ rounded ((high : ℚ) - low) := zero_le_one.trans (one_le_rounded_sub hlt)
  have hsub : (n : ℚ) - low ≤ m - low := sub_le_sub_right (by exact_mod_cast hnm) _
  rw [share, share, if_neg hlt.ne', if_neg hlt.ne']
  exact max_le_max le_rfl (min_le_min le_rfl
    (rounded_mono (div_le_div_of_nonneg_right (rounded_mono hsub) hpos)))

/-- A number on the far side of the first bound has gone no share of the way. -/
theorem share_eq_zero (h : n ≤ low ∧ low ≤ high ∨ high ≤ low ∧ low ≤ n) : share n low high = 0 := by
  have hquotient : rounded ((n : ℚ) - low) / rounded ((high : ℚ) - low) ≤ 0 := by
    have hdown : ∀ {i j : ℕ}, i ≤ j → rounded ((i : ℚ) - j) ≤ 0 := fun hij => by
      rw [← rounded_zero]
      exact rounded_mono (sub_nonpos.mpr (by exact_mod_cast hij))
    have hup : ∀ {i j : ℕ}, i ≤ j → 0 ≤ rounded ((j : ℚ) - i) := fun hij =>
      rounded_nonneg (sub_nonneg.mpr (by exact_mod_cast hij))
    rcases h with ⟨hn, hbounds⟩ | ⟨hbounds, hn⟩
    · exact div_nonpos_of_nonpos_of_nonneg (hdown hn) (hup hbounds)
    · exact div_nonpos_of_nonneg_of_nonpos (hup hn) (hdown hbounds)
  rw [share]
  split
  · rfl
  · have hzero := rounded_mono hquotient
    rw [rounded_zero] at hzero
    exact max_eq_left ((min_le_right _ _).trans hzero)

/-- A number on the far side of the last bound has gone all the way. -/
theorem share_eq_one (h : low < high ∧ high ≤ n ∨ n ≤ high ∧ high < low) : share n low high = 1 := by
  have hquotient : 1 ≤ rounded ((n : ℚ) - low) / rounded ((high : ℚ) - low) := by
    rcases h with ⟨hbounds, hn⟩ | ⟨hn, hbounds⟩
    · rw [one_le_div (zero_lt_one.trans_le (one_le_rounded_sub hbounds))]
      exact rounded_mono (sub_le_sub_right (by exact_mod_cast hn) _)
    · rw [rounded_sub_div, one_le_div (zero_lt_one.trans_le (one_le_rounded_sub hbounds))]
      exact rounded_mono (sub_le_sub_left (by exact_mod_cast hn) _)
  have hne : high ≠ low := by omega
  have hone := rounded_mono hquotient
  rw [rounded_one] at hone
  rw [share, if_neg hne, min_eq_left hone, max_eq_right zero_le_one]

/-- Up to the last bound the share grows, whichever bound is the larger. -/
theorem share_mono_of_le_high (hnm : n ≤ m) (hm : m ≤ high) :
    share n low high ≤ share m low high := by
  rcases le_or_gt low high with h | h
  · exact share_mono h hnm
  · rw [share_eq_one (.inr ⟨hnm.trans hm, h⟩), share_eq_one (.inr ⟨hm, h⟩)]

/-- From the first bound on the share grows, whichever bound is the larger. -/
theorem share_mono_of_low_le (hn : low ≤ n) (hnm : n ≤ m) :
    share n low high ≤ share m low high := by
  rcases le_or_gt low high with h | h
  · exact share_mono h hnm
  · rw [share_eq_zero (.inr ⟨h.le, hn⟩), share_eq_zero (.inr ⟨h.le, hn.trans hnm⟩)]

/-! ## Channels -/

/-- The channel that lies between two, given the share of the way. -/
def channelAt (t : ℚ) (a b : UInt8) : UInt8 :=
  UInt8.ofNat (min 255 ⌊rounded (a.toNat + rounded (((b.toNat : ℚ) - a.toNat) * t))⌋₊)

theorem rounded_toNat (a : UInt8) : rounded (a.toNat : ℚ) = a.toNat :=
  rounded_natCast (a.toNat_lt.trans (by decide))

theorem rounded_sub_toNat (a b : UInt8) :
    rounded ((b.toNat : ℚ) - a.toNat) = (b.toNat : ℚ) - a.toNat := by
  have hsmall : ((b.toNat : ℤ) - a.toNat).natAbs < 2 ^ 53 := by
    have ha := a.toNat_lt
    have hb := b.toNat_lt
    omega
  exact_mod_cast rounded_intCast hsmall

/-- A channel at a share, as a number: the interpolation of the two ends, rounded twice, cut to a
byte. -/
theorem toNat_channelAt (t : ℚ) (a b : UInt8) : (channelAt t a b).toNat =
    min 255 ⌊rounded (a.toNat + rounded (((b.toNat : ℚ) - a.toNat) * t))⌋₊ := by
  rw [channelAt, UInt8.toNat_ofNat']
  exact Nat.mod_eq_of_lt (by omega)

@[simp] theorem channelAt_zero (a b : UInt8) : channelAt 0 a b = a := by
  refine UInt8.toNat_inj.mp ?_
  have ha := a.toNat_lt
  rw [toNat_channelAt, mul_zero, rounded_zero, add_zero, rounded_toNat, Nat.floor_natCast]
  omega

@[simp] theorem channelAt_one (a b : UInt8) : channelAt 1 a b = b := by
  refine UInt8.toNat_inj.mp ?_
  have hb := b.toNat_lt
  rw [toNat_channelAt, mul_one, rounded_sub_toNat, add_sub_cancel, rounded_toNat, Nat.floor_natCast]
  omega

@[simp] theorem channelAt_self (t : ℚ) (a : UInt8) : channelAt t a a = a := by
  refine UInt8.toNat_inj.mp ?_
  have ha := a.toNat_lt
  rw [toNat_channelAt, sub_self, zero_mul, rounded_zero, add_zero, rounded_toNat, Nat.floor_natCast]
  omega

/-- What is added decides about the order of channels. -/
theorem channelAt_le (h : ((b.toNat : ℚ) - a.toNat) * t ≤ ((b.toNat : ℚ) - a.toNat) * t') :
    channelAt t a b ≤ channelAt t' a b := by
  rw [UInt8.le_iff_toNat_le, toNat_channelAt, toNat_channelAt]
  have hsum := rounded_mono (add_le_add_right (rounded_mono h) (a.toNat : ℚ))
  exact min_le_min le_rfl (Nat.floor_mono hsum)

/-- Between climbing ends a channel climbs with the share. -/
theorem channelAt_mono (hab : a ≤ b) (ht : t ≤ t') : channelAt t a b ≤ channelAt t' a b := by
  have hle : (a.toNat : ℚ) ≤ b.toNat := by exact_mod_cast UInt8.le_iff_toNat_le.mp hab
  exact channelAt_le (mul_le_mul_of_nonneg_left ht (sub_nonneg.mpr hle))

theorem channelAt_anti (hba : b ≤ a) (ht : t ≤ t') : channelAt t' a b ≤ channelAt t a b := by
  have hle : (b.toNat : ℚ) ≤ a.toNat := by exact_mod_cast UInt8.le_iff_toNat_le.mp hba
  exact channelAt_le (mul_le_mul_of_nonpos_left ht (sub_nonpos.mpr hle))

/-! ## Colours -/

/-- The colour that lies between two, given the share of the way. -/
def Colour.blend (t : ℚ) (first last : Colour) : Colour :=
  ⟨channelAt t first.red last.red, channelAt t first.green last.green,
    channelAt t first.blue last.blue⟩

@[simp] theorem Colour.blend_zero (first last : Colour) : Colour.blend 0 first last = first := by
  simp [Colour.blend]

@[simp] theorem Colour.blend_one (first last : Colour) : Colour.blend 1 first last = last := by
  simp [Colour.blend]

theorem abs_natCast_sub_le (hn : n ≤ 2 ^ k) (hm : m ≤ 2 ^ k) : |(n : ℚ) - m| ≤ 2 ^ k := by
  have hn' : (n : ℚ) ≤ 2 ^ k := by exact_mod_cast hn
  have hm' : (m : ℚ) ≤ 2 ^ k := by exact_mod_cast hm
  have := Nat.cast_nonneg (α := ℚ) n
  have := Nat.cast_nonneg (α := ℚ) m
  exact abs_le.mpr ⟨by linarith, by linarith⟩

theorem value?_byte (a : UInt8) :
    value? (Floating.ofNat .binary64 a.toNat) = some (a.toNat : ℚ) := by
  have hle : a.toNat ≤ 2 ^ 8 := a.toNat_lt.le
  rw [value?_ofNat (by decide) hle, cast_double, rounded_toNat]

section Bounds

variable (hx : value? x = some (n : ℚ)) (hy : value? y = some (low : ℚ))
  (hz : value? z = some (high : ℚ)) (hn : n ≤ 2 ^ 64) (hlow : low ≤ 2 ^ 64) (hhigh : high ≤ 2 ^ 64)

include hx hy hz hn hlow hhigh

/-- The position of a number between bounds that are apart is the share of the way. -/
theorem value?_position (hne : high ≠ low) :
    value? (position x y z) = some (share n low high) := by
  have hnum := abs_rounded_le (abs_natCast_sub_le hn hlow)
  have hden : 1 ≤ |rounded ((high : ℚ) - low)| := by
    rcases hne.lt_or_gt with hlt | hlt
    · rw [← abs_neg, ← rounded_neg, neg_sub]
      exact (one_le_rounded_sub hlt).trans (le_abs_self _)
    · exact (one_le_rounded_sub hlt).trans (le_abs_self _)
  have hquotient : |rounded ((n : ℚ) - low) / rounded ((high : ℚ) - low)| ≤ 2 ^ 64 := by
    rw [abs_div]
    exact (div_le_self (abs_nonneg _) hden).trans hnum
  have hsub := value?_sub hx hy (by decide) (abs_natCast_sub_le hn hlow)
  have hsub' := value?_sub hz hy (by decide) (abs_natCast_sub_le hhigh hlow)
  have hdiv := value?_div hsub hsub' (abs_pos.mp (zero_lt_one.trans_le hden)) (by decide) hquotient
  rw [position, value?_clampUnit hdiv, share, if_neg hne]

/-- The number at the same place between two channels is the channel there. -/
theorem mapRange_eq_channelAt (a b : UInt8) :
    UInt8.ofNat (toByte (mapRange x y z (Floating.ofNat .binary64 a.toNat)
      (Floating.ofNat .binary64 b.toNat))) = channelAt (share n low high) a b := by
  rw [mapRange]
  -- A range of one point gives its first end.
  by_cases hne : high = low
  · rw [if_pos ((eq_iff hz hy).mpr (by exact_mod_cast hne)), toByte_eq (value?_byte a), hne,
      share_self, channelAt_zero, Nat.floor_natCast, min_eq_right (Nat.le_of_lt_succ a.toNat_lt),
      UInt8.ofNat_toNat]
  -- Every intermediate value stays far below the largest number, so each operation only rounds.
  have hrange : |((b.toNat : ℚ) - a.toNat)| ≤ 2 ^ 8 :=
    abs_natCast_sub_le b.toNat_lt.le a.toNat_lt.le
  have hshare : |share n low high| ≤ 1 := by
    rw [abs_of_nonneg (share_nonneg n low high)]
    exact share_le_one n low high
  have hproduct : |((b.toNat : ℚ) - a.toNat) * share n low high| ≤ 2 ^ 8 := by
    rw [abs_mul]
    exact (mul_le_of_le_one_right (abs_nonneg _) hshare).trans hrange
  have hsum : |(a.toNat : ℚ) + rounded (((b.toNat : ℚ) - a.toNat) * share n low high)| ≤
      2 ^ 9 := by
    have ha : |(a.toNat : ℚ)| ≤ 2 ^ 8 := by
      rw [abs_of_nonneg (Nat.cast_nonneg _)]
      exact_mod_cast a.toNat_lt.le
    calc |(a.toNat : ℚ) + rounded (((b.toNat : ℚ) - a.toNat) * share n low high)|
        ≤ 2 ^ 8 + 2 ^ 8 := (abs_add_le _ _).trans (add_le_add ha (abs_rounded_le hproduct))
      _ = 2 ^ 9 := by norm_num
  have hsub := value?_sub (value?_byte b) (value?_byte a) (by decide) hrange
  rw [rounded_sub_toNat] at hsub
  have hmul := value?_mul hsub (value?_position hx hy hz hn hlow hhigh hne) (by decide) hproduct
  rw [if_neg fun h => hne (by exact_mod_cast (eq_iff hz hy).mp h),
    toByte_eq (value?_add (value?_byte a) hmul (by decide) hsum), channelAt]

/-- **A gradient is a blend at the share of the way.** -/
theorem gradient_eq_blend (first last : Colour) :
    Colour.gradient x y z first last = Colour.blend (share n low high) first last := by
  rw [Colour.gradient, Colour.blend]
  simp only [mapRange_eq_channelAt hx hy hz hn hlow hhigh]

end Bounds

end KeywordCensus
