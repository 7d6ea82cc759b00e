import Mathlib.Algebra.Order.BigOperators.Group.List
import KeywordCensus.Proofs.Colour.Gradient
import KeywordCensus.Proofs.Corpus.Contribution

/-!
# The colours of a usage

A number of uses is red if it is zero, and otherwise on one of two gradients that meet at the whole part
of the mean: from orange to yellow below it, from yellow to green above. Every other number gets
greener and less red as it grows (`Usage.Shading`), also outside the numbers that occur and across the
seam.

The mean is computed in double precision. Of a large total it can fall below the least or above the
greatest number of uses, and then one of the gradients runs backwards; a number on its side of the seam
is past one end of it (`colour_below`, `colour_above`). Up to 53 bits nothing is lost and the seam is
the whole part of the exact mean.
-/

namespace KeywordCensus

namespace Usage

open Floating

variable {collection : Specification → Prop} {keyword : String} {files : List Specification}
  {u : Usage} {least greatest n m : ℕ}

/-! ## Sizes -/

/-- The numbers of a usage that has a file: none is larger than the total, which a word holds. -/
structure Sized (u : Usage) (least greatest : ℕ) : Prop where
  used : u.files.isEmpty = false
  least_eq : u.least = some least
  greatest_eq : u.greatest = some greatest
  fileCount_pos : 0 < u.fileCount
  fileCount_le : u.fileCount ≤ u.total
  least_le : least ≤ u.total
  greatest_le : greatest ≤ u.total
  total_lt : u.total < 2 ^ 64

/-- A tally of at least one positive use below the word size has the numbers its shading is computed
from. -/
theorem sized_tally {uses : SortedMap FileUse} (hpos : ∀ use ∈ uses.values, 1 ≤ use.uses)
    (hused : uses.isEmpty = false) (hword : (tally keyword uses).total < 2 ^ 64) :
    ∃ least greatest, (tally keyword uses).Sized least greatest := by
  obtain ⟨least, greatest, hleast, hgreatest, -⟩ := tally_between keyword hused
  have hcount : (tally keyword uses).fileCount = (amounts uses).length := by
    rw [amounts, List.length_map, SortedMap.values, List.length_map]
    rfl
  refine ⟨least, greatest, hused, hleast, hgreatest, ?_, ?_, ?_, ?_, hword⟩
  · rw [hcount]
    exact List.length_pos_iff.mpr fun hnil => Bool.eq_false_iff.mp hused (amounts_eq_nil.mp hnil)
  · rw [hcount]
    refine List.length_le_sum_of_one_le _ fun amount hamount => ?_
    obtain ⟨use, huse, rfl⟩ := List.mem_map.mp hamount
    exact hpos use huse
  · exact List.le_sum_of_mem (List.min?_eq_some_iff.mp hleast).1
  · exact List.le_sum_of_mem (List.max?_eq_some_iff.mp hgreatest).1

theorem sized_of_offered (h : Offered collection keyword files u) (hused : u.files.isEmpty = false)
    (hword : u.total < 2 ^ 64) : ∃ least greatest, u.Sized least greatest := by
  rw [eq_tally_of_offered h] at hused hword ⊢
  refine sized_tally (fun use huse => ?_) hused hword
  obtain ⟨key, hkey⟩ := SortedMap.mem_values.mp huse
  exact (contributions_eq_some hkey).2.2.2

/-! ## The seam -/

/-- The mean number of uses in double precision. -/
def doubleMean (u : Usage) : ℚ := nearest ((double u.total : ℚ) / double u.fileCount)

/-- The whole part of the mean, at which the gradients meet. -/
def seam (u : Usage) : ℕ := ⌊u.doubleMean⌋₊

/-- Double precision holds the seam. -/
theorem double_seam (u : Usage) : double u.seam = u.seam := by
  have hkept := nearest_floor_nearest ((double u.total : ℚ) / double u.fileCount)
  rw [← Nat.cast_inj (R := ℚ), cast_double, rounded_of_nonneg (Nat.cast_nonneg _)]
  exact hkept

namespace Sized

variable (h : u.Sized least greatest)

include h

theorem double_fileCount_pos : (0 : ℚ) < double u.fileCount := by
  exact_mod_cast one_le_double h.fileCount_pos

/-- The mean as a double is at least one: every file recorded uses the keyword, and rounding keeps
the order. -/
theorem one_le_doubleMean : 1 ≤ u.doubleMean := by
  have hle : (double u.fileCount : ℚ) ≤ double u.total := by exact_mod_cast double_mono h.fileCount_le
  have hquotient := (one_le_div h.double_fileCount_pos).mpr hle
  have hrounded := rounded_mono hquotient
  rwa [rounded_one, rounded_of_nonneg (zero_le_one.trans hquotient)] at hrounded

theorem div_le : (double u.total : ℚ) / double u.fileCount ≤ 2 ^ 64 := by
  have hcount : (1 : ℚ) ≤ double u.fileCount := by exact_mod_cast one_le_double h.fileCount_pos
  have htotal : (double u.total : ℚ) ≤ 2 ^ 64 := by exact_mod_cast double_le h.total_lt.le
  exact (div_le_self (Nat.cast_nonneg _) hcount).trans htotal

/-- The seam of the two ramps is within the range where every natural number is read off its double.
-/
theorem seam_le : u.seam ≤ 2 ^ 64 := by
  have hnonneg : (0 : ℚ) ≤ double u.total / double u.fileCount := by positivity
  have hle := nearest_mono hnonneg h.div_le
  rw [← zpow_natCast, nearest_two_zpow (by omega), zpow_natCast] at hle
  refine Nat.floor_le_of_le ?_
  exact_mod_cast hle

theorem one_le_seam : 1 ≤ u.seam := Nat.le_floor (by exact_mod_cast h.one_le_doubleMean)

/-- The mean exists, and its whole part is the seam. -/
theorem average_eq : ∃ average, u.average = .ok average ∧
    trunc .binary64 average = Floating.ofNat .binary64 u.seam := by
  have htotal : value? (Floating.ofNat .binary64 u.total) = some (double u.total : ℚ) :=
    value?_ofNat (by decide) h.total_lt.le
  have hcount : value? (Floating.ofNat .binary64 u.fileCount) = some (double u.fileCount : ℚ) :=
    value?_ofNat (by decide) (h.fileCount_le.trans h.total_lt.le)
  have hnonneg : (0 : ℚ) ≤ double u.total / double u.fileCount := by positivity
  have hquotient := value?_div htotal hcount h.double_fileCount_pos.ne' (by decide)
    ((abs_of_nonneg hnonneg).trans_le h.div_le)
  rw [rounded_of_nonneg hnonneg] at hquotient
  refine ⟨_, by rw [average, h.used, if_neg Bool.false_ne_true], ?_⟩
  exact trunc_eq_ofNat hquotient (zero_lt_one.trans_le h.one_le_doubleMean)

/-- **In 53 bits the seam is the whole part of the exact mean.** -/
theorem seam_eq_div (htotal : u.total < 2 ^ 53) : u.seam = u.total / u.fileCount := by
  rw [seam, doubleMean, double_of_lt htotal, double_of_lt (h.fileCount_le.trans_lt htotal)]
  exact floor_nearest_div h.fileCount_pos h.fileCount_le htotal

/-! ## The two gradients -/

/-- A positive number is on the gradient of its side of the seam. -/
theorem colour_eq (hn : n ≠ 0) (hle : n ≤ 2 ^ 64) : u.colour n =
    if double n < u.seam then
      Colour.blend (share (double n) (double least) u.seam) Colour.hotOrange Colour.yellow
    else Colour.blend (share (double n) u.seam (double greatest)) Colour.yellow Colour.pureGreen := by
  obtain ⟨average, haverage, htrunc⟩ := h.average_eq
  have hvalue : ∀ {i : ℕ}, i ≤ 2 ^ 64 →
      value? (Floating.ofNat .binary64 i) = some (double i : ℚ) := value?_ofNat (by decide)
  have hseam := hvalue h.seam_le
  rw [double_seam] at hseam
  have hbelow : lt (Floating.ofNat .binary64 n) (Floating.ofNat .binary64 u.seam) = true ↔
      double n < u.seam := by rw [lt_iff (hvalue hle) hseam, Nat.cast_lt]
  have hleast := h.least_le.trans h.total_lt.le
  have hgreatest := h.greatest_le.trans h.total_lt.le
  rw [colour, haverage, h.least_eq, h.greatest_eq]
  simp only [htrunc, if_neg hn, hbelow]
  rw [gradient_eq_blend (hvalue hle) (hvalue hleast) hseam (double_le hle) (double_le hleast) h.seam_le,
    gradient_eq_blend (hvalue hle) hseam (hvalue hgreatest) (double_le hle) h.seam_le
      (double_le hgreatest)]

/-- Below the seam red is full and green climbs from the hot end. -/
theorem colour_below (hn : n ≠ 0) (hle : n ≤ 2 ^ 64) (hbelow : double n < u.seam) :
    u.colour n = ⟨255, channelAt (share (double n) (double least) u.seam) 100 255, 0⟩ := by
  rw [h.colour_eq hn hle, if_pos hbelow]
  simp [Colour.blend, Colour.hotOrange, Colour.yellow]

/-- From the seam on green is full and red falls to the cold end. -/
theorem colour_above (hn : n ≠ 0) (hle : n ≤ 2 ^ 64) (habove : u.seam ≤ double n) :
    u.colour n = ⟨channelAt (share (double n) u.seam (double greatest)) 255 0, 255, 0⟩ := by
  rw [h.colour_eq hn hle, if_neg habove.not_gt]
  simp [Colour.blend, Colour.yellow, Colour.pureGreen]

theorem colour_zero : u.colour 0 = Colour.pureRed := by
  obtain ⟨average, haverage, -⟩ := h.average_eq
  rw [colour, haverage, h.least_eq, h.greatest_eq]
  rfl

end Sized

/-! ## The law of the colours -/

/-- How the colours go with the number of uses, given the least and the greatest number in a file and
the seam between the two gradients. Numbers are those that a word holds, and they are compared in double
precision. -/
structure Shading (u : Usage) (least greatest seam : ℕ) : Prop where
  /-- More uses have no more red, -/
  red : ∀ n m, n ≤ m → m < 2 ^ 64 → (u.colour m).red ≤ (u.colour n).red
  /-- no less green, -/
  green : ∀ n m, n ≤ m → m < 2 ^ 64 → (u.colour n).green ≤ (u.colour m).green
  /-- and there is no blue. -/
  blue : ∀ n, n < 2 ^ 64 → (u.colour n).blue = 0
  /-- Pure red is for no uses only. -/
  pureRed_iff : ∀ n, n < 2 ^ 64 → (u.colour n = Colour.pureRed ↔ n = 0)
  /-- The seam is yellow. -/
  yellow : u.colour seam = Colour.yellow
  /-- From the greatest number on all is green, if the seam is below it. -/
  pureGreen : Floating.lt (Floating.ofNat .binary64 seam) (Floating.ofNat .binary64 greatest) = true →
    ∀ m, greatest ≤ m → m < 2 ^ 64 → u.colour m = Colour.pureGreen
  /-- Up to the least number all is orange, if the seam is above it. -/
  hotOrange : Floating.lt (Floating.ofNat .binary64 least) (Floating.ofNat .binary64 seam) = true →
    ∀ n, 1 ≤ n → n ≤ least → u.colour n = Colour.hotOrange

theorem le_maximum (a : UInt8) : a ≤ 255 :=
  UInt8.le_iff_toNat_le.mpr (Nat.le_of_lt_succ a.toNat_lt)

namespace Sized

variable (h : u.Sized least greatest)

include h

/-- A positive number of uses lies on one side of the seam. -/
theorem below_or_above (hn : n ≠ 0) (hle : n ≤ 2 ^ 64) :
    (double n < u.seam ∧
      u.colour n = ⟨255, channelAt (share (double n) (double least) u.seam) 100 255, 0⟩) ∨
    (u.seam ≤ double n ∧
      u.colour n = ⟨channelAt (share (double n) u.seam (double greatest)) 255 0, 255, 0⟩) := by
  rcases lt_or_ge (double n) u.seam with hbelow | habove
  · exact .inl ⟨hbelow, h.colour_below hn hle hbelow⟩
  · exact .inr ⟨habove, h.colour_above hn hle habove⟩

/-- More uses never show more red. -/
theorem red_anti (hnm : n ≤ m) (hm : m ≤ 2 ^ 64) : (u.colour m).red ≤ (u.colour n).red := by
  rcases eq_or_ne n 0 with rfl | hn
  · rw [h.colour_zero]
    exact le_maximum _
  have hdouble := double_mono hnm
  rcases h.below_or_above hn (hnm.trans hm) with ⟨-, hcolour⟩ | ⟨habove, hcolour⟩
  · rw [hcolour]
    exact le_maximum _
  -- Above the seam more of the way to green has been gone.
  · rw [hcolour, h.colour_above (by omega) hm (habove.trans hdouble)]
    exact channelAt_anti (le_maximum 0) (share_mono_of_low_le habove hdouble)

/-- More uses never show less green. -/
theorem green_mono (hnm : n ≤ m) (hm : m ≤ 2 ^ 64) : (u.colour n).green ≤ (u.colour m).green := by
  rcases eq_or_ne n 0 with rfl | hn
  · rw [h.colour_zero]
    exact UInt8.le_iff_toNat_le.mpr (Nat.zero_le _)
  have hdouble := double_mono hnm
  rcases h.below_or_above (by omega) hm with ⟨hbelow, hcolour⟩ | ⟨-, hcolour⟩
  -- Below the seam more of the way to yellow has been gone.
  · rw [hcolour, h.colour_below hn (hnm.trans hm) (hdouble.trans_lt hbelow)]
    exact channelAt_mono (le_maximum 100) (share_mono_of_le_high hdouble hbelow.le)
  · rw [hcolour]
    exact le_maximum _

theorem blue_eq_zero (hle : n ≤ 2 ^ 64) : (u.colour n).blue = 0 := by
  rcases eq_or_ne n 0 with rfl | hn
  · rw [h.colour_zero]
    rfl
  rcases h.below_or_above hn hle with ⟨-, hcolour⟩ | ⟨-, hcolour⟩
  · rw [hcolour]
  · rw [hcolour]

/-- A positive number of uses has as much green as orange has. -/
theorem green_ge (hn : n ≠ 0) (hle : n ≤ 2 ^ 64) : 100 ≤ (u.colour n).green := by
  rcases h.below_or_above hn hle with ⟨-, hcolour⟩ | ⟨-, hcolour⟩
  · rw [hcolour]
    have hmono := channelAt_mono (le_maximum 100) (share_nonneg (double n) (double least) u.seam)
    rwa [channelAt_zero] at hmono
  · rw [hcolour]
    exact le_maximum 100

/-- Pure red is kept for a keyword that a file does not use. -/
theorem colour_eq_pureRed_iff (hle : n ≤ 2 ^ 64) : u.colour n = Colour.pureRed ↔ n = 0 := by
  constructor
  · intro hred
    by_contra hn
    have hgreen := h.green_ge hn hle
    rw [hred] at hgreen
    exact absurd hgreen (by decide)
  · rintro rfl
    exact h.colour_zero

theorem colour_seam : u.colour u.seam = Colour.yellow := by
  have hzero : share u.seam u.seam (double greatest) = 0 :=
    share_eq_zero ((le_total _ _).imp (⟨le_rfl, ·⟩) (⟨·, le_rfl⟩))
  rw [h.colour_eq (Nat.one_le_iff_ne_zero.mp h.one_le_seam) h.seam_le, double_seam,
    if_neg (lt_irrefl _), hzero, Colour.blend_zero]

/-- Comparing a count with the seam as doubles is comparing the double of the count with the seam.
-/
theorem lt_seam_iff (hle : n ≤ 2 ^ 64) :
    lt (Floating.ofNat .binary64 n) (Floating.ofNat .binary64 u.seam) = true ↔ double n < u.seam := by
  rw [lt_ofNat_iff (by decide) hle h.seam_le, double_seam]

theorem seam_lt_iff (hle : n ≤ 2 ^ 64) :
    lt (Floating.ofNat .binary64 u.seam) (Floating.ofNat .binary64 n) = true ↔ u.seam < double n := by
  rw [lt_ofNat_iff (by decide) h.seam_le hle, double_seam]

/-- **The colours follow the law.** -/
theorem shading : u.Shading least greatest u.seam := by
  have hleast := h.least_le.trans h.total_lt.le
  have hgreatest := h.greatest_le.trans h.total_lt.le
  constructor
  case red => exact fun n m hnm hm => h.red_anti hnm hm.le
  case green => exact fun n m hnm hm => h.green_mono hnm hm.le
  case blue => exact fun n hn => h.blue_eq_zero hn.le
  case pureRed_iff => exact fun n hn => h.colour_eq_pureRed_iff hn.le
  case yellow => exact h.colour_seam
  case pureGreen =>
    -- Past the greatest count the second ramp has ended.
    intro hseam m hm hword
    have hbelow := (h.seam_lt_iff hgreatest).mp hseam
    have hdouble := double_mono hm
    have hne : m ≠ 0 := by
      rintro rfl
      rw [double_of_lt (by decide : 0 < 2 ^ 53)] at hdouble
      omega
    rw [h.colour_eq hne hword.le, if_neg (hbelow.le.trans hdouble).not_gt,
      share_eq_one (.inl ⟨hbelow, hdouble⟩), Colour.blend_one]
  case hotOrange =>
    -- Up to the least count the first ramp has not begun.
    intro hseam n hpos hn
    have habove := (h.lt_seam_iff hleast).mp hseam
    have hdouble := double_mono hn
    rw [h.colour_eq (by omega) (hn.trans hleast), if_pos (hdouble.trans_lt habove),
      share_eq_zero (.inl ⟨hdouble, habove.le⟩), Colour.blend_zero]

/-- In 53 bits the seam is compared exactly. -/
theorem exact_of_lt (htotal : u.total < 2 ^ 53) : u.seam = u.total / u.fileCount ∧
    (lt (Floating.ofNat .binary64 u.seam) (Floating.ofNat .binary64 greatest) = true ↔
      u.seam < greatest) ∧
    (lt (Floating.ofNat .binary64 least) (Floating.ofNat .binary64 u.seam) = true ↔
      least < u.seam) := by
  refine ⟨h.seam_eq_div htotal, ?_, ?_⟩
  · rw [h.seam_lt_iff (h.greatest_le.trans h.total_lt.le),
      double_of_lt (h.greatest_le.trans_lt htotal)]
  · rw [h.lt_seam_iff (h.least_le.trans h.total_lt.le), double_of_lt (h.least_le.trans_lt htotal)]

end Sized

/-- **More uses are greener and less red, and red means unused.** The seam of the colours of a usage
with a file, whose total a word holds, is the whole part of its mean: in double precision, and up to 53
bits exactly. -/
theorem shades_of_offered (h : Offered collection keyword files u) (hused : u.files.isEmpty = false)
    (hword : u.total < 2 ^ 64) :
    ∃ least greatest seam average, u.least = some least ∧ u.greatest = some greatest ∧
      u.average = .ok average ∧ value? (trunc .binary64 average) = some ((seam : ℕ) : ℚ) ∧
      u.Shading least greatest seam ∧
      (u.total < 2 ^ 53 → seam = u.total / u.fileCount ∧
        (lt (Floating.ofNat .binary64 seam) (Floating.ofNat .binary64 greatest) = true ↔
          seam < greatest) ∧
        (lt (Floating.ofNat .binary64 least) (Floating.ofNat .binary64 seam) = true ↔
          least < seam)) := by
  obtain ⟨least, greatest, hsized⟩ := sized_of_offered h hused hword
  obtain ⟨average, haverage, htrunc⟩ := hsized.average_eq
  refine ⟨least, greatest, u.seam, average, hsized.least_eq, hsized.greatest_eq, haverage, ?_,
    hsized.shading, hsized.exact_of_lt⟩
  rw [htrunc, value?_ofNat (by decide) hsized.seam_le, double_seam]

/-- A specification that uses a keyword a number of times. -/
def spreadFile (path : String) (uses : ℕ) : Specification :=
  let tree : Json := .array (List.replicate uses (.object [("find", .null)]))
  ⟨⟨path⟩, tree, countKeys SortedMap.empty tree, uses, none⟩

/-- Two usages that share a file are merged; the numbers of uses are two, five and eight. -/
def spreadUsage : Usage :=
  (ofFiles "find" [spreadFile "/a.essence" 2, spreadFile "/b.essence" 5]).merge
    (ofFiles "find" [spreadFile "/b.essence" 5, spreadFile "/c.essence" 8])

theorem shades_spreadUsage :
    (spreadUsage.least = some 2 ∧ spreadUsage.greatest = some 8 ∧ spreadUsage.total = 15 ∧
      spreadUsage.fileCount = 3) ∧
    spreadUsage.Shading 2 8 5 ∧ spreadUsage.colour 2 = Colour.hotOrange ∧
    spreadUsage.colour 5 = Colour.yellow ∧ spreadUsage.colour 8 = Colour.pureGreen := by
  have hlist : ∀ fs : List Specification,
      Offered (fun _ => True) "find" fs (ofFiles "find" fs) := fun _ =>
    offered_ofFiles fun _ _ => trivial
  have hnumbers : spreadUsage.least = some 2 ∧ spreadUsage.greatest = some 8 ∧
      spreadUsage.total = 15 ∧ spreadUsage.fileCount = 3 := by decide +kernel
  have hused : spreadUsage.files.isEmpty = false := by decide +kernel
  obtain ⟨hleast, hgreatest, htotal, hcount⟩ := hnumbers
  obtain ⟨least, greatest, seam, average, hlo, hhi, -, -, hshading, hexact⟩ :=
    shades_of_offered (.merge (hlist _) (hlist _) (mergesTo_merge _ _) : Offered _ _ _ spreadUsage)
      hused (by rw [htotal]; decide)
  obtain ⟨hseam, habove, hbelow⟩ := hexact (by rw [htotal]; decide)
  rw [hleast] at hlo
  rw [hgreatest] at hhi
  rw [htotal, hcount] at hseam
  cases hlo
  cases hhi
  cases hseam
  exact ⟨⟨hleast, hgreatest, htotal, hcount⟩, hshading,
    hshading.hotOrange (hbelow.mpr (by decide)) 2 (by decide) (by decide), hshading.yellow,
    hshading.pureGreen (habove.mpr (by decide)) 8 (by decide) (by decide)⟩

end Usage

end KeywordCensus
