import KeywordCensus.Colour.Basic

/-!
# Gradients

A number between two bounds is sent to the number at the same place between two others, and a colour
channel by channel. All arithmetic is double-precision.
-/

namespace KeywordCensus

/-- Where `x` lies between two bounds, as a number from zero to one. -/
def position (x low high : Floating) : Floating :=
  Floating.clampUnit
    (Floating.div .binary64 (Floating.sub .binary64 x low) (Floating.sub .binary64 high low))

/-- The number that lies between `outLow` and `outHigh` as `x` does between `low` and `high`. Equal
bounds give `outLow`. -/
def mapRange (x low high outLow outHigh : Floating) : Floating :=
  if Floating.eq high low then outLow
  else
    Floating.add .binary64 outLow
      (Floating.mul .binary64 (Floating.sub .binary64 outHigh outLow) (position x low high))

namespace Colour

/-- The colour that lies between two as `x` does between two bounds. -/
def gradient (x low high : Floating) (first last : Colour) : Colour :=
  let channel (a b : UInt8) : UInt8 :=
    UInt8.ofNat (Floating.toByte (mapRange x low high (Floating.ofNat .binary64 a.toNat)
      (Floating.ofNat .binary64 b.toNat)))
  ⟨channel first.red last.red, channel first.green last.green, channel first.blue last.blue⟩

end Colour

end KeywordCensus
