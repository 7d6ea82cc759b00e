/-!
# Powers

The powers of the two bases of floating-point numbers and their decimals.
-/

namespace KeywordCensus

/-- A power of two. -/
def twoPow (k : Nat) : Nat := Nat.pow 2 k

/-- A power of ten. -/
def tenPow (k : Nat) : Nat := Nat.pow 10 k

theorem twoPow_pos (k : Nat) : 0 < twoPow k := Nat.pow_pos (by decide)

end KeywordCensus
