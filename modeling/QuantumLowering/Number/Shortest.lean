import QuantumLowering.Number.Binary64

/-!
The decimal with the fewest digits that reads back as a given binary64 number and, among those, the
nearest to it. Of two equally near ones a tie decides.
-/

namespace QuantumLowering.Binary64

structure Decimal where
  digits : Nat
  exponent : Int
deriving DecidableEq, Repr

def digitCount (n : Nat) : Nat := (Nat.toDigits 10 n).length

def decimalOrder (num den : Nat) : Int :=
  if den ≤ num then (digitCount (num / den) : Int) - 1
  else -(digitCount ((den - 1) / num) : Int)

def ratio (x : Binary64) : Nat × Nat :=
  if 0 ≤ x.scale then (x.significand <<< x.scale.toNat, 1)
  else (x.significand, 1 <<< (-x.scale).toNat)

def exactDecimal (x : Binary64) : Decimal :=
  if 0 ≤ x.scale then ⟨x.significand <<< x.scale.toNat, 0⟩
  else ⟨x.significand * Nat.pow 5 (-x.scale).toNat, x.scale⟩

def gridNeighbours (tie : Tie) (num den : Nat) (e : Int) : List Decimal :=
  let (n, d) :=
    if 0 ≤ e then (num, den * Nat.pow 10 e.toNat) else (num * Nat.pow 10 (-e).toNat, den)
  let low := n / d
  let near := roundQuotient tie n d
  let far := if near = low then low + 1 else low
  [⟨near, e⟩, ⟨far, e⟩]

def readsBack (x : Binary64) (d : Decimal) : Bool :=
  ofDecimal? x.negative d.digits d.exponent = some x

/-- Tries the power of ten above the number, then grids of one digit, two digits and so on;
seventeen always suffice. -/
def shortest (tie : Tie) (x : Binary64) : Decimal :=
  let (num, den) := x.ratio
  let order := decimalOrder num den
  let grids := (List.range 18).map fun (n : Nat) => gridNeighbours tie num den (order + 1 - n)
  (grids.flatten.find? x.readsBack).getD x.exactDecimal

end QuantumLowering.Binary64
