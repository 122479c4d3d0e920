/-!
Finite binary64 numbers as exact data: a sign and a place on the ladder of magnitudes. Reading a
decimal rounds once, exactly, to the nearest number with ties to the even place. A float may also
hold an infinity or a NaN.
-/

namespace QuantumLowering

def Binary64.limit : Nat := 0x7FF0000000000000

def Binary64.binade : Nat := 0x10000000000000

/-- A finite binary64 number. Its magnitude counts the representable magnitudes below it, so that
the exponent and fraction fields are the high and the low part of the count. -/
structure Binary64 where
  negative : Bool
  magnitude : Nat
  finite : magnitude < Binary64.limit
deriving DecidableEq, Repr

namespace Binary64

def zero (negative : Bool) : Binary64 := ⟨negative, 0, by decide⟩

instance : Inhabited Binary64 := ⟨zero false⟩

def bits (x : Binary64) : Nat :=
  (if x.negative then 0x8000000000000000 else 0) + x.magnitude

/-- The number is `significand * 2 ^ scale`, up to its sign. -/
def significand (x : Binary64) : Nat :=
  if x.magnitude < binade then x.magnitude else x.magnitude % binade + binade

def scale (x : Binary64) : Int :=
  if x.magnitude < binade then -1074 else (x.magnitude / binade : Nat) - 1075

def agrees (x y : Binary64) : Bool :=
  x.magnitude == y.magnitude && (x.negative == y.negative || x.magnitude == 0)

inductive Tie where
  | toEven
  | up
deriving DecidableEq, Repr, Inhabited

def roundQuotient (tie : Tie) (num den : Nat) : Nat :=
  let low := num / den
  let twice := 2 * (num % den)
  if twice < den then low
  else if den < twice then low + 1
  else
    match tie with
    | .toEven => if low % 2 = 0 then low else low + 1
    | .up => low + 1

def binaryOrder (num den : Nat) : Int :=
  let k : Int := (num.log2 : Int) - (den.log2 : Int)
  let reaches := if 0 ≤ k then den <<< k.toNat ≤ num else den ≤ num <<< (-k).toNat
  if reaches then k else k - 1

def nearestPlace (num den : Nat) : Nat :=
  let q : Int := max (binaryOrder num den - 52) (-1074)
  let steps :=
    if 0 ≤ q then roundQuotient .toEven num (den <<< q.toNat)
    else roundQuotient .toEven (num <<< (-q).toNat) den
  (q + 1074).toNat * binade + steps

def ofRatio? (negative : Bool) (num den : Nat) : Option Binary64 :=
  let place := nearestPlace num den
  if h : place < limit then some ⟨negative, place, h⟩ else none

/-- The number nearest to `coefficient * 10 ^ exponent`, if that is finite. Exponents so large or so
small that the outcome is plain are settled without forming the power. -/
def ofDecimal? (negative : Bool) (coefficient : Nat) (exponent : Int) : Option Binary64 :=
  if coefficient = 0 then some (zero negative)
  else if 400 < exponent then none
  else if (coefficient.log2 : Int) + 1 + exponent < -400 then some (zero negative)
  else if 0 ≤ exponent then ofRatio? negative (coefficient * Nat.pow 10 exponent.toNat) 1
  else ofRatio? negative coefficient (Nat.pow 10 (-exponent).toNat)

def toFloat (x : Binary64) : Float := Float.ofBits (UInt64.ofNat x.bits)

end Binary64

/-- What a float holds. Nothing reads the sign or the payload of a NaN, so there is one. -/
inductive FloatValue where
  | finite (number : Binary64)
  | infinite (negative : Bool)
  | nan
deriving DecidableEq, Repr

namespace FloatValue

instance : Inhabited FloatValue := ⟨.finite (.zero false)⟩

def isFinite : FloatValue → Bool
  | .finite _ => true
  | _ => false

def isNaN : FloatValue → Bool
  | .nan => true
  | _ => false

/-- Numeric equality: a NaN equals nothing, not even itself. -/
def agrees : FloatValue → FloatValue → Bool
  | .finite x, .finite y => x.agrees y
  | .infinite x, .infinite y => x == y
  | _, _ => false

end FloatValue

end QuantumLowering
