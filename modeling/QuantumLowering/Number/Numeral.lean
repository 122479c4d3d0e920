import QuantumLowering.Number.Shortest

namespace QuantumLowering

/-- A written number: an optional sign, digits, digits after the point (none without a point), and
an optional power of ten. -/
structure Numeral where
  negative : Bool
  whole : Nat
  fraction : List Char
  exponent : Option Int
deriving DecidableEq, Repr

namespace Numeral

def ofNat (n : Nat) : Numeral := ⟨false, n, [], none⟩

def ofInt (n : Int) : Numeral := ⟨n < 0, n.natAbs, [], none⟩

def isIntegral (n : Numeral) : Bool := n.fraction.isEmpty && n.exponent.isNone

def digitsValue (start : Nat) (digits : List Char) : Nat :=
  digits.foldl (fun value c => 10 * value + (c.toNat - '0'.toNat)) start

def coefficient (n : Numeral) : Nat := digitsValue n.whole n.fraction

def power (n : Numeral) : Int := n.exponent.getD 0 - n.fraction.length

def toInt? (n : Numeral) : Option Int :=
  if n.isIntegral && !(n.negative && n.whole == 0) then
    some (if n.negative then -n.whole else n.whole)
  else none

def toBinary64? (n : Numeral) : Option Binary64 :=
  Binary64.ofDecimal? n.negative n.coefficient n.power

def text (plus : Bool) (n : Numeral) : String :=
  let sign := if n.negative then "-" else ""
  let point := if n.fraction.isEmpty then "" else "." ++ String.ofList n.fraction
  let power := match n.exponent with
    | none => ""
    | some e =>
      "e" ++ (if e < 0 then "-" else if plus then "+" else "") ++ Nat.repr e.natAbs
  sign ++ Nat.repr n.whole ++ point ++ power

end Numeral

/-- How a number is written: in positional notation from `10 ^ least` up to and below `10 ^ most`,
and with the last digit that `tie` gives where two are equally near. -/
structure NumeralStyle where
  least : Int
  most : Int
  tie : Binary64.Tie
deriving Repr

namespace NumeralStyle

def document : NumeralStyle := ⟨-5, 16, .toEven⟩

def listing : NumeralStyle := ⟨-4, 16, .up⟩

def positional (negative : Bool) (digits : List Char) (order : Int) : Numeral :=
  if order < 0 then
    ⟨negative, 0, List.replicate (-order - 1).toNat '0' ++ digits, none⟩
  else
    let places := order.toNat + 1
    let whole := digits.take places ++ List.replicate (places - digits.length) '0'
    let fraction := digits.drop places
    ⟨negative, Numeral.digitsValue 0 whole, if fraction.isEmpty then ['0'] else fraction, none⟩

def scientific (negative : Bool) (digits : List Char) (order : Int) : Numeral :=
  ⟨negative, Numeral.digitsValue 0 (digits.take 1), digits.drop 1, some order⟩

def numeral (style : NumeralStyle) (x : Binary64) : Numeral :=
  if x.magnitude = 0 then ⟨x.negative, 0, ['0'], none⟩
  else
    let decimal := x.shortest style.tie
    let digits := Nat.toDigits 10 decimal.digits
    let order := decimal.exponent + digits.length - 1
    if style.least ≤ order ∧ order < style.most then positional x.negative digits order
    else scientific x.negative digits order

end NumeralStyle

end QuantumLowering
