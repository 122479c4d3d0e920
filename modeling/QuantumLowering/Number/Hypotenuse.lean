namespace QuantumLowering

namespace Hypotenuse

/-- The root of the sum of two squares. The rounded root is mended by the error of its square, which
is written in differences of near numbers so that it comes out without loss. -/
def ofLegs (long short : Float) : Float :=
  let h := (long * long + short * short).sqrt
  let error :=
    if h ≤ 2 * short then
      let d := h - short
      long * (2 * d - long) + (d - 2 * (long - short)) * d
    else
      let d := h - long
      2 * d * (long - 2 * short) + ((4 * d - short) * short + d * d)
  h - error / (2 * h)

def upperLimit : Float := Float.scaleB 1 511

def lowerLimit : Float := Float.scaleB 1 (-459)

def scale : Float := Float.scaleB 1 600

def lostPart : Float := Float.scaleB 1 (-54)

def ofSorted (long short : Float) : Float :=
  if short ≤ long * lostPart then long + short
  else if upperLimit < long then ofLegs (long / scale) (short / scale) * scale
  else if short < lowerLimit then ofLegs (long * scale) (short * scale) / scale
  else ofLegs long short

end Hypotenuse

def hypotenuse (x y : Float) : Float :=
  let x := x.abs
  let y := y.abs
  if x < y then Hypotenuse.ofSorted y x else Hypotenuse.ofSorted x y

end QuantumLowering
