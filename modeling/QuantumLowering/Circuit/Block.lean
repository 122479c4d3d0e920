import QuantumLowering.Circuit.Error
import QuantumLowering.Number.Hypotenuse

namespace QuantumLowering

structure Amplitude (R : Type) where
  re : R
  im : R
deriving DecidableEq, Repr, Inhabited

/-- The numbers amplitudes are made of, and when two amplitudes count as the same. -/
class AmplitudeScalar (R : Type) extends Zero R, One R, Add R, Sub R, Mul R, Neg R where
  near : Amplitude R → Amplitude R → Bool

namespace Amplitude

variable {R : Type} [AmplitudeScalar R]

instance : Zero (Amplitude R) := ⟨⟨0, 0⟩⟩

instance : One (Amplitude R) := ⟨⟨1, 0⟩⟩

instance : Add (Amplitude R) := ⟨fun a b => ⟨a.re + b.re, a.im + b.im⟩⟩

instance : Mul (Amplitude R) :=
  ⟨fun a b => ⟨a.re * b.re - a.im * b.im, a.re * b.im + a.im * b.re⟩⟩

def conj (a : Amplitude R) : Amplitude R := ⟨a.re, -a.im⟩

end Amplitude

structure Block (R : Type) where
  a : Amplitude R
  b : Amplitude R
  c : Amplitude R
  d : Amplitude R
deriving DecidableEq, Repr, Inhabited

namespace Block

variable {R : Type} [AmplitudeScalar R]

def identity : Block R := ⟨1, 0, 0, 1⟩

def x : Block R := ⟨0, 1, 1, 0⟩

def z : Block R := ⟨1, 0, 0, ⟨-1, 0⟩⟩

instance : Mul (Block R) :=
  ⟨fun s t => ⟨s.a * t.a + s.b * t.c, s.a * t.b + s.b * t.d,
    s.c * t.a + s.d * t.c, s.c * t.b + s.d * t.d⟩⟩

def dagger (s : Block R) : Block R := ⟨s.a.conj, s.c.conj, s.b.conj, s.d.conj⟩

def near (s t : Block R) : Bool :=
  AmplitudeScalar.near s.a t.a && AmplitudeScalar.near s.b t.b &&
    AmplitudeScalar.near s.c t.c && AmplitudeScalar.near s.d t.d

def isIdentity (s : Block R) : Bool := s.near identity

end Block

instance : AmplitudeScalar Float where
  zero := 0
  one := 1
  near a b := hypotenuse (a.re - b.re) (a.im - b.im) < 1e-10

namespace Block

def h : Block Float :=
  let s := 1 / Float.sqrt 2
  ⟨⟨s, 0⟩, ⟨s, 0⟩, ⟨s, 0⟩, ⟨-s, 0⟩⟩

def r1 (theta : Float) : Block Float := ⟨1, 0, 0, ⟨1 * theta.cos, 1 * theta.sin⟩⟩

def named (name : String) (params : List Float) : Except CircuitError (Block Float) :=
  match name, params with
  | "X", [] => .ok x
  | "H", [] => .ok h
  | "Z", [] => .ok z
  | "R1", [theta] => .ok (r1 theta)
  | _, _ => .error (.unsupported (.noSuchBlock name params.length))

end Block

end QuantumLowering
