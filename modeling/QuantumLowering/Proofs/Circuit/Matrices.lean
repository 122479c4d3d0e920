import Mathlib.Analysis.Complex.Norm
import Mathlib.LinearAlgebra.Matrix.ConjTranspose
import Mathlib.LinearAlgebra.Matrix.Notation
import QuantumLowering.Circuit.Block

namespace QuantumLowering

noncomputable section

def Amplitude.toComplex (a : Amplitude ℝ) : ℂ := ⟨a.re, a.im⟩

/-- Exact amplitudes. They count as the same within the tolerance that machine numbers have. -/
instance : AmplitudeScalar ℝ where
  zero := 0
  one := 1
  near a b := ‖a.toComplex - b.toComplex‖ < 1e-10

namespace Amplitude

@[simp]
theorem toComplex_zero : (0 : Amplitude ℝ).toComplex = 0 := rfl

@[simp]
theorem toComplex_one : (1 : Amplitude ℝ).toComplex = 1 := rfl

@[simp]
theorem toComplex_add (a b : Amplitude ℝ) : (a + b).toComplex = a.toComplex + b.toComplex := rfl

@[simp]
theorem toComplex_mul (a b : Amplitude ℝ) : (a * b).toComplex = a.toComplex * b.toComplex := rfl

@[simp]
theorem toComplex_conj (a : Amplitude ℝ) : a.conj.toComplex = star a.toComplex := rfl

theorem toComplex_injective : Function.Injective toComplex := by
  rintro ⟨re, im⟩ ⟨re', im'⟩ same
  cases same
  rfl

theorem near_self (a : Amplitude ℝ) : AmplitudeScalar.near a a = true := by
  norm_num [AmplitudeScalar.near]

end Amplitude

namespace Block

def toMatrix (s : Block ℝ) : Matrix (Fin 2) (Fin 2) ℂ :=
  !![s.a.toComplex, s.b.toComplex; s.c.toComplex, s.d.toComplex]

theorem toMatrix_injective : Function.Injective toMatrix := by
  rintro ⟨a, b, c, d⟩ ⟨a', b', c', d'⟩ same
  have entry (i j : Fin 2) := congrFun (congrFun same i) j
  obtain rfl : a = a' := Amplitude.toComplex_injective (entry 0 0)
  obtain rfl : b = b' := Amplitude.toComplex_injective (entry 0 1)
  obtain rfl : c = c' := Amplitude.toComplex_injective (entry 1 0)
  obtain rfl : d = d' := Amplitude.toComplex_injective (entry 1 1)
  rfl

@[simp]
theorem toMatrix_identity : (identity : Block ℝ).toMatrix = 1 := by
  rw [Matrix.one_fin_two]
  rfl

@[simp]
theorem toMatrix_mul (s t : Block ℝ) : (s * t).toMatrix = s.toMatrix * t.toMatrix := by
  unfold toMatrix
  rw [Matrix.mul_fin_two]
  rfl

@[simp]
theorem toMatrix_dagger (s : Block ℝ) : s.dagger.toMatrix = s.toMatrix.conjTranspose := by
  ext i j
  fin_cases i <;> fin_cases j <;> rfl

theorem mul_assoc (s t u : Block ℝ) : s * t * u = s * (t * u) :=
  toMatrix_injective (by simp [Matrix.mul_assoc])

@[simp]
theorem identity_mul (s : Block ℝ) : identity * s = s := toMatrix_injective (by simp)

@[simp]
theorem mul_identity (s : Block ℝ) : s * identity = s := toMatrix_injective (by simp)

@[simp]
theorem dagger_identity : (identity : Block ℝ).dagger = identity := toMatrix_injective (by simp)

@[simp]
theorem dagger_dagger (s : Block ℝ) : s.dagger.dagger = s := toMatrix_injective (by simp)

theorem dagger_mul (s t : Block ℝ) : (s * t).dagger = t.dagger * s.dagger :=
  toMatrix_injective (by simp [Matrix.conjTranspose_mul])

theorem isIdentity_identity : (identity : Block ℝ).isIdentity = true := by
  simp [isIdentity, near, Amplitude.near_self]

/-- The block that applies the blocks in their order, so the first stands rightmost in the product. -/
def composed (steps : List (Block ℝ)) : Block ℝ :=
  steps.foldl (fun done step => step * done) identity

@[simp]
theorem composed_nil : composed [] = identity := rfl

theorem composed_append (steps more : List (Block ℝ)) :
    composed (steps ++ more) = composed more * composed steps := by
  induction more using List.reverseRecOn with
  | nil => simp
  | append_singleton more last ih =>
    have latest (steps : List (Block ℝ)) : composed (steps ++ [last]) = last * composed steps := by
      simp [composed]
    rw [← List.append_assoc, latest, latest, ih, mul_assoc]

@[simp]
theorem composed_singleton (s : Block ℝ) : composed [s] = s := mul_identity s

theorem dagger_composed (steps : List (Block ℝ)) :
    (composed steps).dagger = composed (steps.map dagger).reverse := by
  induction steps with
  | nil => simp
  | cons step steps ih =>
    rw [List.map_cons, List.reverse_cons, composed_append, ← List.singleton_append, composed_append,
      dagger_mul, ih]
    simp

end Block

end

end QuantumLowering
