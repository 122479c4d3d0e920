import QuantumLowering.Circuit.Multiplexer
import QuantumLowering.Proofs.Circuit.Matrices

namespace QuantumLowering

noncomputable section

namespace Multiplexer

variable {g g' h : Multiplexer ℝ} {b b' : Block ℝ}

/-- The block for the pattern of ones is the given one, and those for all other patterns are
identities. -/
def AllOnes (g : Multiplexer ℝ) (b : Block ℝ) : Prop :=
  g.blocks = List.replicate (2 ^ g.controls.length - 1) .identity ++ [b]

theorem control_eq_ok {gate : Block ℝ} {controls targets : List Line}
    (made : control gate controls targets = .ok g) :
    g.controls.length ≤ maxMultiplexControls ∧ g.target ∉ g.controls ∧ g.AllOnes gate := by
  unfold control at made
  split at made
  · cases made
  · rename_i target
    split at made
    · cases made
    · rename_i apart
      split at made
      · cases made
      · rename_i few
        cases made
        refine ⟨not_lt.1 few, apart, ?_⟩
        unfold AllOnes
        rw [Nat.one_shiftLeft]
  · cases made

theorem AllOnes.adjoint (table : g.AllOnes b) : g.adjoint.AllOnes b.dagger := by
  unfold AllOnes Multiplexer.adjoint at *
  rw [table, List.map_append, List.map_replicate, Block.dagger_identity, List.map_singleton]

theorem andThen_eq_ok (made : g.andThen g' = .ok h) :
    g.controls = g'.controls ∧ g.target = g'.target ∧ h = ⟨g.controls, g.target,
      List.zipWith (fun s t => t * s) g.blocks g'.blocks⟩ := by
  unfold andThen at made
  split at made
  · rename_i same
    cases made
    exact ⟨same.1, same.2, rfl⟩
  · cases made

theorem AllOnes.andThen (table : g.AllOnes b) (table' : g'.AllOnes b')
    (made : g.andThen g' = .ok h) : h.AllOnes (b' * b) := by
  obtain ⟨same, -, rfl⟩ := andThen_eq_ok made
  unfold AllOnes at *
  dsimp only
  rw [table, table', ← same, List.zipWith_append (by simp), List.zipWith_replicate',
    Block.mul_identity]
  rfl

theorem map_adjoint_andThen (g g' : Multiplexer ℝ) :
    (g.andThen g').map Multiplexer.adjoint = g'.adjoint.andThen g.adjoint := by
  have blocks : (List.zipWith (fun s t => t * s) g.blocks g'.blocks).map Block.dagger =
      List.zipWith (fun s t => t * s) (g'.blocks.map Block.dagger) (g.blocks.map Block.dagger) := by
    rw [List.map_zipWith, List.zipWith_map, List.zipWith_comm]
    simp only [Block.dagger_mul]
  unfold andThen Multiplexer.adjoint
  dsimp only
  by_cases same : g.controls = g'.controls ∧ g.target = g'.target
  · rw [if_pos same, if_pos ⟨same.1.symm, same.2.symm⟩, Except.map, blocks, same.1, same.2]
  · rw [if_neg same, if_neg fun same' => same ⟨same'.1.symm, same'.2.symm⟩]
    rfl

theorem AllOnes.block?_eq (table : g.AllOnes b) (p : Nat) : g.block? p =
    if 2 ^ g.controls.length ≤ p then none
    else if p = 2 ^ g.controls.length - 1 then some b else some .identity := by
  have positive := Nat.two_pow_pos g.controls.length
  unfold block?
  rw [table]
  split
  · rename_i beyond
    exact List.getElem?_eq_none (by simp; omega)
  · rename_i inside
    split
    · rename_i last
      rw [last, List.getElem?_append_right (by simp)]
      simp
    · rename_i other
      rw [List.getElem?_append_left (by simp; omega), List.getElem?_replicate,
        if_pos (by omega)]

theorem AllOnes.applyFor_eq {m : Type → Type} [Monad m] [MonadExceptOf CircuitError m]
    (table : g.AllOnes b) (p : Nat) (sink : Sink ℝ m) : g.applyFor p sink =
      if 2 ^ g.controls.length ≤ p then throw (.valueOutOfRange p g.controls.length)
      else if p = 2 ^ g.controls.length - 1 ∧ ¬ b.isIdentity then sink g.target b
      else pure () := by
  unfold applyFor
  rw [table.block?_eq]
  by_cases beyond : 2 ^ g.controls.length ≤ p
  · rw [if_pos beyond, if_pos beyond]
  rw [if_neg beyond, if_neg beyond]
  by_cases last : p = 2 ^ g.controls.length - 1
  · rw [if_pos last]
    by_cases same : b.isIdentity <;> simp [last, same]
  · rw [if_neg last, if_neg fun both => last both.1]
    simp [Block.isIdentity_identity]

end Multiplexer

structure Factor where
  gate : Block ℝ
  inverted : Bool

namespace Factor

def block (f : Factor) : Block ℝ := if f.inverted then f.gate.dagger else f.gate

def inverse (f : Factor) : Factor := { f with inverted := !f.inverted }

theorem block_inverse (f : Factor) : f.inverse.block = f.block.dagger := by
  obtain ⟨gate, inverted⟩ := f
  cases inverted <;> simp [inverse, block]

end Factor

/-- How a multiplexer is put together from controlled gates. -/
inductive Assembly where
  | control (gate : Block ℝ) (controls targets : List Line)
  | adjoint (inner : Assembly)
  | andThen (first second : Assembly)

namespace Assembly

def build : Assembly → Except CircuitError (Multiplexer ℝ)
  | control gate controls targets => Multiplexer.control gate controls targets
  | adjoint inner => do return (← inner.build).adjoint
  | andThen first second => do (← first.build).andThen (← second.build)

def factors : Assembly → List Factor
  | control gate _ _ => [⟨gate, false⟩]
  | adjoint inner => (inner.factors.map Factor.inverse).reverse
  | andThen first second => first.factors ++ second.factors

/-- The product of the gates and daggers, the one applied first standing rightmost. -/
def product (a : Assembly) : Block ℝ := Block.composed (a.factors.map Factor.block)

theorem product_control (gate : Block ℝ) (controls targets : List Line) :
    (control gate controls targets).product = gate := by
  simp [product, factors, Factor.block]

theorem product_adjoint (inner : Assembly) : inner.adjoint.product = inner.product.dagger := by
  have blocks : inner.adjoint.factors.map Factor.block =
      ((inner.factors.map Factor.block).map Block.dagger).reverse := by
    simp [factors, Factor.block_inverse, Function.comp_def]
  rw [product, blocks, product, Block.dagger_composed]

theorem product_andThen (first second : Assembly) :
    (first.andThen second).product = second.product * first.product := by
  rw [product, factors, List.map_append, Block.composed_append]
  rfl

theorem build_allOnes {a : Assembly} {g : Multiplexer ℝ} (built : a.build = .ok g) :
    g.controls.length ≤ maxMultiplexControls ∧ g.target ∉ g.controls ∧ g.AllOnes a.product := by
  induction a generalizing g with
  | control gate controls targets =>
    rw [product_control]
    exact Multiplexer.control_eq_ok built
  | adjoint inner ih =>
    rw [product_adjoint]
    unfold build at built
    cases made : inner.build with
    | error e =>
      rw [made] at built
      cases built
    | ok g' =>
      rw [made] at built
      cases built
      obtain ⟨few, apart, table⟩ := ih made
      exact ⟨few, apart, table.adjoint⟩
  | andThen first second ih ih' =>
    rw [product_andThen]
    unfold build at built
    cases made : first.build with
    | error e =>
      rw [made] at built
      cases built
    | ok g₁ =>
      cases made' : second.build with
      | error e =>
        rw [made, made'] at built
        cases built
      | ok g₂ =>
        rw [made, made'] at built
        change g₁.andThen g₂ = .ok g at built
        obtain ⟨few, apart, table⟩ := ih made
        have whole := table.andThen (ih' made').2.2 built
        obtain ⟨-, -, rfl⟩ := Multiplexer.andThen_eq_ok built
        exact ⟨few, apart, whole⟩

end Assembly

/-- A multiplexer that was put together from controlled gates has a block for every pattern of its
controls. All of them are identities except for the last, which is the product of the gates and daggers
with the first one rightmost. The adjoint of two in turn is that of the second, then that of the first.
Applying one is one application of the last block to the target, for the pattern of ones if the block
does something, and nothing otherwise, and is refused exactly for numbers that are no pattern. -/
theorem Assembly.build_acts {a : Assembly} {g : Multiplexer ℝ} (built : a.build = .ok g) :
    g.controls.length ≤ maxMultiplexControls ∧ g.blocks.length = 2 ^ g.controls.length ∧
      (∀ p < 2 ^ g.controls.length - 1, g.block? p = some .identity) ∧
      g.block? (2 ^ g.controls.length - 1) = some a.product ∧
      (∀ g' : Multiplexer ℝ,
        (g.andThen g').map Multiplexer.adjoint = g'.adjoint.andThen g.adjoint) ∧
      (∀ {m : Type → Type} [Monad m] [MonadExceptOf CircuitError m] (sink : Sink ℝ m) (p : Nat),
        g.applyFor p sink =
          if 2 ^ g.controls.length ≤ p then throw (.valueOutOfRange p g.controls.length)
          else if p = 2 ^ g.controls.length - 1 ∧ ¬ a.product.isIdentity then
            sink g.target a.product
          else pure ()) ∧
      ∀ {σ : Type} (sink : Sink ℝ (StateT σ (Except CircuitError))),
        (∀ line block s, ∃ s', sink line block s = .ok ((), s')) → ∀ p s,
          (∃ e, g.applyFor p sink s = .error e) ↔ 2 ^ g.controls.length ≤ p := by
  obtain ⟨few, -, table⟩ := build_allOnes built
  have positive := Nat.two_pow_pos g.controls.length
  refine ⟨few, ?_, fun p early => ?_, ?_, Multiplexer.map_adjoint_andThen g,
    fun sink p => table.applyFor_eq p sink, ?_⟩
  · rw [table]
    simp
    omega
  · rw [table.block?_eq, if_neg (by omega), if_neg (by omega)]
  · rw [table.block?_eq, if_neg (by omega), if_pos rfl]
  · intro σ sink total p s
    rw [table.applyFor_eq]
    constructor
    · rintro ⟨e, failed⟩
      by_contra inside
      rw [if_neg inside] at failed
      split at failed
      · obtain ⟨s', ran⟩ := total g.target a.product s
        rw [ran] at failed
        cases failed
      · cases failed
    · intro beyond
      rw [if_pos beyond]
      exact ⟨_, rfl⟩

def flipThenPhase : Assembly :=
  .andThen (.control .x [0, 1] [2]) (.adjoint (.control .z [0, 1] [2]))

theorem Assembly.build_acts_two_controls : ∃ g, flipThenPhase.build = .ok g ∧
    g.block? 2 = some .identity ∧ g.block? 3 = some ((Block.z : Block ℝ).dagger * .x) ∧
    ∀ {m : Type → Type} [Monad m] [MonadExceptOf CircuitError m] (sink : Sink ℝ m),
      g.applyFor 1 sink = pure () := by
  have built : ∃ g, flipThenPhase.build = .ok g ∧ g.controls = [0, 1] := ⟨_, rfl, rfl⟩
  obtain ⟨g, built, controls⟩ := built
  obtain ⟨-, -, others, last, -, applied, -⟩ := Assembly.build_acts built
  rw [controls] at others last applied
  have product : flipThenPhase.product = (Block.z : Block ℝ).dagger * .x := by
    rw [flipThenPhase, product_andThen, product_adjoint, product_control, product_control]
  refine ⟨g, built, others 2 (by decide), product ▸ last, fun sink => ?_⟩
  rw [applied sink 1, if_neg (by decide), if_neg fun both => absurd both.1 (by decide)]

end

end QuantumLowering
