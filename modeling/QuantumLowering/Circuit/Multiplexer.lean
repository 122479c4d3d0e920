import QuantumLowering.Circuit.Control

namespace QuantumLowering

structure Multiplexer (R : Type) where
  controls : List Line
  target : Line
  blocks : List (Block R)
deriving Repr

namespace Multiplexer

variable {R : Type} [AmplitudeScalar R]

def control (gate : Block R) (controls targets : List Line) :
    Except CircuitError (Multiplexer R) :=
  match targets with
  | [] => .error (.unsupported .noTarget)
  | [target] =>
    if target ∈ controls then .error (.unsupported (.targetControlled target))
    else if maxMultiplexControls < controls.length then
      .error (.unsupported (.severalControls controls.length))
    else
      .ok ⟨controls, target,
        List.replicate ((1 <<< controls.length) - 1) .identity ++ [gate]⟩
  | _ => .error (.unsupported (.severalTargets targets.length))

def adjoint (g : Multiplexer R) : Multiplexer R :=
  ⟨g.controls, g.target, g.blocks.map Block.dagger⟩

def andThen (first second : Multiplexer R) : Except CircuitError (Multiplexer R) :=
  if first.controls = second.controls ∧ first.target = second.target then
    .ok ⟨first.controls, first.target,
      List.zipWith (fun s t => t * s) first.blocks second.blocks⟩
  else .error (.unsupported .differentLines)

def block? (g : Multiplexer R) (pattern : Nat) : Option (Block R) := g.blocks[pattern]?

/-- The patterns whose blocks do something, with their blocks. -/
def active (g : Multiplexer R) : List (Nat × Block R) :=
  (g.blocks.zipIdx.filter fun (block, _) => !block.isIdentity).map fun (block, i) => (i, block)

def applyFor {m : Type → Type} [Monad m] [MonadExceptOf CircuitError m] (g : Multiplexer R)
    (pattern : Nat) (sink : Sink R m) : m Unit :=
  match g.block? pattern with
  | none => throw (.valueOutOfRange pattern g.controls.length)
  | some block => if block.isIdentity then pure () else sink g.target block

end Multiplexer

end QuantumLowering
