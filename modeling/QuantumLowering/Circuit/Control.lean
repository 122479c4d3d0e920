import QuantumLowering.Circuit.Block

namespace QuantumLowering

abbrev Sink (R : Type) (m : Type → Type) := Line → Block R → m Unit

/-- Lines that must all read one, in the order given, each once. -/
structure AllOnesControl where
  lines : List Line
deriving DecidableEq, Repr, Inhabited

namespace AllOnesControl

def appendNew (lines more : List Line) : List Line :=
  more.foldl (fun kept line => if line ∈ kept then kept else kept ++ [line]) lines

def new (lines : List Line) : Except CircuitError AllOnesControl :=
  match appendNew [] lines with
  | [] => .error .emptyControl
  | kept => .ok ⟨kept⟩

def and (c d : AllOnesControl) : AllOnesControl := ⟨appendNew c.lines d.lines⟩

def extend (c : AllOnesControl) (lines : List Line) : AllOnesControl :=
  ⟨appendNew c.lines lines⟩

def contains (c : AllOnesControl) (line : Line) : Bool := c.lines.contains line

end AllOnesControl

/-- The positions of the zeros of a value written in `width` bits, the highest bit first. -/
def zeroBits (value width : Nat) : Except CircuitError (List Nat) :=
  if value >>> width ≠ 0 then .error (.valueOutOfRange value width)
  else .ok ((List.range width).filter fun position => !value.testBit (width - 1 - position))

/-- A control on a value other than all ones: the lines to flip, and the control that then
fires. -/
structure ControlScope where
  control : AllOnesControl
  toggles : List Line
deriving DecidableEq, Repr, Inhabited

namespace ControlScope

def new (lines : List Line) (value : Nat) : Except CircuitError ControlScope := do
  let control ← AllOnesControl.new lines
  if control.lines.length ≠ lines.length then throw (.unsupported .repeatedLine)
  let positions ← zeroBits value lines.length
  return ⟨control, positions.filterMap fun position => lines[position]?⟩

variable {R : Type} [AmplitudeScalar R] {m : Type → Type} [Monad m]

def flip (s : ControlScope) (sink : Sink R m) : m Unit :=
  s.toggles.forM fun line => sink line .x

def enter (s : ControlScope) (sink : Sink R m) : m AllOnesControl := do
  s.flip sink
  return s.control

def exit (s : ControlScope) (sink : Sink R m) : m Unit := s.flip sink

end ControlScope

end QuantumLowering
