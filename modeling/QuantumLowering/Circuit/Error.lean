namespace QuantumLowering

abbrev Line := Nat

def Line.text (line : Line) : String := s!"q{line}"

inductive CircuitLimit where
  | repeatedLine
  | noSuchBlock (name : String) (params : Nat)
  | noTarget
  | severalTargets (count : Nat)
  | targetControlled (target : Line)
  | severalControls (count : Nat)
  | differentLines
  | measuringNothing
deriving DecidableEq, Repr, Inhabited

def maxMultiplexControls : Nat := 20

def CircuitLimit.detail : CircuitLimit → String
  | .repeatedLine => "a line appears twice in a conditional"
  | .noSuchBlock name params => s!"no single-line block for {name} with {params} parameters"
  | .noTarget => "multiplexer without a target line"
  | .severalTargets count => s!"multiplexed control over {count} target lines"
  | .targetControlled target => "target " ++ target.text ++ " is also a control line"
  | .severalControls count =>
    s!"{count} control lines exceed the multiplexer limit of {maxMultiplexControls}"
  | .differentLines => "composing multiplexers over different lines"
  | .measuringNothing => "measurement of no lines"

inductive CircuitError where
  | emptyControl
  | valueOutOfRange (value width : Nat)
  | lineOutOfRange (line : Line) (width : Nat)
  | unsupported (what : CircuitLimit)
  | emptyBatch
  | alreadyExecuted
  | arityMismatch (expected found : Nat)
  | backend (reason : String)
deriving DecidableEq, Repr, Inhabited

def CircuitError.message : CircuitError → String
  | .emptyControl => "Control aggregate has no lines"
  | .valueOutOfRange value width => s!"Value {value} does not fit in {width} lines"
  | .lineOutOfRange line width => s!"Line {line} is outside an allocation of {width} lines"
  | .unsupported what => "Unsupported: " ++ what.detail
  | .emptyBatch => "No measurement proxies were provided"
  | .alreadyExecuted => "Allocation already executed its measurements"
  | .arityMismatch expected found =>
    s!"Backend returned {found} outcomes for {expected} proxies"
  | .backend reason => "Backend error: " ++ reason

end QuantumLowering
