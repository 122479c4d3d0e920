namespace QuantumLowering

structure LowerRequest where
  input : String
  output? : Option String
  config? : Option String
  pretty : Bool
  listing : Bool
deriving DecidableEq, Repr, Inhabited

inductive Command where
  | lower (request : LowerRequest)
  | render (input : String)
  | about
deriving DecidableEq, Repr, Inhabited

inductive Invocation where
  | version
  | run (command : Command)
deriving DecidableEq, Repr, Inhabited

namespace Arguments

inductive Switch where
  | verbose
  | input
  | output
  | config
  | pretty
  | listing
deriving DecidableEq, Repr, Inhabited

namespace Switch

def ofLetter? : Char → Option Switch
  | 'v' => some .verbose
  | 'i' => some .input
  | 'o' => some .output
  | 'c' => some .config
  | _ => none

def ofWord? : String → Option Switch
  | "verbose" => some .verbose
  | "input" => some .input
  | "output" => some .output
  | "config" => some .config
  | "pretty" => some .pretty
  | "show" => some .listing
  | _ => none

def takesValue : Switch → Bool
  | .input => true
  | .output => true
  | .config => true
  | _ => false

def repeats : Switch → Bool
  | .verbose => true
  | _ => false

end Switch

abbrev Given := List (Switch × String)

namespace Given

def has (g : Given) (s : Switch) : Bool := (g.lookup s).isSome

def add (g : Given) (s : Switch) (value : String) : Option Given :=
  if g.has s && !s.repeats then none else some ((s, value) :: g)

end Given

inductive Expecting where
  | switch
  | valueOf (s : Switch)
  | nothing
deriving DecidableEq, Repr, Inhabited

structure State where
  given : Given
  expecting : Expecting
deriving Repr, Inhabited

def attached? : List Char → Option String
  | [] => none
  | '=' :: rest => some (String.ofList rest)
  | rest => some (String.ofList rest)

/-- Letters behind one dash. What follows the letter of a switch that takes a value is the value. -/
def readLetters (allowed : List Switch) (given : Given) : List Char → Option State
  | [] => some ⟨given, .switch⟩
  | c :: rest =>
    match Switch.ofLetter? c with
    | none => none
    | some s =>
      if s ∉ allowed then none
      else if s.takesValue then
        match attached? rest with
        | some value => (given.add s value).map fun given => ⟨given, .switch⟩
        | none => some ⟨given, .valueOf s⟩
      else
        match given.add s "" with
        | some given => readLetters allowed given rest
        | none => none

def readWord (allowed : List Switch) (given : Given) (body : List Char) : Option State := do
  let s ← Switch.ofWord? (String.ofList (body.takeWhile (· ≠ '=')))
  if s ∉ allowed then none
  else
    match body.dropWhile (· ≠ '='), s.takesValue with
    | [], false => return ⟨← given.add s "", .switch⟩
    | [], true => return ⟨given, .valueOf s⟩
    | _ :: _, false => none
    | _ :: value, true => return ⟨← given.add s (String.ofList value), .switch⟩

def isDashed (arg : String) : Bool :=
  match arg.toList with
  | '-' :: _ :: _ => true
  | _ => false

def step (allowed : List Switch) (state : State) (arg : String) : Option State :=
  match state.expecting with
  | .nothing => none
  | .valueOf s =>
    if isDashed arg then none
    else (state.given.add s arg).map fun given => ⟨given, .switch⟩
  | .switch =>
    match arg.toList with
    | ['-', '-'] => some ⟨state.given, .nothing⟩
    | '-' :: '-' :: body => readWord allowed state.given body
    | '-' :: c :: rest => readLetters allowed state.given (c :: rest)
    | _ => none

def finish (state : State) : Option Given :=
  match state.expecting with
  | .valueOf _ => none
  | _ => some state.given

def read (allowed : List Switch) (args : List String) : Option Given :=
  (args.foldlM (step allowed) ⟨[], .switch⟩).bind finish

def lowerRequest (config? : Option String) (given : Given) : Option LowerRequest := do
  return {
    input := ← given.lookup .input
    output? := given.lookup .output
    config? := (given.lookup .config).or config?
    pretty := given.has .pretty
    listing := given.has .listing }

def command? (config? : Option String) (name : String) (args : List String) : Option Command :=
  match name with
  | "translate" => do
    let given ← read [.verbose, .input, .output, .config, .pretty, .listing] args
    return .lower (← lowerRequest config? given)
  | "render" => do
    let given ← read [.verbose, .input] args
    return .render (← given.lookup .input)
  | "version" => do
    let _ ← read [.verbose] args
    return .about
  | _ => none

def asksVersion? : List Char → Option Bool
  | [] => some false
  | 'v' :: rest => asksVersion? rest
  | 'V' :: _ => some true
  | _ => none

def parse? (config? : Option String) : List String → Option Invocation
  | [] => none
  | arg :: rest =>
    match arg.toList with
    | '-' :: '-' :: body =>
      match String.ofList body with
      | "verbose" => parse? config? rest
      | "version" => some .version
      | _ => none
    | '-' :: c :: letters =>
      match asksVersion? (c :: letters) with
      | some true => some .version
      | some false => parse? config? rest
      | none => none
    | _ => .run <$> command? config? arg rest

end Arguments

end QuantumLowering
