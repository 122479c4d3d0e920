import QuantumLowering.Command.Arguments
import QuantumLowering.Command.Files
import QuantumLowering.Command.Path
import QuantumLowering.Config.Document
import QuantumLowering.Lowering.Pass
import QuantumLowering.Syntax.Document
import QuantumLowering.Syntax.Listing

namespace QuantumLowering

inductive CommandError where
  | configAbsent (path : String)
  | configUnreadable (path : String) (cause : FileError)
  | configInvalid (path : String) (cause : ConfigError)
  | moduleAbsent (path : String)
  | moduleUnreadable (path : String) (cause : FileError)
  | moduleInvalid (path : String) (cause : TreeError)
  | lowering (input : String) (cause : LoweringError)
  | unwritable (path : String) (cause : FileError)
  | listing (cause : TreeError)
deriving DecidableEq, Repr, Inhabited

namespace CommandError

def chain (e : LoweringError) : String :=
  match e with
  | .tree cause => e.message ++ ": " ++ cause.message
  | _ => e.message

def message : CommandError → String
  | .configAbsent path => "Config file not found: " ++ path
  | .configUnreadable path cause => "Failed to read config: " ++ path ++ ": " ++ cause.message
  | .configInvalid path cause =>
    "Invalid config: " ++ path ++ (cause.detail?.map (": " ++ ·)).getD ""
  | .moduleAbsent path => "File not found: " ++ path
  | .moduleUnreadable path cause => "Failed to read file: " ++ path ++ ": " ++ cause.message
  | .moduleInvalid path cause => "Failed to parse module: " ++ path ++ ": " ++ cause.message
  | .lowering input cause => "Failed to translate " ++ input ++ ": " ++ chain cause
  | .unwritable path cause => "Failed to write file: " ++ path ++ ": " ++ cause.message
  | .listing cause => cause.message

end CommandError

structure Report where
  printed : String
  result : Except CommandError Unit

namespace Report

def exitCode (r : Report) : Nat :=
  match r.result with
  | .ok () => 0
  | .error _ => 1

def complaint (r : Report) : String :=
  match r.result with
  | .ok () => ""
  | .error e => "Error: " ++ e.message ++ "\n"

end Report

/-- A running command: it prints, and may fail. What was printed before a failure stays printed. -/
abbrev CommandM (m : Type → Type) := ExceptT CommandError (StateT String m)

namespace CommandM

variable {m : Type → Type} [Monad m]

def say (line : String) : CommandM m Unit := modify (· ++ line ++ "\n")

def ofExcept {ε α : Type} (wrap : ε → CommandError) : Except ε α → CommandM m α
  | .ok a => return a
  | .error e => throw (wrap e)

def readText (files : FileAccess m) (absent : String → CommandError)
    (unreadable : String → FileError → CommandError) (path : String) : CommandM m String := do
  match ← (files.read path : m _) with
  | .ok text => return text
  | .error e => throw (if e.isAbsence then absent path else unreadable path e)

def loadOptions (files : FileAccess m) : Option String → CommandM m Options
  | none => return .default
  | some path => do
    let text ← readText files .configAbsent .configUnreadable path
    ofExcept (.configInvalid path) (Options.ofConfig text)

def loadModule (files : FileAccess m) (path : String) : CommandM m SyntaxTree := do
  let text ← readText files .moduleAbsent .moduleUnreadable path
  ofExcept (.moduleInvalid path) (SyntaxTree.read text)

def saveText (files : FileAccess m) (path text : String) : CommandM m Unit := do
  ofExcept (.unwritable path) (← (files.write path text : m _))

def list (t : SyntaxTree) : CommandM m Unit := do say (← ofExcept .listing t.render)

def sayStats (s : Stats) : CommandM m Unit := do
  say s!"  Derived: {s.adjointsDerived} adjoint, {s.controlledDerived} controlled"
  say (s!"  Hoisted: {s.measurementsHoisted} measurements in {s.blocksHoisted} blocks, " ++
    s!"{s.conditionalsLowered} conditionals lowered")

def lower (files : FileAccess m) (r : LowerRequest) : CommandM m Unit := do
  say ("→ Translating " ++ r.input)
  let options ← loadOptions files r.config?
  let source ← loadModule files r.input
  say s!"  Loaded: {source.body.length} top-level statements"
  let result ← ofExcept (.lowering r.input) (source.lower options .standard)
  say "✓ Translation complete"
  sayStats result.stats
  let output := r.output?.getD (Path.defaultOutput r.input)
  saveText files output (result.tree.write (if r.pretty then .indented else .compact))
  say ("  Output: " ++ output)
  if r.listing then
    say ""
    list result.tree

def aboutLines : List String :=
  ["Quoll v0.3.0 - functor synthesis and measurement batching",
    "",
    "Components:",
    "  quoll-ast      Syntax tree arena",
    "  quoll-compile  Translation passes",
    "  quoll-runtime  Control scopes and batched measurement",
    "  quoll-cli      Command-line interface",
    "",
    "License:    Apache-2.0"]

def perform (files : FileAccess m) : Command → CommandM m Unit
  | .lower request => lower files request
  | .render input => do list (← loadModule files input)
  | .about => aboutLines.forM say

end CommandM

def Invocation.report {m : Type → Type} [Monad m] (files : FileAccess m) : Invocation → m Report
  | .version => return ⟨"quoll 0.3.0\n", .ok ()⟩
  | .run command => do
    let (result, printed) ← (CommandM.perform files command).run.run ""
    return ⟨printed, result⟩

end QuantumLowering
