import QuantumLowering.Lowering.Error
import QuantumLowering.Lowering.Options
import QuantumLowering.Operation.Names

namespace QuantumLowering

structure AllocationFrame where
  block : NodeId
  statement : Nat
deriving DecidableEq, Repr, Inhabited

structure HoistEntry where
  block : NodeId
  index : Nat
  call : NodeId
  placeholder : String
deriving DecidableEq, Repr, Inhabited

structure Stats where
  adjointsDerived : Nat
  controlledDerived : Nat
  blocksHoisted : Nat
  measurementsHoisted : Nat
  conditionalsLowered : Nat
deriving DecidableEq, Repr, Inhabited

def Stats.zero : Stats := ⟨0, 0, 0, 0, 0⟩

structure Suspended where
  frames : List AllocationFrame
  tables : List (List HoistEntry)
deriving DecidableEq, Repr, Inhabited

def Suspended.none : Suspended := ⟨[], []⟩

/-- The innermost allocation block is the head of `frames`, its measurements the head of
`tables`. -/
structure Context where
  options : Options
  operations : OperationTable
  stats : Stats
  names : NameSupply
  frames : List AllocationFrame
  tables : List (List HoistEntry)
  insideMethod : Bool

def Context.new (options : Options) : Context where
  options := options
  operations := options.operations
  stats := .zero
  names := .empty
  frames := []
  tables := []
  insideMethod := false

instance : Inhabited Context := ⟨.new .default⟩

abbrev ContextM := EStateM LoweringError Context

namespace ContextM

def freshName (base : String) : ContextM String :=
  modifyGet fun c =>
    let (name, names) := c.names.fresh base
    (name, { c with names := names })

def reserve (name : String) : ContextM Unit :=
  modify fun c => { c with names := c.names.reserve name }

def setInsideMethod (inside : Bool) : ContextM Bool :=
  modifyGet fun c => (c.insideMethod, { c with insideMethod := inside })

def modifyStats (f : Stats → Stats) : ContextM Unit :=
  modify fun c => { c with stats := f c.stats }

def modifyOperations (f : OperationTable → OperationTable) : ContextM Unit :=
  modify fun c => { c with operations := f c.operations }

def depth : ContextM Nat := do return (← get).frames.length

def pushAllocation (block : NodeId) : ContextM Unit :=
  modify fun c => { c with frames := ⟨block, 0⟩ :: c.frames, tables := [] :: c.tables }

def enterStatement (index : Nat) : ContextM Unit := do
  match (← get).frames with
  | [] => throw (.invariant .statementOutsideAllocation)
  | frame :: frames =>
    modify fun c => { c with frames := { frame with statement := index } :: frames }

/-- Enters a measurement into the innermost table and names its value. Nothing happens outside an
allocation block. -/
def recordMeasurement (call : NodeId) : ContextM (Option String) := do
  let c ← get
  match c.frames, c.tables with
  | frame :: _, table :: tables =>
    let placeholder ← freshName (c.options.placeholderStem ++ Nat.repr (table.length + 1))
    let entry := ⟨frame.block, frame.statement, call, placeholder⟩
    modify fun c => { c with tables := (table ++ [entry]) :: tables }
    return some placeholder
  | _, _ => return none

def popAllocation (block : NodeId) : ContextM (List HoistEntry) := do
  let c ← get
  if c.frames.length ≠ c.tables.length then
    throw (.invariant (.unevenStacks c.frames.length c.tables.length))
  match c.frames, c.tables with
  | frame :: frames, table :: tables =>
    set { c with frames := frames, tables := tables }
    if frame.block = block then return table
    else throw (.invariant (.closingOuter block frame.block))
  | _, _ => throw (.invariant (.closingNone block))

def suspendAllocations : ContextM Suspended :=
  modifyGet fun c => (⟨c.frames, c.tables⟩, { c with frames := [], tables := [] })

def checkBalanced : ContextM Unit := do
  let c ← get
  unless c.frames.isEmpty && c.tables.isEmpty do
    throw (.invariant (.leftOpen c.frames.length c.tables.length))

def resumeAllocations (suspended : Suspended) : ContextM Unit := do
  checkBalanced
  modify fun c => { c with frames := suspended.frames, tables := suspended.tables }

end ContextM

structure LoweringState where
  tree : SyntaxTree
  context : Context
deriving Inhabited

/-- Computations that lower a tree. What was changed before a failure stays changed. -/
abbrev LowerM := EStateM LoweringError LoweringState

instance : MonadLift TreeM LowerM where
  monadLift act := fun ⟨tree, context⟩ =>
    match act tree with
    | .ok a tree => .ok a ⟨tree, context⟩
    | .error e tree => .error (.tree e) ⟨tree, context⟩

instance : MonadLift ContextM LowerM where
  monadLift act := fun ⟨tree, context⟩ =>
    match act context with
    | .ok a context => .ok a ⟨tree, context⟩
    | .error e context => .error e ⟨tree, context⟩

instance : MonadLift (Except UndefinedVariant) LowerM where
  monadLift
    | .ok a => pure a
    | .error e => throw (.undefinedVariant e)

namespace LowerM

def tree : LowerM SyntaxTree := do return (← get).tree

def context : LowerM Context := do return (← get).context

def options : LowerM Options := do return (← get).context.options

def operations : LowerM OperationTable := do return (← get).context.operations

/-- Runs with the method flag set, and puts the flag back also after a failure. -/
def withInsideMethod {α : Type} (inside : Bool) (act : LowerM α) : LowerM α := do
  let outer ← ContextM.setInsideMethod inside
  let restore (s : LoweringState) : LoweringState :=
    { s with context := { s.context with insideMethod := outer } }
  fun s =>
    match act s with
    | .ok a s => .ok a (restore s)
    | .error e s => .error e (restore s)

end LowerM

end QuantumLowering
