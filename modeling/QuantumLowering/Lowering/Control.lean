import QuantumLowering.Lowering.Chain
import QuantumLowering.Lowering.Context
import QuantumLowering.Syntax.Copy

namespace QuantumLowering.LowerM

open TreeM

def controlPlainCall (control name : String) (call func : NodeId) : LowerM Unit := do
  let wrapped ← addFunctor .controlled func
  let (chain, _) ← (← tree).chain wrapped
  (← operations).require name chain
  let controlId ← addName control
  setCallee call wrapped
  modifyArgs call (controlId :: ·)

def controlControlledCall (control name : String) (call : NodeId) : LowerM Unit := do
  match ← expr call with
  | .call _ (existing :: _) _ =>
    let controlId ← addName control
    let merged ← mergeControl existing controlId
    modifyArgs call fun args => merged :: args.drop 1
  | _ => throw (.unsupported (.missingControl name))

def controlCall (control : String) (call : NodeId) : LowerM Unit := do
  let func ← (← tree).callee call
  match ← (← tree).operationName func with
  | none => return ()
  | some name =>
    if (← operations).contains name then
      match ← (← tree).signature func with
      | .identity => controlPlainCall control name call func
      | .controlled => controlControlledCall control name call

def controlCalls (control : String) (expr : NodeId) : LowerM Unit := do
  let calls ← (← tree).callsIn expr
  calls.forM (controlCall control)

/-- Definitions and classes inside the block stay as they are. -/
def controlStatementWithin (control : String) : Nat → NodeId → LowerM Unit
  | 0, id => throw (.tree (.cyclic id))
  | depth + 1, id => do
    match ← stmt id with
    | .expr value => controlCalls control value
    | .assign _ value => controlCalls control value
    | .scoped _ _ body => body.forM (controlStatementWithin control depth)
    | .conditional _ body orelse =>
      body.forM (controlStatementWithin control depth)
      orelse.forM (controlStatementWithin control depth)
    | _ => return ()

def controlBlock (control : String) (block : List NodeId) : LowerM Unit := do
  let depth := (← tree).depthBound
  block.forM (controlStatementWithin control depth)

/-- A method keeps its receiver as the first parameter. -/
def controlPosition (insideMethod : Bool) (params : List String) : Nat :=
  if insideMethod then min params.length 1 else 0

def deriveControlled (d : Definition NodeId) : LowerM (Definition NodeId) := do
  let body ← copyBlock d.body
  let control ← ContextM.freshName (← options).controlParam
  controlBlock control body
  let position := controlPosition (← context).insideMethod d.params
  let name ← ContextM.freshName (variantBase d.name GateFunctor.controlled.suffix)
  ContextM.modifyStats fun s => { s with controlledDerived := s.controlledDerived + 1 }
  return ⟨name, d.params.insertIdx position control, body, some .none⟩

end QuantumLowering.LowerM
