import QuantumLowering.Lowering.Control

namespace QuantumLowering

namespace SyntaxTree

def isQuantumConditional (t : SyntaxTree) (options : Options) (id : NodeId) :
    Except TreeError Bool := do
  match ← t.stmt id with
  | .conditional test _ _ => t.isCallTo test options.conditionFn
  | _ => return false

def isControlScope (t : SyntaxTree) (options : Options) (context : NodeId) :
    Except TreeError Bool := do
  match ← t.expr context with
  | .call func _ _ =>
    match ← t.expr func with
    | .attribute value attr =>
      if attr = options.scopeFn then
        match ← t.expr value with
        | .name name => return name == options.boilerplateAlias
        | _ => return false
      else return false
    | _ => return false
  | _ => return false

end SyntaxTree

namespace LowerM

open TreeM

/-- The lines a condition tests and the value it tests for. An integer on the left is the value. -/
def comparisonOperands (test : NodeId) : LowerM (NodeId × NodeId) := do
  match ← expr test with
  | .call _ [argument] [] =>
    match ← expr argument with
    | .compare left .equal right =>
      match ← expr left with
      | .int _ => return (right, left)
      | _ => return (left, right)
    | .compare _ .notEqual _ => throw (.unsupported .inequality)
    | other => throw (.unsupported (.noComparison other.kind))
  | _ => throw (.unsupported (.conditionArity (← options).conditionFn))

def lowerConditional (id : NodeId) : LowerM Unit := do
  match ← stmt id with
  | .conditional test body orelse =>
    unless orelse.isEmpty do throw (.unsupported .elseBranch)
    let (lines, value) ← comparisonOperands test
    let control ← ContextM.freshName (← options).controlParam
    controlBlock control body
    let boilerplate ← addName (← options).boilerplateAlias
    let scope ← addAttribute boilerplate (← options).scopeFn
    let context ← addCall scope [lines, value]
    let binding ← addName control
    setStmt id (.scoped context (some binding) body)
    ContextM.modifyStats fun s => { s with conditionalsLowered := s.conditionalsLowered + 1 }
  | _ => throw (.invariant (.notConditional id))

end LowerM

end QuantumLowering
