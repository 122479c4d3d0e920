import QuantumLowering.Lowering.Block
import QuantumLowering.Lowering.Conditional

namespace QuantumLowering.LowerM

open TreeM

def adjointCall (call : NodeId) : LowerM Unit := do
  let func ← (← tree).callee call
  match ← (← tree).operationName func with
  | none => return ()
  | some name =>
    if (← operations).contains name then
      let wrapped ← addFunctor .adjoint func
      let wrapped ← cancelAdjointPairs wrapped
      let (chain, _) ← (← tree).chain wrapped
      (← operations).require name chain
      setCallee call wrapped

def adjointCalls (expr : NodeId) : LowerM Unit := do
  let calls ← (← tree).callsIn expr
  calls.forM adjointCall

/-- A control scope is reversed; the statements of other blocks keep their order. -/
def adjointStatementWithin : Nat → NodeId → LowerM Unit
  | 0, id => throw (.tree (.cyclic id))
  | depth + 1, id => do
    match ← stmt id with
    | .expr value => adjointCalls value
    | .assign _ value => adjointCalls value
    | .scoped context _ body =>
      let isScope ← (← tree).isControlScope (← options) context
      body.forM (adjointStatementWithin depth)
      if isScope then setScopedBody id body.reverse
    | .conditional _ body orelse =>
      body.forM (adjointStatementWithin depth)
      orelse.forM (adjointStatementWithin depth)
    | _ => return ()

def adjointBlock (block : List NodeId) : LowerM (List NodeId) := do
  let depth := (← tree).depthBound
  block.forM (adjointStatementWithin depth)
  return block.reverse

def deriveAdjoint (d : Definition NodeId) : LowerM (Definition NodeId) := do
  let body ← copyBlock d.body
  let body ← adjointBlock body
  let name ← ContextM.freshName (variantBase d.name GateFunctor.adjoint.suffix)
  ContextM.modifyStats fun s => { s with adjointsDerived := s.adjointsDerived + 1 }
  return ⟨name, d.params, body, some .none⟩

end QuantumLowering.LowerM
