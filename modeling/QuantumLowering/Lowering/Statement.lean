import QuantumLowering.Lowering.Adjoint
import QuantumLowering.Lowering.Measurement

/-!
Lowering statement by statement. A statement becomes itself, changed in place; a definition with
markers is followed by its variants and the wiring between them.
-/

namespace QuantumLowering.LowerM

open TreeM

def link (functor : GateFunctor) (operation variant : String) : LowerM NodeId := do
  ContextM.modifyOperations (OperationTable.link · operation functor variant)
  addStmt (.wire functor operation variant)

def emitAdjoint (d : Definition NodeId) : LowerM (List NodeId × String) := do
  let derived ← deriveAdjoint d
  let id ← addStmt (.define derived)
  let there ← link .adjoint d.name derived.name
  let back ← link .adjoint derived.name d.name
  return ([id, there, back], derived.name)

/-- The controlled form of a definition and its wiring. With an adjoint form, the adjoint of the
controlled form is also the controlled form of the adjoint. -/
def emitControlled (d : Definition NodeId) (adjoint : Option String) : LowerM (List NodeId) := do
  let controlled ← deriveControlled d
  let both ← match adjoint with
    | some _ => some <$> deriveAdjoint controlled
    | none => pure none
  let id ← addStmt (.define controlled)
  let there ← link .controlled d.name controlled.name
  let self ← link .controlled controlled.name controlled.name
  match adjoint, both with
  | some adjoint, some both =>
    let bothId ← addStmt (.define both)
    let down ← link .adjoint controlled.name both.name
    let up ← link .adjoint both.name controlled.name
    let across ← link .controlled adjoint both.name
    let stay ← link .controlled both.name both.name
    return [id, there, self, bothId, down, up, across, stay]
  | _, _ => return [id, there, self]

def emitVariants (d : Definition NodeId) : LowerM (List NodeId) := do
  let markers := d.markers
  let (adjointIds, adjoint) ←
    if markers.adjoint then do
      let (ids, name) ← emitAdjoint d
      pure (ids, some name)
    else pure ([], none)
  let controlledIds ← if markers.controlled then emitControlled d adjoint else pure []
  return adjointIds ++ controlledIds

section Step

variable (lower : NodeId → LowerM (List NodeId))

def lowerBlock (block : List NodeId) : LowerM (List NodeId) := do
  return (← block.mapM lower).flatten

/-- Allocation blocks around a definition do not reach into it. -/
def lowerDefinition (id : NodeId) (d : Definition NodeId) : LowerM (List NodeId) := do
  let suspended ← ContextM.suspendAllocations
  let body ← withInsideMethod false (lowerBlock lower d.body)
  ContextM.resumeAllocations suspended
  setDefinitionBody id body
  let variants ← emitVariants { d with body := body }
  return id :: variants

/-- Lowers the statements of an allocation block after those already lowered, and keeps account of
where each one starts. -/
def lowerAllocated (lowered : List NodeId) : List NodeId → LowerM (List NodeId)
  | [] => return lowered
  | nested :: rest => do
    ContextM.enterStatement lowered.length
    let ids ← lower nested
    lowerAllocated (lowered ++ ids) rest

def lowerAllocation (id : NodeId) (body : List NodeId) : LowerM Unit := do
  ContextM.pushAllocation id
  let lowered ← lowerAllocated lower [] body
  let entries ← ContextM.popAllocation id
  let lowered ← emitBatch entries lowered
  setScopedBody id lowered

def lowerScoped (id context : NodeId) (body : List NodeId) : LowerM Unit := do
  if ← (← tree).isAllocation (← options) context then
    replaceMeasurements context
    lowerAllocation lower id body
  else
    replaceMeasurements context
    setScopedBody id (← lowerBlock lower body)

/-- The condition of a quantum conditional is not searched for measurements. -/
def lowerBranches (id test : NodeId) (body orelse : List NodeId) : LowerM Unit := do
  let quantum ← (← tree).isQuantumConditional (← options) id
  unless quantum do replaceMeasurements test
  let body ← lowerBlock lower body
  let orelse ← lowerBlock lower orelse
  setBranches id body orelse
  if quantum then lowerConditional id

def lowerOne (id : NodeId) : LowerM (List NodeId) := do
  match ← stmt id with
  | .expr value =>
    replaceMeasurements value
    return [id]
  | .assign _ value =>
    replaceMeasurements value
    return [id]
  | .define d => lowerDefinition lower id d
  | .classDef _ body =>
    let lowered ← withInsideMethod true (lowerBlock lower body)
    setClassBody id lowered
    return [id]
  | .scoped context _ body =>
    lowerScoped lower id context body
    return [id]
  | .conditional test body orelse =>
    lowerBranches lower id test body orelse
    return [id]
  | _ => return [id]

end Step

def lowerStatementWithin : Nat → NodeId → LowerM (List NodeId)
  | 0, id => throw (.tree (.cyclic id))
  | depth + 1, id => lowerOne (lowerStatementWithin depth) id

def lowerStatement (id : NodeId) : LowerM (List NodeId) := do
  lowerStatementWithin (← tree).depthBound id

end QuantumLowering.LowerM
