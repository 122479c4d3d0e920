import QuantumLowering.Lowering.Pass
import QuantumLowering.Proofs.Lowering.Adjoint
import QuantumLowering.Proofs.Lowering.Control

/-!
Lowering of terms. What lowering does to a module is said once more without an arena: statements are
rebuilt instead of overwritten, and the measurements of the innermost allocation block are kept as
terms.
-/

namespace QuantumLowering

structure Hoisted (α : Type) where
  index : Nat
  call : ExprTree α
  placeholder : String

/-- The innermost allocation block: the place of the statement being lowered, and the measurements
found so far. -/
structure Batch where
  statement : Nat
  hoisted : List (Hoisted Unit)

structure Progress where
  operations : OperationTable
  stats : Stats
  names : NameSupply
  insideMethod : Bool
  batch : Option Batch

abbrev PlanM := StateT Progress Plan

def nameTerm (name : String) : ExprTerm := .node () (.name name)

namespace PlanM

def freshName (base : String) : PlanM String :=
  modifyGet fun p => ((p.names.fresh base).1, { p with names := (p.names.fresh base).2 })

def modifyStats (f : Stats → Stats) : PlanM Unit := modify fun p => { p with stats := f p.stats }

def withMethod {α : Type} (inside : Bool) (act : PlanM α) : PlanM α := do
  let before ← get
  set { before with insideMethod := inside }
  let a ← act
  modify fun p => { p with insideMethod := before.insideMethod }
  return a

/-- Runs in an allocation block of its own, or outside all of them, and gives what became of it. -/
def withBatch {α : Type} (batch : Option Batch) (act : PlanM α) : PlanM (α × Option Batch) := do
  let before ← get
  set { before with batch := batch }
  let a ← act
  let after ← get
  set { after with batch := before.batch }
  return (a, after.batch)

def link (functor : GateFunctor) (operation variant : String) : PlanM StmtTerm := do
  modify fun p => { p with operations := p.operations.link operation functor variant }
  return .wire () functor operation variant

def deriveControlled (o : Options) (d : Definition StmtTerm) : PlanM (Definition StmtTerm) := do
  let control ← freshName o.controlParam
  let body ← controlStmts (← get).operations control d.body
  let position := LowerM.controlPosition (← get).insideMethod d.params
  let name ← freshName (variantBase d.name GateFunctor.controlled.suffix)
  modifyStats fun s => { s with controlledDerived := s.controlledDerived + 1 }
  return ⟨name, d.params.insertIdx position control, body, some .none⟩

def deriveAdjoint (o : Options) (d : Definition StmtTerm) : PlanM (Definition StmtTerm) := do
  let body ← adjointStmts (← get).operations o d.body
  let name ← freshName (variantBase d.name GateFunctor.adjoint.suffix)
  modifyStats fun s => { s with adjointsDerived := s.adjointsDerived + 1 }
  return ⟨name, d.params, body, some .none⟩

def emitAdjoint (o : Options) (d : Definition StmtTerm) : PlanM (List StmtTerm × String) := do
  let derived ← deriveAdjoint o d
  let there ← link .adjoint d.name derived.name
  let back ← link .adjoint derived.name d.name
  return ([.define () derived, there, back], derived.name)

def emitControlled (o : Options) (d : Definition StmtTerm) (adjoint : Option String) :
    PlanM (List StmtTerm) := do
  let controlled ← deriveControlled o d
  match adjoint with
  | none =>
    let there ← link .controlled d.name controlled.name
    let self ← link .controlled controlled.name controlled.name
    return [.define () controlled, there, self]
  | some adjoint =>
    let both ← deriveAdjoint o controlled
    let there ← link .controlled d.name controlled.name
    let self ← link .controlled controlled.name controlled.name
    let down ← link .adjoint controlled.name both.name
    let up ← link .adjoint both.name controlled.name
    let across ← link .controlled adjoint both.name
    let stay ← link .controlled both.name both.name
    return [.define () controlled, there, self, .define () both, down, up, across, stay]

def requestedAdjoints (o : Options) (d : Definition StmtTerm) :
    PlanM (List StmtTerm × Option String) :=
  if d.markers.adjoint then do
    let (adjoints, name) ← emitAdjoint o d
    return (adjoints, some name)
  else return ([], none)

def requestedControlled (o : Options) (d : Definition StmtTerm) (adjoint : Option String) :
    PlanM (List StmtTerm) :=
  if d.markers.controlled then emitControlled o d adjoint else return []

def emitVariants (o : Options) (d : Definition StmtTerm) : PlanM (List StmtTerm) := do
  let (adjoints, adjoint) ← requestedAdjoints o d
  let controlled ← requestedControlled o d adjoint
  return adjoints ++ controlled

def record (call : ExprTerm) (batch : Batch) (stem : String) : PlanM String := do
  let placeholder ← freshName (stem ++ Nat.repr (batch.hoisted.length + 1))
  let entry := ⟨batch.statement, call, placeholder⟩
  modify fun p => { p with batch := some { batch with hoisted := batch.hoisted ++ [entry] } }
  return placeholder

/-- Replaces the outermost measurements in an expression by the names of their values, if an
allocation block is open. -/
def hoist (o : Options) : ExprTerm → PlanM ExprTerm
  | .node _ layer => do
    match (← get).batch with
    | none => return .node () layer
    | some batch =>
      if (ExprTree.node () layer).isCallTo o.measureFn then
        return nameTerm (← record (.node () layer) batch o.placeholderStem)
      else
        let parts ← layer.children.attach.mapM fun part => hoist o part.1
        return .node () (layer.refill parts)
termination_by e => sizeOf e
decreasing_by exact ExprTree.sizeOf_part part.2

def emitProxies (o : Options) : Nat → List (Hoisted Unit) → PlanM (List (StmtTerm × String))
  | _, [] => return []
  | ordinal, entry :: entries => do
    let proxy ← freshName (o.proxyStem ++ Nat.repr ordinal)
    let rest ← emitProxies o (ordinal + 1) entries
    return (.assign () (nameTerm proxy) entry.call, proxy) :: rest

def execution (o : Options) (proxies placeholders : List String) : StmtTerm :=
  .assign () (.node () (.tuple (placeholders.map nameTerm)))
    (.node () (.call (.node () (.attribute (nameTerm o.boilerplateAlias) o.executeFn))
      (proxies.map nameTerm) []))

def emitBatch (o : Options) (entries : List (Hoisted Unit)) (body : List StmtTerm) :
    PlanM (List StmtTerm) := do
  match (entries.map Hoisted.index).min? with
  | none => return body
  | some position =>
    let emitted ← emitProxies o 1 entries
    modifyStats fun s => { s with
      blocksHoisted := s.blocksHoisted + 1
      measurementsHoisted := s.measurementsHoisted + entries.length }
    let executed := execution o (emitted.map Prod.snd) (entries.map Hoisted.placeholder)
    return body.take position ++ emitted.map Prod.fst ++ [executed] ++ body.drop position

def comparisonOperands (o : Options) (test : ExprTerm) : Plan (ExprTerm × ExprTerm) :=
  match test.layer with
  | .call _ [argument] [] =>
    match argument.layer with
    | .compare left .equal right =>
      match left.layer with
      | .int _ => .ok (right, left)
      | _ => .ok (left, right)
    | .compare _ .notEqual _ => .error (.unsupported .inequality)
    | other => .error (.unsupported (.noComparison other.kind))
  | _ => .error (.unsupported (.conditionArity o.conditionFn))

def scopeCall (o : Options) (lines value : ExprTerm) : ExprTerm :=
  .node () (.call (.node () (.attribute (nameTerm o.boilerplateAlias) o.scopeFn)) [lines, value] [])

def lowerConditional (o : Options) (test : ExprTerm) (body orelse : List StmtTerm) :
    PlanM StmtTerm := do
  if orelse.isEmpty then
    let (lines, value) ← comparisonOperands o test
    let control ← freshName o.controlParam
    let body ← controlStmts (← get).operations control body
    modifyStats fun s => { s with conditionalsLowered := s.conditionalsLowered + 1 }
    return .scoped () (scopeCall o lines value) (some (nameTerm control)) body
  else throw (.unsupported .elseBranch)

def enterStatement (index : Nat) : PlanM Unit :=
  modify fun p => { p with batch := p.batch.map fun b => { b with statement := index } }

def lowerAllocated {β : Type} (lower : β → PlanM (List StmtTerm)) (lowered : List StmtTerm) :
    List β → PlanM (List StmtTerm)
  | [] => return lowered
  | nested :: rest => do
    enterStatement lowered.length
    let stmts ← lower nested
    lowerAllocated lower (lowered ++ stmts) rest

def lowerStmt (o : Options) : StmtTerm → PlanM (List StmtTerm)
  | .expr _ value => do return [.expr () (← hoist o value)]
  | .assign _ target value => do return [.assign () target (← hoist o value)]
  | .define _ ⟨name, params, body, operation⟩ => do
    let (body, _) ← withBatch none <| withMethod false <|
      body.attach.mapM fun s => lowerStmt o s.1
    let variants ← emitVariants o ⟨name, params, body.flatten, operation⟩
    return .define () ⟨name, params, body.flatten, operation⟩ :: variants
  | .classDef _ name body => do
    let body ← withMethod true (body.attach.mapM fun s => lowerStmt o s.1)
    return [.classDef () name body.flatten]
  | .scoped _ context binding body => do
    if context.isCallTo o.allocateFn then
      let context ← hoist o context
      let (body, batch) ← withBatch (some ⟨0, []⟩)
        (lowerAllocated (fun s => lowerStmt o s.1) [] body.attach)
      let body ← emitBatch o (batch.elim [] Batch.hoisted) body
      return [.scoped () context binding body]
    else
      let context ← hoist o context
      let body ← body.attach.mapM fun s => lowerStmt o s.1
      return [.scoped () context binding body.flatten]
  | .conditional _ test body orelse => do
    if test.isCallTo o.conditionFn then
      let body ← body.attach.mapM fun s => lowerStmt o s.1
      let orelse ← orelse.attach.mapM fun s => lowerStmt o s.1
      return [← lowerConditional o test body.flatten orelse.flatten]
    else
      let test ← hoist o test
      let body ← body.attach.mapM fun s => lowerStmt o s.1
      let orelse ← orelse.attach.mapM fun s => lowerStmt o s.1
      return [.conditional () test body.flatten orelse.flatten]
  | s => return [s]
termination_by s => sizeOf s
decreasing_by all_goals exact StmtTree.sizeOf_inner (by simp [StmtTree.inner, s.2])

def lowerStmts (o : Options) (block : List StmtTerm) : PlanM (List StmtTerm) := do
  let block ← block.mapM (lowerStmt o)
  return block.flatten

end PlanM

end QuantumLowering
