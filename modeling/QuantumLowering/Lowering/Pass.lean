import QuantumLowering.Lowering.Statement

namespace QuantumLowering

inductive PassKind where
  | analysis
  | transformation
deriving DecidableEq, Repr, Inhabited

/-- A pass over a module. It is left out where `shouldRun` says so. -/
structure Pass where
  name : String
  kind : PassKind
  shouldRun : LoweringState → Bool
  run : LowerM Unit

namespace Pass

open TreeM LowerM

def inferNode (id : NodeId) : LowerM Unit := do
  match ← node id with
  | .stmt (.define d) =>
    ContextM.reserve d.name
    d.params.forM fun param => ContextM.reserve param
    match d.operation with
    | some markers => ContextM.modifyOperations (OperationTable.declare · d.name markers)
    | none => return ()
  | .stmt (.classDef name _) => ContextM.reserve name
  | .stmt (.importAs _ name) => ContextM.reserve name
  | .expr (.name name) => ContextM.reserve name
  | _ => return ()

def inferRoot (root : NodeId) : LowerM Unit := do
  let ids ← (← tree).subtree root
  ids.forM inferNode

def inferOperations : Pass where
  name := "infer_operations"
  kind := .analysis
  shouldRun _ := true
  run := do (← tree).body.forM inferRoot

def importsBoilerplate (s : LoweringState) (id : NodeId) : Bool :=
  match s.tree.stmt id with
  | .ok (.importAs module name) =>
    module == s.context.options.boilerplateModule && name == s.context.options.boilerplateAlias
  | _ => false

def injectBoilerplate : Pass where
  name := "inject_boilerplate"
  kind := .transformation
  shouldRun s := !s.tree.body.any (importsBoilerplate s)
  run := do
    let o ← options
    let id ← addStmt (.importAs o.boilerplateModule o.boilerplateAlias)
    setBody (id :: (← tree).body)

def lowerModule : Pass where
  name := "lower_module"
  kind := .transformation
  shouldRun _ := true
  run := do
    let t ← tree
    let body ← lowerBlock (lowerStatementWithin t.depthBound) t.body
    setBody body

def missingVariant? (operations : OperationTable) (d : Definition NodeId) : Option GateFunctor :=
  [.adjoint, .controlled].find? fun functor =>
    d.markers.requests functor && !(operations.resolve d.name functor).isOk

def verifyNode (t : SyntaxTree) (operations : OperationTable) (seen : List NodeId) (id : NodeId) :
    LowerM (List NodeId) := do
  if id ∈ seen then throw (.invariant (.reachedTwice id))
  match ← t.node id with
  | .stmt (.define d) =>
    match missingVariant? operations d with
    | some functor => throw (.invariant (.neverDerived functor d.name))
    | none => return id :: seen
  | _ => return id :: seen

def verifyRoot (t : SyntaxTree) (operations : OperationTable) (seen : List NodeId)
    (root : NodeId) : LowerM (List NodeId) := do
  let ids ← t.subtree root
  ids.foldlM (verifyNode t operations) seen

/-- No allocation is left open, no node is reached twice, and every variant asked for is there. -/
def verifyOutcome : Pass where
  name := "verify_translation"
  kind := .analysis
  shouldRun _ := true
  run := do
    ContextM.checkBalanced
    let t ← tree
    let _ ← t.body.foldlM (verifyRoot t (← operations)) []

end Pass

abbrev Pipeline := List Pass

namespace Pipeline

def build (boilerplate verification : Bool) : Pipeline :=
  [.inferOperations] ++ (if boilerplate then [.injectBoilerplate] else []) ++ [.lowerModule] ++
    (if verification then [.verifyOutcome] else [])

def standard : Pipeline := build true true

def run (pipeline : Pipeline) : LowerM Unit :=
  pipeline.forM fun pass => do if pass.shouldRun (← get) then pass.run

end Pipeline

structure Lowered where
  tree : SyntaxTree
  operations : OperationTable
  stats : Stats

def SyntaxTree.lower (t : SyntaxTree) (options : Options) (pipeline : Pipeline) :
    Except LoweringError Lowered :=
  match pipeline.run ⟨t, .new options⟩ with
  | .ok _ s => .ok ⟨s.tree, s.context.operations, s.context.stats⟩
  | .error e _ => .error e

end QuantumLowering
