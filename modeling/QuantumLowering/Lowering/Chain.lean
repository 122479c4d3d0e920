import QuantumLowering.Lowering.Error
import QuantumLowering.Syntax.Equivalence
import QuantumLowering.Syntax.Walk

namespace QuantumLowering

inductive Signature where
  | identity
  | controlled
deriving DecidableEq, Repr, Inhabited

namespace GateFunctor

/-- Puts a functor before a chain. Two adjoints side by side cancel. -/
def compose : GateFunctor → List GateFunctor → List GateFunctor
  | .adjoint, .adjoint :: chain => chain
  | f, chain => f :: chain

def reduceChain (chain : List GateFunctor) : List GateFunctor := chain.foldr compose []

end GateFunctor

namespace SyntaxTree

def signatureWithin (t : SyntaxTree) : Nat → NodeId → Except TreeError Signature
  | 0, id => .error (.cyclic id)
  | depth + 1, id => do
    match ← t.expr id with
    | .functor .controlled _ => return .controlled
    | .functor .adjoint target => t.signatureWithin depth target
    | _ => return .identity

def signature (t : SyntaxTree) (callee : NodeId) : Except TreeError Signature :=
  t.signatureWithin t.depthBound callee

def chainWithin (t : SyntaxTree) : Nat → NodeId → Except TreeError (List GateFunctor × NodeId)
  | 0, id => .error (.cyclic id)
  | depth + 1, id => do
    match ← t.expr id with
    | .functor f target =>
      let (chain, base) ← t.chainWithin depth target
      return (f :: chain, base)
    | _ => return ([], id)

/-- The functors applied to a callee, the outermost first, and what they are applied to. -/
def chain (t : SyntaxTree) (callee : NodeId) : Except TreeError (List GateFunctor × NodeId) :=
  t.chainWithin t.depthBound callee

def operationName (t : SyntaxTree) (callee : NodeId) : Except TreeError (Option String) := do
  let base ← t.innermost callee
  match ← t.expr base with
  | .name name => return some name
  | .attribute _ attr => return some attr
  | _ => return none

def isCall (t : SyntaxTree) (id : NodeId) : Except TreeError Bool := do
  match ← t.expr id with
  | .call .. => return true
  | _ => return false

def callsIn (t : SyntaxTree) (expr : NodeId) : Except TreeError (List NodeId) := do
  let ids ← t.subtree expr
  ids.filterM t.isCall

def callee (t : SyntaxTree) (call : NodeId) : Except TreeError NodeId := do
  match ← t.expr call with
  | .call func _ _ => return func
  | other => throw (.notCall call other.kind)

def isCallTo (t : SyntaxTree) (expr : NodeId) (name : String) : Except TreeError Bool := do
  match ← t.expr expr with
  | .call func _ _ =>
    match ← t.expr func with
    | .name found => return found == name
    | _ => return false
  | _ => return false

/-- The controls an expression lists, through lists and aggregates of any depth. -/
def controlsWithin (t : SyntaxTree) : Nat → NodeId → Except TreeError (List NodeId)
  | 0, id => .error (.cyclic id)
  | depth + 1, id => do
    match ← t.expr id with
    | .list items => return (← items.mapM (t.controlsWithin depth)).flatten
    | .aggregate members => return (← members.mapM (t.controlsWithin depth)).flatten
    | _ => return [id]

def controls (t : SyntaxTree) (id : NodeId) : Except TreeError (List NodeId) :=
  t.controlsWithin t.depthBound id

def anySame (t : SyntaxTree) (id : NodeId) : List NodeId → Except TreeError Bool
  | [] => .ok false
  | other :: others => do if ← t.same other id then return true else t.anySame id others

def dedupe (t : SyntaxTree) (ids : List NodeId) : Except TreeError (List NodeId) :=
  ids.foldlM (fun kept id => do
    if ← t.anySame id kept then return kept else return kept ++ [id]) []

end SyntaxTree

namespace TreeM

def setCallee (call func : NodeId) : TreeM Unit := do
  match ← expr call with
  | .call _ args keywords => setExpr call (.call func args keywords)
  | _ => return ()

def modifyArgs (call : NodeId) (f : List NodeId → List NodeId) : TreeM Unit := do
  match ← expr call with
  | .call func args keywords => setExpr call (.call func (f args) keywords)
  | _ => return ()

/-- Adds the aggregate of a new control and those already there, each once. -/
def mergeControl (existing control : NodeId) : TreeM NodeId := do
  let t ← get
  let members ← t.dedupe (control :: (← t.controls existing))
  addExpr (.aggregate members)

/-- The callee with adjacent adjoints cancelled: itself if there are none. -/
def cancelAdjointPairs (callee : NodeId) : TreeM NodeId := do
  let (chain, base) ← (← get).chain callee
  let reduced := GateFunctor.reduceChain chain
  if reduced.length = chain.length then return callee
  else reduced.foldrM addFunctor base

end TreeM

end QuantumLowering
