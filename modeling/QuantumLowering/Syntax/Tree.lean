import QuantumLowering.Syntax.Node

/-!
Modules in an arena: an array of nodes that refer to each other by index, and the statements of the
module's body. Nodes are added at the end and overwritten in place, so an id stays valid.
-/

namespace QuantumLowering

abbrev NodeId := Nat

inductive TreeError where
  | notFound (id : NodeId)
  | notExpression (id : NodeId)
  | notStatement (id : NodeId)
  | notCall (id : NodeId) (kind : String)
  | reachedTwice (id : NodeId)
  | cyclic (id : NodeId)
  | malformed
deriving DecidableEq, Repr, Inhabited

namespace TreeError

def message : TreeError → String
  | .notFound id => s!"Node #{id} not found in syntax tree"
  | .notExpression id => s!"Node #{id} is statement, expected expression"
  | .notStatement id => s!"Node #{id} is expression, expected statement"
  | .notCall id kind => s!"Node #{id} is {kind}, expected call"
  | .reachedTwice id => s!"Invalid syntax tree document: node {id} is reachable more than once"
  | .cyclic id => s!"Invalid syntax tree document: node {id} lies inside itself"
  | .malformed => "Invalid syntax tree document"

end TreeError

structure SyntaxTree where
  nodes : Array (Node NodeId)
  body : List NodeId
deriving DecidableEq, Repr

namespace SyntaxTree

def empty : SyntaxTree := ⟨#[], []⟩

instance : Inhabited SyntaxTree := ⟨empty⟩

def size (t : SyntaxTree) : Nat := t.nodes.size

def node (t : SyntaxTree) (id : NodeId) : Except TreeError (Node NodeId) :=
  match t.nodes[id]? with
  | some node => .ok node
  | none => .error (.notFound id)

def expr (t : SyntaxTree) (id : NodeId) : Except TreeError (Expr NodeId) :=
  match t.nodes[id]? with
  | some (.expr e) => .ok e
  | some (.stmt _) => .error (.notExpression id)
  | none => .error (.notFound id)

def stmt (t : SyntaxTree) (id : NodeId) : Except TreeError (Stmt NodeId) :=
  match t.nodes[id]? with
  | some (.stmt s) => .ok s
  | some (.expr _) => .error (.notStatement id)
  | none => .error (.notFound id)

def children (t : SyntaxTree) (id : NodeId) : Except TreeError (List NodeId) :=
  Node.children <$> t.node id

/-- A bound on the length of a path that meets no node twice and may end outside the arena. -/
def depthBound (t : SyntaxTree) : Nat := t.size + 1

end SyntaxTree

abbrev TreeM := EStateM TreeError SyntaxTree

instance : MonadLift (Except TreeError) TreeM where
  monadLift
    | .ok a => pure a
    | .error e => throw e

namespace TreeM

def node (id : NodeId) : TreeM (Node NodeId) := do (← get).node id

def expr (id : NodeId) : TreeM (Expr NodeId) := do (← get).expr id

def stmt (id : NodeId) : TreeM (Stmt NodeId) := do (← get).stmt id

def add (node : Node NodeId) : TreeM NodeId :=
  modifyGet fun t => (t.nodes.size, ⟨t.nodes.push node, t.body⟩)

def addExpr (e : Expr NodeId) : TreeM NodeId := add (.expr e)

def addStmt (s : Stmt NodeId) : TreeM NodeId := add (.stmt s)

def addName (name : String) : TreeM NodeId := addExpr (.name name)

def addNames (names : List String) : TreeM (List NodeId) := names.mapM addName

def addAttribute (value : NodeId) (attr : String) : TreeM NodeId :=
  addExpr (.attribute value attr)

def addCall (func : NodeId) (args : List NodeId) : TreeM NodeId := addExpr (.call func args [])

def addNamedCall (name : String) (args : List NodeId) : TreeM NodeId := do
  let func ← addName name
  addCall func args

def addFunctor (functor : GateFunctor) (target : NodeId) : TreeM NodeId :=
  addExpr (.functor functor target)

def addTuple (items : List NodeId) : TreeM NodeId := addExpr (.tuple items)

def addAssign (target value : NodeId) : TreeM NodeId := addStmt (.assign target value)

def setExpr (id : NodeId) (e : Expr NodeId) : TreeM Unit := do
  let _ ← expr id
  modify fun t => ⟨t.nodes.setIfInBounds id (.expr e), t.body⟩

def setStmt (id : NodeId) (s : Stmt NodeId) : TreeM Unit := do
  let _ ← stmt id
  modify fun t => ⟨t.nodes.setIfInBounds id (.stmt s), t.body⟩

def setBody (body : List NodeId) : TreeM Unit := modify fun t => ⟨t.nodes, body⟩

end TreeM

end QuantumLowering
