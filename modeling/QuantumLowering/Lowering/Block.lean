import QuantumLowering.Syntax.Tree

namespace QuantumLowering.TreeM

def setDefinitionBody (id : NodeId) (body : List NodeId) : TreeM Unit := do
  match ← stmt id with
  | .define d => setStmt id (.define { d with body := body })
  | _ => return ()

def setClassBody (id : NodeId) (body : List NodeId) : TreeM Unit := do
  match ← stmt id with
  | .classDef name _ => setStmt id (.classDef name body)
  | _ => return ()

def setScopedBody (id : NodeId) (body : List NodeId) : TreeM Unit := do
  match ← stmt id with
  | .scoped context binding _ => setStmt id (.scoped context binding body)
  | _ => return ()

def setBranches (id : NodeId) (body orelse : List NodeId) : TreeM Unit := do
  match ← stmt id with
  | .conditional test _ _ => setStmt id (.conditional test body orelse)
  | _ => return ()

end QuantumLowering.TreeM
