import QuantumLowering.Syntax.Tree

namespace QuantumLowering.TreeM

def copyWithin : Nat → NodeId → TreeM NodeId
  | 0, id => throw (.cyclic id)
  | depth + 1, id => do
    let source ← node id
    let copied ← source.traverse (copyWithin depth)
    add copied

def copy (id : NodeId) : TreeM NodeId := do copyWithin (← get).depthBound id

def copyBlock (ids : List NodeId) : TreeM (List NodeId) := ids.mapM copy

end QuantumLowering.TreeM
