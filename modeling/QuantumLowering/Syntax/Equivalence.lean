import QuantumLowering.Syntax.Tree

namespace QuantumLowering.SyntaxTree

def allPairs (same : NodeId → NodeId → Except TreeError Bool) :
    List NodeId → List NodeId → Except TreeError Bool
  | [], [] => .ok true
  | x :: xs, y :: ys => do if ← same x y then allPairs same xs ys else return false
  | _, _ => .ok false

def sameWithin (t : SyntaxTree) : Nat → NodeId → NodeId → Except TreeError Bool
  | 0, a, _ => .error (.cyclic a)
  | depth + 1, a, b => do
    let x ← t.node a
    let y ← t.node b
    if x.sameHead y then allPairs (t.sameWithin depth) x.children y.children else return false

def same (t : SyntaxTree) (a b : NodeId) : Except TreeError Bool := t.sameWithin t.depthBound a b

def sameBlocks (t : SyntaxTree) (a b : List NodeId) : Except TreeError Bool :=
  if a.length = b.length then allPairs t.same a b else .ok false

end QuantumLowering.SyntaxTree
