import QuantumLowering.Syntax.Tree

namespace QuantumLowering.SyntaxTree

def unseen (n : Nat) (seen : List NodeId) : Nat := ((List.range n).filter (· ∉ seen)).length

theorem unseen_cons_lt {n id : Nat} {seen : List NodeId} (bound : id < n) (fresh : id ∉ seen) :
    unseen n (id :: seen) < unseen n seen := by
  have split : (List.range n).filter (· ∉ id :: seen) =
      ((List.range n).filter (· ∉ seen)).filter (· ≠ id) := by
    rw [List.filter_filter]
    apply List.filter_congr
    intro other _
    by_cases h : other = id <;> simp [h]
  unfold unseen
  rw [split, List.length_filter_lt_length_iff_exists]
  exact ⟨id, by simp [bound, fresh], by simp⟩

theorem lt_size_of_children {t : SyntaxTree} {id : NodeId} {kids : List NodeId}
    (h : t.children id = .ok kids) : id < t.size := by
  unfold children node at h
  cases found : t.nodes[id]? with
  | none => simp [found, Functor.map, Except.map] at h
  | some node => exact (Array.getElem?_eq_some_iff.1 found).1

/-- Walks the pending ids depth first. An id is looked up before it is checked against those seen
already. -/
def validateFrom (t : SyntaxTree) (pending seen : List NodeId) : Except TreeError Unit :=
  match pending with
  | [] => .ok ()
  | id :: rest =>
    match _found : t.children id with
    | .error e => .error e
    | .ok kids =>
      if _again : id ∈ seen then .error (.reachedTwice id)
      else validateFrom t (kids ++ rest) (id :: seen)
termination_by unseen t.size seen
decreasing_by exact unseen_cons_lt (lt_size_of_children _found) _again

def validate (t : SyntaxTree) : Except TreeError Unit := t.validateFrom t.body []

/-- An id that waits on the stack of a walk, with the number of levels that the walk may go down
from there. A walk that goes further than there are nodes has met one inside itself. -/
structure Pending where
  id : NodeId
  levels : Nat
deriving DecidableEq, Repr

def pushAll (levels : Nat) (ids : List NodeId) (stack : List Pending) : List Pending :=
  ids.reverse.foldl (fun stack id => ⟨id, levels⟩ :: stack) stack

theorem pushAll_eq (levels : Nat) (ids : List NodeId) (stack : List Pending) :
    pushAll levels ids stack = ids.map (⟨·, levels⟩) ++ stack := by
  simp [pushAll]

/-- The turns of a walk from a node down so many levels, and then as many as for the rest. -/
def turnsWithin (t : SyntaxTree) : Nat → NodeId → Nat → Nat
  | 0, _, rest => rest
  | levels + 1, id, rest =>
    match t.children id with
    | .error _ => rest + 1
    | .ok kids => kids.foldr (t.turnsWithin levels) rest + 1

def turns (t : SyntaxTree) (stack : List Pending) : Nat :=
  stack.foldr (fun waiting rest => t.turnsWithin waiting.levels waiting.id rest) 0

theorem turns_pushAll {t : SyntaxTree} {id : NodeId} {kids : List NodeId} (levels : Nat)
    (rest : List Pending) (h : t.children id = .ok kids) :
    t.turns (⟨id, levels + 1⟩ :: rest) = t.turns (pushAll levels kids rest) + 1 := by
  simp [turns, pushAll_eq, turnsWithin, h, List.foldr_map]

/-- Takes the next id off the stack, lists it and puts its parts on the stack, until nothing is
left there. -/
def subtreeFrom (t : SyntaxTree) (stack : List Pending) (listed : Array NodeId) :
    Except TreeError (List NodeId) :=
  match stack with
  | [] => .ok listed.toList
  | ⟨id, 0⟩ :: _ => .error (.cyclic id)
  | ⟨id, levels + 1⟩ :: rest =>
    match _found : t.children id with
    | .error e => .error e
    | .ok kids => t.subtreeFrom (pushAll levels kids rest) (listed.push id)
termination_by t.turns stack
decreasing_by
  rw [turns_pushAll levels rest _found]
  exact Nat.lt_succ_self _

def subtree (t : SyntaxTree) (id : NodeId) : Except TreeError (List NodeId) :=
  t.subtreeFrom [⟨id, t.depthBound⟩] #[]

def meets (t : SyntaxTree) (ids : List NodeId) : List NodeId → Except TreeError Bool
  | [] => .ok false
  | root :: roots => do
    let below ← t.subtree root
    if below.any (· ∈ ids) then return true else t.meets ids roots

def sharesNodes (t : SyntaxTree) (a b : List NodeId) : Except TreeError Bool := do
  let below ← a.mapM t.subtree
  t.meets below.flatten b

def innermostWithin (t : SyntaxTree) : Nat → NodeId → Except TreeError NodeId
  | 0, id => .error (.cyclic id)
  | depth + 1, id => do
    match ← t.expr id with
    | .functor _ target => t.innermostWithin depth target
    | _ => return id

def innermost (t : SyntaxTree) (id : NodeId) : Except TreeError NodeId :=
  t.innermostWithin t.depthBound id

end QuantumLowering.SyntaxTree
