import Mathlib.Algebra.GroupWithZero.Nat
import QuantumLowering.Proofs.Syntax.Shape
import QuantumLowering.Proofs.Syntax.Validation

/-!
What a node stands for: the term that is left when every reference is replaced by what it leads to. Any
kind of node may stand anywhere, a shared node stands for the same term at each place, and a node that
lies inside itself or above a dangling reference stands for none.
-/

namespace QuantumLowering

/-- A node with terms for its parts. -/
inductive Term where
  | node (layer : Node Term)

namespace Term

instance : Inhabited Term := ⟨.node (.stmt .pass)⟩

theorem sizeOf_part {layer : Node Term} {part : Term} (member : part ∈ layer.children) :
    sizeOf part < sizeOf (node layer) := by
  have := Node.sizeOf_lt_of_mem_children member
  simp only [node.sizeOf_spec]
  omega

def size : Term → Nat
  | .node layer => (layer.children.attach.map fun part => size part.1).sum + 1
termination_by x => sizeOf x
decreasing_by exact sizeOf_part part.2

@[simp]
theorem size_node (layer : Node Term) :
    (node layer).size = (layer.children.map size).sum + 1 := by
  rw [size, List.attach_map_val (f := size)]

end Term

/-- The id stands for the term. -/
inductive SyntaxTree.Unfolds (t : SyntaxTree) : NodeId → Term → Prop where
  | node {id : NodeId} {node : Node NodeId} {pick : NodeId → Term}
    (found : t.nodes[id]? = some node) (below : ∀ part ∈ node.children, Unfolds t part (pick part)) :
    Unfolds t id (.node (node.map pick))

instance : Inhabited Unfolding := ⟨.node 0 []⟩

namespace SyntaxTree.Unfolds

variable {t t' : SyntaxTree} {id : NodeId} {x y : Term}

theorem unique (unfolds : t.Unfolds id x) (unfolds' : t.Unfolds id y) : x = y := by
  induction unfolds generalizing y with
  | node found below ih =>
    cases unfolds' with
    | node found' below' =>
      cases found.symm.trans found'
      refine congrArg Term.node (Node.ext_shape (by simp) ?_)
      rw [Node.children_map, Node.children_map]
      exact List.map_congr_left fun part member => ih part member (below' part member)

/-- One function tells what every id stands for. -/
theorem exists_reading (t : SyntaxTree) :
    ∃ read : NodeId → Term, ∀ id x, t.Unfolds id x → read id = x := by
  classical
  refine ⟨fun id => if h : ∃ x, t.Unfolds id x then h.choose else default, fun id x unfolds => ?_⟩
  have exists_ : ∃ x, t.Unfolds id x := ⟨x, unfolds⟩
  simp only [exists_, ↓reduceDIte]
  exact exists_.choose_spec.unique unfolds

/-- An id stands for a term if its node has the shape of the term and its parts stand for the parts. -/
theorem node_iff {layer : Node Term} : t.Unfolds id (.node layer) ↔
    ∃ node, t.nodes[id]? = some node ∧ node.shape = layer.shape ∧
      List.Forall₂ t.Unfolds node.children layer.children := by
  constructor
  · rintro ⟨found, below⟩
    refine ⟨_, found, by simp, ?_⟩
    rw [Node.children_map, List.forall₂_map_right_iff, List.forall₂_same]
    exact below
  · rintro ⟨node, found, shapes, parts⟩
    obtain ⟨read, reads⟩ := exists_reading t
    have same : layer = node.map read := by
      refine Node.ext_shape (by simp [shapes]) ?_
      have listed := parts.imp fun part x unfolds => reads part x unfolds
      rw [← List.forall₂_map_left_iff (f := read), List.forall₂_eq_eq_eq] at listed
      rw [Node.children_map, listed]
    subst same
    refine .node found fun part member => ?_
    rw [Node.children_map, List.forall₂_map_right_iff, List.forall₂_same] at parts
    exact parts part member

theorem of_extends (unfolds : t.Unfolds id x) (ext : Extends [] t t') : t'.Unfolds id x := by
  induction unfolds with
  | node found _ ih => exact .node (ext.found found) ih

theorem exists_spans (unfolds : t.Unfolds id x) :
    ∃ u, Spans t u ∧ u.root = id ∧ u.ids.length = x.size := by
  induction unfolds with
  | @node id node pick found _ ih =>
    obtain ⟨tree, spans⟩ := exists_choice ih
    refine ⟨.node id (node.children.map tree), .node found ?_ ?_, rfl, ?_⟩
    · rw [List.map_map]
      exact (List.map_id'' (fun _ => rfl) _).symm.trans
        (List.map_congr_left fun part member => (spans part member).2.1.symm)
    · intro u member
      obtain ⟨part, listed, rfl⟩ := List.mem_map.1 member
      exact (spans part listed).1
    · rw [Unfolding.ids, Term.size_node, List.length_cons, List.length_flatten, List.map_map,
        List.map_map, Node.children_map, List.map_map]
      congr 2
      exact List.map_congr_left fun part member => (spans part member).2.2

end SyntaxTree.Unfolds

end QuantumLowering
