import Mathlib.Data.List.Perm.Subperm
import QuantumLowering.Proofs.Syntax.Placement

/-!
Cells as something owned. A computation turns the cells it owns into others, some of them new, and
leaves everything else alone. Owned cells can be framed, reordered and given up.
-/

namespace QuantumLowering

/-- The cells stand in the arena, and no two of them in one place. -/
structure Owns (t : SyntaxTree) (cells : List Cell) : Prop where
  held : Holds t cells
  once : (cells.map Prod.fst).Nodup

namespace Owns

variable {t : SyntaxTree} {cells more : List Cell}

theorem nil : Owns t [] := ⟨.nil, by simp⟩

theorem perm (owned : Owns t cells) (order : cells.Perm more) : Owns t more :=
  ⟨fun cell member => owned.held cell (order.mem_iff.2 member),
    (order.map Prod.fst).nodup_iff.1 owned.once⟩

theorem left (owned : Owns t (cells ++ more)) : Owns t cells := by
  refine ⟨(Holds.append_iff.1 owned.held).1, ?_⟩
  have once := owned.once
  rw [List.map_append] at once
  exact once.of_append_left

theorem right (owned : Owns t (cells ++ more)) : Owns t more := by
  refine ⟨(Holds.append_iff.1 owned.held).2, ?_⟩
  have once := owned.once
  rw [List.map_append] at once
  exact once.of_append_right

theorem head {cell : Cell} (owned : Owns t (cell :: cells)) : Owns t [cell] :=
  (show Owns t ([cell] ++ cells) from owned).left

theorem tail {cell : Cell} (owned : Owns t (cell :: cells)) : Owns t cells :=
  (show Owns t ([cell] ++ cells) from owned).right

theorem apart (owned : Owns t (cells ++ more)) :
    ∀ id ∈ more.map Prod.fst, id ∉ cells.map Prod.fst := by
  intro id member inside
  have once := owned.once
  rw [List.map_append, List.nodup_append] at once
  exact once.2.2 id inside id member rfl

end Owns

theorem Owns.expr_head {t : SyntaxTree} {id : NodeId} {layer : Expr (ExprTree NodeId)}
    (owned : Owns t (ExprTree.node id layer).cells) :
    Owns t [(id, .expr (layer.map ExprTree.label))] := by
  rw [ExprTree.cells_node] at owned
  exact owned.head

/-- The cells owned before have become those after; nothing else has changed but for nodes added. -/
structure Becomes (t t' : SyntaxTree) (before after : List Cell) : Prop where
  ext : Extends (before.map Prod.fst) t t'
  held : Holds t' after
  reuses : Reuses t t' (before.map Prod.fst) (after.map Prod.fst)

namespace Becomes

variable {t t' t'' : SyntaxTree} {before between after cells : List Cell}

theorem refl (held : Holds t cells) : Becomes t t cells cells :=
  ⟨.refl _ t, held, .refl t _⟩

theorem trans (first : Becomes t t' before between) (second : Becomes t' t'' between after) :
    Becomes t t'' before after := by
  refine ⟨first.ext.trans second.ext ?_, second.held,
    first.reuses.trans second.reuses first.ext.size_le second.ext.size_le⟩
  intro id member bound
  rcases first.reuses.mem member with old | new
  · exact old
  · omega

theorem owns (becomes : Becomes t t' before after) (owned : Owns t before) : Owns t' after :=
  ⟨becomes.held, becomes.reuses.nodup owned.once fun _ member => owned.held.lt_size member⟩

theorem frame (becomes : Becomes t t' before after) (held : Holds t cells)
    (apart : ∀ id ∈ cells.map Prod.fst, id ∉ before.map Prod.fst) :
    Becomes t t' (before ++ cells) (after ++ cells) := by
  have kept := becomes.ext.holds held apart
  refine ⟨becomes.ext.widen (by simp +contextual), Holds.append_iff.2 ⟨becomes.held, kept⟩, ?_⟩
  rw [List.map_append, List.map_append]
  intro id
  have := becomes.reuses id
  simp only [List.count_append]
  omega

theorem frame_owned (becomes : Becomes t t' before after) (owned : Owns t (before ++ cells)) :
    Becomes t t' (before ++ cells) (after ++ cells) :=
  becomes.frame (Holds.append_iff.1 owned.held).2 owned.apart

theorem perm {before' after' : List Cell} (becomes : Becomes t t' before after)
    (order : before.Perm before') (order' : after.Perm after') : Becomes t t' before' after' := by
  refine ⟨becomes.ext.widen fun id member => (order.map Prod.fst).mem_iff.1 member,
    fun cell member => becomes.held cell (order'.mem_iff.2 member), fun id => ?_⟩
  rw [← (order.map Prod.fst).count_eq, ← (order'.map Prod.fst).count_eq]
  exact becomes.reuses id

theorem frame_owned_left (becomes : Becomes t t' before after) (owned : Owns t (cells ++ before)) :
    Becomes t t' (cells ++ before) (cells ++ after) :=
  (becomes.frame_owned (owned.perm List.perm_append_comm)).perm List.perm_append_comm
    List.perm_append_comm

theorem cons_owned {cell : Cell} (becomes : Becomes t t' before after)
    (owned : Owns t (cell :: before)) : Becomes t t' (cell :: before) (cell :: after) :=
  becomes.frame_owned_left (show Owns t ([cell] ++ before) from owned)

theorem giveUp (becomes : Becomes t t' before between) (fewer : after.Subperm between) :
    Becomes t t' before after := by
  refine ⟨becomes.ext, fun cell member => becomes.held cell (fewer.subset member), fun id => ?_⟩
  have := becomes.reuses id
  have : (after.map Prod.fst).count id ≤ (between.map Prod.fst).count id := by
    rw [List.count_eq_countP, List.count_eq_countP, List.countP_map, List.countP_map]
    exact fewer.countP_le _
  omega

theorem append {more later : List Cell} (first : Becomes t t' before after)
    (second : Becomes t' t'' more later) (owned : Owns t (before ++ more)) :
    Becomes t t'' (before ++ more) (after ++ later) := by
  have framed := first.frame_owned owned
  exact framed.trans (second.frame_owned_left (framed.owns owned))

theorem append_new {more : List Cell} (first : Becomes t t' before after)
    (second : Becomes t' t'' [] more) : Becomes t t'' before (after ++ more) := by
  refine first.trans ?_
  simpa using (second.frame first.held (by simp)).perm .rfl List.perm_append_comm

theorem beside (new : Becomes t t' [] after) (held : Holds t cells) :
    Becomes t t' cells (cells ++ after) :=
  (Becomes.refl held).append_new new

end Becomes

namespace SyntaxTree

def push (t : SyntaxTree) (node : Node NodeId) : SyntaxTree := ⟨t.nodes.push node, t.body⟩

def put (t : SyntaxTree) (id : NodeId) (node : Node NodeId) : SyntaxTree :=
  ⟨t.nodes.setIfInBounds id node, t.body⟩

variable {t : SyntaxTree} {node : Node NodeId} {id : Nat}

@[simp]
theorem size_push : (t.push node).size = t.size + 1 := by
  simp [push, size]

@[simp]
theorem size_put : (t.put id node).size = t.size := by
  simp [put, size]

@[simp]
theorem body_push : (t.push node).body = t.body := rfl

@[simp]
theorem body_put : (t.put id node).body = t.body := rfl

theorem nodes_push :
    (t.push node).nodes[id]? = if id = t.size then some node else t.nodes[id]? := by
  exact Array.getElem?_push

theorem nodes_put {other : Nat} : (t.put id node).nodes[other]? =
    if other = id ∧ id < t.size then some node else t.nodes[other]? := by
  simp only [put, size, Array.getElem?_setIfInBounds]
  by_cases same : id = other
  · subst same
    by_cases bound : id < t.nodes.size
    · simp [bound]
    · simp [bound]
  · simp [same, Ne.symm same]

end SyntaxTree

namespace Becomes

variable {t t' : SyntaxTree} {before after : List Cell} {node old : Node NodeId} {id : Nat}

theorem push (t : SyntaxTree) (node : Node NodeId) :
    Becomes t (t.push node) [] [(t.size, node)] := by
  refine ⟨⟨by simp, rfl, fun id bound _ => ?_⟩, ?_, fun id => ?_⟩
  · rw [SyntaxTree.nodes_push, if_neg (by omega)]
  · simp [SyntaxTree.nodes_push]
  · simp only [List.map_nil, List.map_cons, List.count_nil, List.count_singleton, beq_iff_eq, added,
      SyntaxTree.size_push]
    split <;> split <;> omega

theorem put (node : Node NodeId) (found : t.nodes[id]? = some old) :
    Becomes t (t.put id node) [(id, old)] [(id, node)] := by
  have bound : id < t.size := (Array.getElem?_eq_some_iff.1 found).1
  refine ⟨⟨by simp, rfl, fun other _ outside => ?_⟩, ?_, fun other => ?_⟩
  · rw [SyntaxTree.nodes_put, if_neg]
    rintro ⟨rfl, -⟩
    exact outside (by simp)
  · simp [SyntaxTree.nodes_put, bound]
  · simp

theorem put_head (becomes : Becomes t t' before ((id, old) :: after)) (owned : Owns t before)
    (node : Node NodeId) : Becomes t (t'.put id node) before ((id, node) :: after) := by
  have found := becomes.held (id, old) (by simp)
  exact becomes.trans ((Becomes.put node found).frame_owned (becomes.owns owned))

theorem cons_new (becomes : Becomes t t' before after) (node : Node NodeId) :
    Becomes t (t'.push node) before ((t'.size, node) :: after) :=
  (becomes.append_new (.push t' node)).perm .rfl List.perm_append_comm

end Becomes

namespace TreeM

variable {α β : Type} {t t' : SyntaxTree} {id : NodeId}

theorem run_bind {act : TreeM α} {f : α → TreeM β} {a : α} (ran : act t = .ok a t') :
    (act >>= f) t = f a t' := by
  simp only [Bind.bind, EStateM.bind, ran]

theorem run_map {act : TreeM α} {f : α → β} {a : α} (ran : act t = .ok a t') :
    (f <$> act) t = .ok (f a) t' := by
  simp only [Functor.map, EStateM.map, ran]

theorem bind_error {act : TreeM α} {f : α → TreeM β} {e : TreeError} (ran : act t = .error e t') :
    (act >>= f) t = .error e t' := by
  simp only [Bind.bind, EStateM.bind, ran]

theorem map_error_iff {act : TreeM α} {f : α → β} {e : TreeError} :
    (f <$> act) t = .error e t' ↔ act t = .error e t' := by
  simp only [Functor.map, EStateM.map]
  cases act t <;> simp

theorem run_get : (get : TreeM SyntaxTree) t = .ok t t := rfl

theorem run_lift {look : Except TreeError α} {a : α} (found : look = .ok a) :
    (liftM look : TreeM α) t = .ok a t := by
  rw [found]
  rfl

theorem run_node {node : Node NodeId} (found : t.nodes[id]? = some node) :
    TreeM.node id t = .ok node t :=
  (run_bind run_get).trans (run_lift (by simp [SyntaxTree.node, found]))

theorem run_expr {e : Expr NodeId} (found : t.nodes[id]? = some (.expr e)) :
    TreeM.expr id t = .ok e t :=
  (run_bind run_get).trans (run_lift (by simp [SyntaxTree.expr, found]))

theorem run_stmt {s : Stmt NodeId} (found : t.nodes[id]? = some (.stmt s)) :
    TreeM.stmt id t = .ok s t :=
  (run_bind run_get).trans (run_lift (by simp [SyntaxTree.stmt, found]))

theorem run_addExpr (e : Expr NodeId) : addExpr e t = .ok t.size (t.push (.expr e)) := rfl

theorem run_addName (name : String) :
    addName name t = .ok t.size (t.push (.expr (.name name))) := rfl

theorem run_addFunctor (f : GateFunctor) (target : NodeId) :
    addFunctor f target t = .ok t.size (t.push (.expr (.functor f target))) := rfl

theorem run_addStmt (s : Stmt NodeId) : addStmt s t = .ok t.size (t.push (.stmt s)) := rfl

theorem run_setExpr {e new : Expr NodeId} (found : t.nodes[id]? = some (.expr e)) :
    setExpr id new t = .ok () (t.put id (.expr new)) :=
  run_bind (run_expr found)

theorem run_setStmt {s new : Stmt NodeId} (found : t.nodes[id]? = some (.stmt s)) :
    setStmt id new t = .ok () (t.put id (.stmt new)) :=
  run_bind (run_stmt found)

end TreeM

end QuantumLowering
