import Mathlib.Data.List.Flatten
import QuantumLowering.Proofs.Syntax.Layer
import QuantumLowering.Proofs.Syntax.Ownership
import QuantumLowering.Proofs.Syntax.Validation
import QuantumLowering.Syntax.Copy

/-!
Parts of an arena that hold trees, whatever the kinds of their nodes: no id is referred to twice, and
no reference leads out of the part. Such a forest is taken apart and put together again node by node,
and a copy of a block makes one.
-/

namespace QuantumLowering

def SyntaxTree.refs (t : SyntaxTree) (id : NodeId) : List NodeId :=
  (t.nodes[id]?).elim [] Node.children

/-- The live nodes stand from `n` on. They and the roots refer to live nodes and holes only, and to
none of them twice. A hole is a node whose references count as roots while it is being changed. -/
structure Forest (n : Nat) (t : SyntaxTree) (holes roots live : List NodeId) : Prop where
  floor : n ≤ t.size
  inside : ∀ id ∈ holes ++ live, n ≤ id ∧ id < t.size
  distinct : (holes ++ live).Nodup
  once : (roots ++ live.flatMap t.refs).Nodup
  closed : ∀ id ∈ roots ++ live.flatMap t.refs, id ∈ holes ++ live

namespace SyntaxTree

variable {t : SyntaxTree} {node : Node NodeId} {id : NodeId}

theorem refs_eq (found : t.nodes[id]? = some node) : t.refs id = node.children := by
  rw [refs, found]
  rfl

theorem refs_push (bound : id < t.size) : (t.push node).refs id = t.refs id := by
  rw [refs, nodes_push, if_neg (Nat.ne_of_lt bound)]
  rfl

theorem refs_push_new : (t.push node).refs t.size = node.children :=
  refs_eq (by rw [nodes_push, if_pos rfl])

theorem refs_put {other : NodeId} (differs : id ≠ other) : (t.put other node).refs id = t.refs id := by
  rw [refs, nodes_put, if_neg fun both => differs both.1]
  rfl

theorem refs_put_self (bound : id < t.size) : (t.put id node).refs id = node.children :=
  refs_eq (by rw [nodes_put, if_pos ⟨rfl, bound⟩])

end SyntaxTree

namespace Forest

variable {n : Nat} {t t' : SyntaxTree} {holes roots roots' live : List NodeId} {id : NodeId}

theorem empty (floor : n ≤ t.size) : Forest n t [] [] [] :=
  ⟨floor, by simp, by simp, by simp, by simp⟩

theorem subperm (forest : Forest n t holes roots live) (fewer : roots'.Subperm roots) :
    Forest n t holes roots' live := by
  have kept := (List.subperm_append_right (live.flatMap t.refs)).2 fewer
  have listed := kept.subset
  obtain ⟨_, order, sublist⟩ := kept
  exact ⟨forest.floor, forest.inside, forest.distinct,
    order.nodup_iff.1 (sublist.nodup forest.once), fun id member => forest.closed id (listed member)⟩

theorem perm (forest : Forest n t holes roots live) (order : roots.Perm roots') :
    Forest n t holes roots' live :=
  forest.subperm order.symm.subperm

theorem frame (forest : Forest n t holes roots live) (size : t.size ≤ t'.size)
    (same : ∀ id ∈ live, t'.refs id = t.refs id) : Forest n t' holes roots live := by
  have refs := List.flatMap_congr same
  refine ⟨forest.floor.trans size, fun id member => ?_, forest.distinct, ?_, ?_⟩
  · have bounds := forest.inside id member
    exact ⟨bounds.1, bounds.2.trans_le size⟩
  · rw [refs]
    exact forest.once
  · rw [refs]
    exact forest.closed

theorem mem_root (forest : Forest n t [] (id :: roots) live) : id ∈ live := by
  simpa using forest.closed id (by simp)

theorem ref_mem (forest : Forest n t [] roots live) (member : id ∈ live) {part : NodeId}
    (listed : part ∈ t.refs id) : part ∈ live := by
  have kept := forest.closed part
    (List.mem_append_right _ (List.mem_flatMap.2 ⟨id, member, listed⟩))
  simpa using kept

theorem dig (forest : Forest n t holes roots live) (member : id ∈ live) :
    Forest n t (id :: holes) (t.refs id ++ roots) (live.erase id) := by
  have split := List.perm_cons_erase member
  have ids : (holes ++ live).Perm (id :: holes ++ live.erase id) :=
    (split.append_left holes).trans List.perm_middle
  have refs : (roots ++ live.flatMap t.refs).Perm
      (t.refs id ++ roots ++ (live.erase id).flatMap t.refs) := by
    refine ((split.flatMap_right t.refs).append_left roots).trans ?_
    rw [List.flatMap_cons, ← List.append_assoc]
    exact List.perm_append_comm.append_right _
  exact ⟨forest.floor, fun other inside => forest.inside other (ids.mem_iff.2 inside),
    ids.nodup_iff.1 forest.distinct, refs.nodup_iff.1 forest.once,
    fun other listed => ids.mem_iff.1 (forest.closed other (refs.mem_iff.2 listed))⟩

theorem fill (forest : Forest n t (id :: holes) (t.refs id ++ roots) live) :
    Forest n t holes roots (id :: live) := by
  have ids : (id :: holes ++ live).Perm (holes ++ id :: live) := List.perm_middle.symm
  have refs : (t.refs id ++ roots ++ live.flatMap t.refs).Perm
      (roots ++ (id :: live).flatMap t.refs) := by
    rw [List.flatMap_cons, ← List.append_assoc]
    exact List.perm_append_comm.append_right _
  exact ⟨forest.floor, fun other inside => forest.inside other (ids.mem_iff.2 inside),
    ids.nodup_iff.1 forest.distinct, refs.nodup_iff.1 forest.once,
    fun other listed => ids.mem_iff.1 (forest.closed other (refs.mem_iff.2 listed))⟩

theorem splice (forest : Forest n t holes (id :: roots) live) (member : id ∈ live) :
    Forest n t holes (t.refs id ++ roots) (live.erase id) := by
  have dug := (forest.subperm (List.sublist_cons_self id roots).subperm).dig member
  have alone : id ∉ roots ++ live.flatMap t.refs := (List.nodup_cons.1 forest.once).1
  refine ⟨dug.floor, fun other inside => dug.inside other (List.mem_cons_of_mem _ inside),
    (List.nodup_cons.1 dug.distinct).2, dug.once, fun other listed => ?_⟩
  refine (List.mem_cons.1 (dug.closed other listed)).resolve_left ?_
  rintro rfl
  refine alone ?_
  simp only [List.append_assoc, List.mem_append] at listed ⊢
  rcases listed with part | root | below
  · exact .inr (List.mem_flatMap.2 ⟨other, member, part⟩)
  · exact .inl root
  · exact .inr ((List.erase_sublist.flatMap t.refs).subset below)

theorem push (node : Node NodeId) (rest : List NodeId)
    (forest : Forest n t holes (node.children ++ rest) live) :
    Forest n (t.push node) holes (t.size :: rest) (t.size :: live) := by
  have kept : Forest n (t.push node) holes (node.children ++ rest) live :=
    forest.frame (by simp) fun id member =>
      SyntaxTree.refs_push (forest.inside id (List.mem_append_right _ member)).2
  have new : t.size ∉ holes ++ live := fun member => Nat.lt_irrefl _ (forest.inside _ member).2
  have newRoot : t.size ∉ rest ++ (t.size :: live).flatMap (t.push node).refs := by
    rw [List.flatMap_cons, SyntaxTree.refs_push_new]
    intro member
    refine new (kept.closed _ ?_)
    simp only [List.mem_append] at member ⊢
    tauto
  have refs : (node.children ++ rest ++ live.flatMap (t.push node).refs).Perm
      (rest ++ (t.size :: live).flatMap (t.push node).refs) := by
    rw [List.flatMap_cons, SyntaxTree.refs_push_new, ← List.append_assoc]
    exact List.perm_append_comm.append_right _
  refine ⟨kept.floor, fun id member => ?_, ?_, ?_, fun id listed => ?_⟩
  · rcases List.mem_cons.1 (List.perm_middle.mem_iff.1 member) with rfl | old
    · exact ⟨forest.floor, by simp⟩
    · exact kept.inside id old
  · exact List.perm_middle.nodup_iff.2 (List.nodup_cons.2 ⟨new, kept.distinct⟩)
  · exact List.nodup_cons.2 ⟨newRoot, refs.nodup_iff.1 kept.once⟩
  · refine List.perm_middle.mem_iff.2 ?_
    rcases List.mem_cons.1 listed with rfl | old
    · exact List.mem_cons_self
    · exact List.mem_cons_of_mem _ (kept.closed id (refs.mem_iff.2 old))

theorem put (node : Node NodeId) (forest : Forest n t (id :: holes) roots live) :
    Forest n (t.put id node) (id :: holes) roots live := by
  refine forest.frame (by simp) fun other member => SyntaxTree.refs_put ?_
  rintro rfl
  exact (List.nodup_cons.1 forest.distinct).1 (List.mem_append_right _ member)

theorem exists_unfoldings (forest : Forest n t [] roots live) :
    ∃ us : List Unfolding, us.map Unfolding.root = roots ∧ (∀ u ∈ us, Spans t u) ∧
      (us.flatMap Unfolding.ids).Nodup ∧ ∀ id ∈ us.flatMap Unfolding.ids, id ∈ live := by
  induction count : live.length generalizing roots live with
  | zero =>
    obtain rfl := List.length_eq_zero_iff.1 count
    cases roots with
    | nil => exact ⟨[], rfl, by simp, by simp, by simp⟩
    | cons id roots => exact absurd forest.mem_root (by simp)
  | succ k ih =>
    cases roots with
    | nil => exact ⟨[], rfl, by simp, by simp, by simp⟩
    | cons id roots =>
      have member := forest.mem_root
      have bound := (forest.inside id (by simpa using member)).2
      obtain ⟨node, found⟩ : ∃ node, t.nodes[id]? = some node :=
        ⟨_, Array.getElem?_eq_getElem bound⟩
      have fewer : (live.erase id).length = k := by
        rw [List.length_erase_of_mem member, count]
        rfl
      have spliced := forest.splice member
      rw [SyntaxTree.refs_eq found] at spliced
      obtain ⟨us, labels, spans, once, below⟩ := ih spliced fewer
      obtain ⟨parts, others, rfl, partRoots, otherRoots⟩ := List.map_eq_append_iff.1 labels
      have alone : id ∉ live.erase id := by
        have distinct := forest.distinct
        rw [List.nil_append] at distinct
        exact fun again => (distinct.mem_erase_iff.1 again).1 rfl
      refine ⟨.node id parts :: others, ?_, ?_, ?_, ?_⟩
      · simp [Unfolding.root, otherRoots]
      · intro u inside
        rcases List.mem_cons.1 inside with rfl | inside
        · exact .node found partRoots.symm fun u part => spans u (by simp [part])
        · exact spans u (by simp [inside])
      · rw [Unfolding.ids_node_append, List.nodup_cons]
        exact ⟨fun again => alone (below id again), once⟩
      · intro other inside
        rw [Unfolding.ids_node_append] at inside
        rcases List.mem_cons.1 inside with rfl | inside
        · exact member
        · exact List.mem_of_mem_erase (below other inside)

end Forest

section Traverse

variable {m : Type → Type} [Monad m] [LawfulMonad m] (f : NodeId → m NodeId)

theorem Expr.children_traverse (e : Expr NodeId) :
    Expr.children <$> e.traverse f = e.children.mapM f := by
  have filled : e.children.mapM f >>= (fun parts => pure (e.refill parts).children) =
      e.children.mapM f >>= pure :=
    mapM_bind_congr fun parts length => by rw [Expr.children_refill length]
  rw [Expr.traverse_eq_refill, ← comp_map, map_eq_pure_bind]
  simpa using filled

theorem Stmt.children_traverse (s : Stmt NodeId) :
    Stmt.children <$> s.traverse f = s.children.mapM f := by
  match s with
  | .scoped context none body => simp [Stmt.traverse, Stmt.children]
  | .scoped context (some binding) body => simp [Stmt.traverse, Stmt.children]
  | .expr _ | .assign .. | .define _ | .classDef .. | .conditional .. | .importAs .. | .wire ..
  | .pass => simp [Stmt.traverse, Stmt.children]

theorem Node.children_traverse (node : Node NodeId) :
    Node.children <$> node.traverse f = node.children.mapM f := by
  cases node with
  | expr e =>
    rw [Node.children, ← Expr.children_traverse]
    simp [Node.traverse, Node.children]
  | stmt s =>
    rw [Node.children, ← Stmt.children_traverse]
    simp [Node.traverse, Node.children]

end Traverse

/-- However the computation ends, it has only added nodes, and what it gives are roots of trees that
are new. -/
def Plants {α : Type} (act : TreeM α) (roots : α → List NodeId) : Prop :=
  ∀ {n : Nat} {t : SyntaxTree} {others live : List NodeId}, Forest n t [] others live →
    match act t with
    | .ok a t' => Extends [] t t' ∧ ∃ live', Forest n t' [] (roots a ++ others) live'
    | .error _ t' => Extends [] t t'

theorem Plants.mapM {act : NodeId → TreeM NodeId} (each : ∀ id, Plants (act id) fun root => [root])
    (ids : List NodeId) : Plants (ids.mapM act) fun roots => roots := by
  induction ids with
  | nil => exact fun forest => ⟨.refl .., _, forest⟩
  | cons id ids ih =>
    intro n t others live forest
    have first := each id forest
    rw [List.mapM_cons]
    cases ran : act id t with
    | error e t₁ =>
      rw [ran] at first
      simpa only [Bind.bind, EStateM.bind, ran] using first
    | ok root t₁ =>
      rw [ran] at first
      obtain ⟨ext, live₁, forest₁⟩ := first
      have rest := ih forest₁
      rw [TreeM.run_bind ran]
      cases ran' : ids.mapM act t₁ with
      | error e t₂ =>
        rw [ran'] at rest
        simpa only [Bind.bind, EStateM.bind, ran'] using ext.trans rest (by simp)
      | ok roots t₂ =>
        rw [ran'] at rest
        obtain ⟨ext', live₂, forest₂⟩ := rest
        rw [TreeM.run_bind ran']
        exact ⟨ext.trans ext' (by simp), live₂, forest₂.perm List.perm_middle⟩

theorem copyWithin_plants (depth : Nat) (id : NodeId) :
    Plants (TreeM.copyWithin depth id) fun root => [root] := by
  induction depth generalizing id with
  | zero => exact fun _ => .refl ..
  | succ depth ih =>
    intro n t others live forest
    unfold TreeM.copyWithin
    cases found : t.nodes[id]? with
    | none =>
      have missing : TreeM.node id t = .error (.notFound id) t := by
        have none : t.node id = .error (.notFound id) := by simp [SyntaxTree.node, found]
        rw [TreeM.node, TreeM.run_bind TreeM.run_get, none]
        rfl
      simpa only [Bind.bind, EStateM.bind, missing] using Extends.refl [] t
    | some node =>
      rw [TreeM.run_bind (TreeM.run_node found)]
      have parts := Plants.mapM ih node.children forest
      cases ran : node.traverse (TreeM.copyWithin depth) t with
      | error e t₁ =>
        have failed : node.children.mapM (TreeM.copyWithin depth) t = .error e t₁ := by
          rw [← Node.children_traverse]
          simp only [Functor.map, EStateM.map, ran]
        rw [failed] at parts
        simpa only [Bind.bind, EStateM.bind, ran] using parts
      | ok copied t₁ =>
        have copies : node.children.mapM (TreeM.copyWithin depth) t = .ok copied.children t₁ := by
          rw [← Node.children_traverse]
          exact TreeM.run_map ran
        rw [copies] at parts
        obtain ⟨ext, live₁, forest₁⟩ := parts
        rw [TreeM.run_bind ran]
        exact ⟨ext.trans (Becomes.push t₁ copied).ext (by simp), _, forest₁.push _ _⟩

theorem copyBlock_plants (ids : List NodeId) : Plants (TreeM.copyBlock ids) fun roots => roots :=
  Plants.mapM (fun id {_ t _ _} forest => copyWithin_plants t.depthBound id forest) ids

end QuantumLowering
