import QuantumLowering.Proofs.Syntax.References

namespace QuantumLowering

namespace SyntaxTree

variable {t : SyntaxTree}

theorem exists_subtrees_of_valid (valid : t.validate = .ok ()) :
    ∃ lists, t.body.mapM t.subtree = .ok lists ∧ lists.flatten.Nodup ∧
      ∀ id, id ∈ lists.flatten ↔ t.Reachable id := by
  obtain ⟨us, roots, spans, once, -⟩ := exists_unfoldings_of_validateFrom valid
  refine ⟨us.map Unfolding.ids, ?_, ?_, fun id => ?_⟩
  · rw [← roots]
    exact Spans.mapM_subtree spans
  · rwa [← List.flatMap_def]
  · rw [← List.flatMap_def]
    exact mem_ids_iff roots spans id

/-- The walk from a node lists the node's unfolding in pre-order, and it lists nothing unless there
is one. In a valid tree the walks from the body, one after the other, list each reachable node
once. -/
theorem subtree_preorder (t : SyntaxTree) :
    (∀ u, Spans t u → t.subtree u.root = .ok u.ids) ∧
      (∀ root ids, t.subtree root = .ok ids → ∃ u, Spans t u ∧ u.root = root) ∧
      (t.validate = .ok () → ∃ lists, t.body.mapM t.subtree = .ok lists ∧ lists.flatten.Nodup ∧
        ∀ id, id ∈ lists.flatten ↔ t.Reachable id) := by
  refine ⟨fun u spans => spans.subtree_eq, fun root ids walked => ?_, exists_subtrees_of_valid⟩
  obtain ⟨u, spans, top, -⟩ := Spans.exists_of_subtree walked
  exact ⟨u, spans, top⟩

/-- A conditional whose parts stand before it in the arena in no particular order, and a pair behind
it that uses a node of it twice. -/
theorem subtree_preorder_conditional :
    let t : SyntaxTree := ⟨#[.expr (.name "c"), .expr (.name "X"), .expr (.name "q"),
      .expr (.call 1 [2] []), .stmt (.expr 3), .stmt .pass, .stmt (.conditional 0 [4] [5]),
      .expr (.tuple [2, 2])], [6]⟩
    let whole : Unfolding :=
      .node 6 [.node 0 [], .node 4 [.node 3 [.node 1 [], .node 2 []]], .node 5 []]
    let pair : Unfolding := .node 7 [.node 2 [], .node 2 []]
    (Spans t whole ∧ t.subtree 6 = .ok [6, 0, 4, 3, 1, 2, 5]) ∧
      (Spans t pair ∧ t.subtree 7 = .ok [7, 2, 2]) ∧
      t.validate = .ok () ∧ ∃ lists, t.body.mapM t.subtree = .ok lists ∧ lists.flatten.Nodup ∧
        ∀ id, id ∈ lists.flatten ↔ t.Reachable id := by
  intro t whole pair
  have leaf : ∀ id ∈ [0, 1, 2, 5], Spans t (.node id []) := by
    intro id member
    simp only [List.mem_cons, List.not_mem_nil, or_false] at member
    rcases member with rfl | rfl | rfl | rfl <;> exact .node rfl rfl (by simp)
  have call : Spans t (.node 3 [.node 1 [], .node 2 []]) :=
    .node rfl rfl (by simp [leaf])
  have statement : Spans t (.node 4 [.node 3 [.node 1 [], .node 2 []]]) :=
    .node rfl rfl (by simp [call])
  have spans : Spans t whole := .node rfl rfl (by simp [leaf, statement])
  have spans' : Spans t pair := .node rfl rfl (by simp [leaf])
  have order : whole.ids = [6, 0, 4, 3, 1, 2, 5] := by simp [whole, Unfolding.ids]
  have order' : pair.ids = [7, 2, 2] := by simp [pair, Unfolding.ids]
  have valid : t.validate = .ok () := by decide +kernel
  obtain ⟨listed, -, once⟩ := subtree_preorder t
  refine ⟨⟨spans, ?_⟩, ⟨spans', ?_⟩, valid, once valid⟩
  · rw [← order]
    exact listed whole spans
  · rw [← order']
    exact listed pair spans'

end SyntaxTree

end QuantumLowering
