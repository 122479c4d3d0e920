import QuantumLowering.Proofs.Lowering.Wiring

namespace QuantumLowering

/-- The identifier is bound or used at a node that the body leads to. -/
def SyntaxTree.Uses (t : SyntaxTree) (x : String) : Prop :=
  ∃ id node, t.Reachable id ∧ t.nodes[id]? = some node ∧ x ∈ node.identifiers

section AnyTree

variable {t : SyntaxTree}

def SyntaxTree.cellsAt (t : SyntaxTree) (ids : List NodeId) : List Cell :=
  ids.filterMap fun id => t.nodes[id]?.map (id, ·)

theorem SyntaxTree.cellsAt_append (ids ids' : List NodeId) :
    t.cellsAt (ids ++ ids') = t.cellsAt ids ++ t.cellsAt ids' := List.filterMap_append

theorem run_inferNodes {ids : List NodeId} (found : ∀ id ∈ ids, ∃ node, t.nodes[id]? = some node)
    (c : Context) : ids.forM Pass.inferNode ⟨t, c⟩ = .ok () ⟨t, c.enterAll (t.cellsAt ids)⟩ := by
  induction ids generalizing c with
  | nil => rfl
  | cons id ids ih =>
    obtain ⟨node, here⟩ := found id (by simp)
    have rest := ih (fun id inside => found id (by simp [inside])) (c.enter node)
    have listed : t.cellsAt (id :: ids) = (id, node) :: t.cellsAt ids := by
      simp [SyntaxTree.cellsAt, here]
    rw [List.forM_eq_forM, List.forM_cons, LowerM.run_bind (run_inferNode here), listed]
    exact rest

structure SyntaxTree.Walked (t : SyntaxTree) (ids : List NodeId) : Prop where
  reachable : ∀ id ∈ ids, t.Reachable id
  closed : ∀ id ∈ ids, ∃ node, t.nodes[id]? = some node ∧ ∀ part ∈ node.children, part ∈ ids

namespace SyntaxTree.Walked

variable {ids ids' : List NodeId}

theorem nil : t.Walked [] := ⟨by simp, by simp⟩

theorem append (walked : t.Walked ids) (walked' : t.Walked ids') : t.Walked (ids ++ ids') where
  reachable id member := by
    rcases List.mem_append.1 member with member | member
    · exact walked.reachable id member
    · exact walked'.reachable id member
  closed id member := by
    rcases List.mem_append.1 member with member | member
    · obtain ⟨node, found, parts⟩ := walked.closed id member
      exact ⟨node, found, fun part below => List.mem_append_left _ (parts part below)⟩
    · obtain ⟨node, found, parts⟩ := walked'.closed id member
      exact ⟨node, found, fun part below => List.mem_append_right _ (parts part below)⟩

theorem complete (walked : t.Walked ids) (body : t.body ⊆ ids) {id : NodeId}
    (reach : t.Reachable id) : id ∈ ids := by
  induction reach with
  | body member => exact body member
  | part _ found member ih =>
    obtain ⟨node', found', parts⟩ := walked.closed _ ih
    cases found.symm.trans found'
    exact parts _ member

theorem uses (walked : t.Walked ids) {x : String}
    (member : x ∈ (t.cellsAt ids).flatMap fun cell => cell.2.identifiers) : t.Uses x := by
  obtain ⟨⟨id, node⟩, listed, inside⟩ := List.mem_flatMap.1 member
  obtain ⟨id', visited, same⟩ := List.mem_filterMap.1 listed
  obtain ⟨node', found, same⟩ := Option.map_eq_some_iff.1 same
  cases same
  exact ⟨id, node, walked.reachable id visited, found, inside⟩

end SyntaxTree.Walked

theorem SyntaxTree.mem_identifiers_cellsAt {ids : List NodeId} {id : NodeId} {node : Node NodeId}
    {x : String} (visited : id ∈ ids) (found : t.nodes[id]? = some node)
    (inside : x ∈ node.identifiers) :
    x ∈ (t.cellsAt ids).flatMap fun cell => cell.2.identifiers := by
  refine List.mem_flatMap.2 ⟨(id, node), ?_, inside⟩
  exact List.mem_filterMap.2 ⟨id, visited, by rw [found]; rfl⟩

theorem inferRoot_outcome {root : NodeId} (top : t.Reachable root) (c : Context) :
    (∃ ids, t.Walked ids ∧ root ∈ ids ∧
      Pass.inferRoot root ⟨t, c⟩ = .ok () ⟨t, c.enterAll (t.cellsAt ids)⟩) ∨
    ∃ e, Pass.inferRoot root ⟨t, c⟩ = .error e ⟨t, c⟩ := by
  have walk : Pass.inferRoot root ⟨t, c⟩ =
      ((liftM (t.subtree root) : LowerM (List NodeId)) >>= fun ids => ids.forM Pass.inferNode)
        ⟨t, c⟩ := rfl
  cases walked : t.subtree root with
  | error e =>
    rw [walk, walked]
    exact .inr ⟨.tree e, rfl⟩
  | ok ids =>
    obtain ⟨u, spans, rfl, rfl⟩ := Spans.exists_of_subtree walked
    have found : ∀ id ∈ u.ids, ∃ node, t.nodes[id]? = some node ∧
        ∀ part ∈ node.children, part ∈ u.ids := fun _ inside => spans.exists_node inside
    have entered := run_inferNodes (fun id inside => (found id inside).imp fun _ => And.left) c
    refine .inl ⟨u.ids, ⟨fun id inside => spans.reachable top inside, found⟩, ?_, ?_⟩
    · cases u
      simp [Unfolding.root, Unfolding.ids]
    · rw [walk, walked]
      exact entered

theorem inferRoots_outcome {roots : List NodeId} (tops : ∀ root ∈ roots, t.Reachable root)
    (c : Context) :
    ∃ ids, t.Walked ids ∧
      ((roots.forM Pass.inferRoot ⟨t, c⟩ = .ok () ⟨t, c.enterAll (t.cellsAt ids)⟩ ∧ roots ⊆ ids) ∨
        ∃ e, roots.forM Pass.inferRoot ⟨t, c⟩ = .error e ⟨t, c.enterAll (t.cellsAt ids)⟩) := by
  induction roots generalizing c with
  | nil => exact ⟨[], .nil, .inl ⟨rfl, by simp⟩⟩
  | cons root roots ih =>
    rw [List.forM_eq_forM, List.forM_cons]
    rcases inferRoot_outcome (tops root (by simp)) c with ⟨ids, walked, inside, ran⟩ | ⟨e, failed⟩
    · obtain ⟨ids', walked', outcome⟩ :=
        ih (fun root inside => tops root (by simp [inside])) (c.enterAll (t.cellsAt ids))
      have joined : (c.enterAll (t.cellsAt ids)).enterAll (t.cellsAt ids') =
          c.enterAll (t.cellsAt (ids ++ ids')) := by
        rw [SyntaxTree.cellsAt_append, Context.enterAll, Context.enterAll, Context.enterAll,
          List.foldl_append]
      rw [joined] at outcome
      rw [LowerM.run_bind ran]
      refine ⟨ids ++ ids', walked.append walked', ?_⟩
      rcases outcome with ⟨ran', all⟩ | ⟨e, failed⟩
      · exact .inl ⟨ran', List.cons_subset.2 ⟨List.mem_append_left _ inside,
          fun root listed => List.mem_append_right _ (all listed)⟩⟩
      · exact .inr ⟨e, failed⟩
    · refine ⟨[], .nil, .inr ⟨e, ?_⟩⟩
      simp only [Bind.bind, EStateM.bind, failed]
      rfl

/-- Whatever the tree, only identifiers of the module are reserved, and all of them where the pass
succeeds. -/
theorem inferOperations_outcome (t : SyntaxTree) (o : Options) :
    ∃ (reserved : List String) (c : Context), c.names = reserved.foldl NameSupply.reserve .empty ∧
      (∀ x ∈ reserved, t.Uses x) ∧
      ((Pass.inferOperations.run ⟨t, .new o⟩ = .ok () ⟨t, c⟩ ∧ ∀ x, t.Uses x → x ∈ reserved) ∨
        ∃ e, Pass.inferOperations.run ⟨t, .new o⟩ = .error e ⟨t, c⟩) := by
  obtain ⟨ids, walked, outcome⟩ := inferRoots_outcome (t := t) (fun _ member => .body member) (.new o)
  refine ⟨(t.cellsAt ids).flatMap fun cell => cell.2.identifiers,
    (Context.new o).enterAll (t.cellsAt ids), ?_, fun x member => walked.uses member, ?_⟩
  · rw [Context.enterAll_eq]
    rfl
  · rcases outcome with ⟨ran, all⟩ | failed
    · refine .inl ⟨ran, ?_⟩
      rintro x ⟨id, node, reach, found, inside⟩
      exact SyntaxTree.mem_identifiers_cellsAt (walked.complete all reach) found inside
    · exact .inr failed

end AnyTree

end QuantumLowering
