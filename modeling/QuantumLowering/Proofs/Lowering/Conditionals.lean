import QuantumLowering.Proofs.Lowering.Variants

namespace QuantumLowering

variable {o : Options} {t : SyntaxTree} {c : Context} {p : Progress}

theorem Holds.isQuantumConditional_eq {id : NodeId} {test : ExprTree NodeId}
    {body orelse : List (StmtTree NodeId)}
    (held : Holds t (StmtTree.conditional id test body orelse).cells) (o : Options) :
    t.isQuantumConditional o id = .ok (test.isCallTo o.conditionFn) := by
  have found : t.stmt id = .ok (.conditional test.label (body.map StmtTree.label)
      (orelse.map StmtTree.label)) := by
    have node := held.stmt_node
    simp only [StmtTree.label, StmtTree.stmt] at node
    simp [SyntaxTree.stmt, node]
  have inside : Holds t test.cells := held.exprs (by simp [StmtTree.exprs])
  unfold SyntaxTree.isQuantumConditional
  rw [found]
  exact inside.isCallTo_eq _

theorem comparisonOperands_runs (test : ExprTree NodeId) (matched : Matches o c p)
    (held : Holds t test.cells) :
    Runs (LowerM.comparisonOperands test.label) t c (PlanM.comparisonOperands o test.erase)
      fun r ids t₁ c₁ => t₁ = t ∧ c₁ = c ∧ ∃ lines value : ExprTree NodeId,
        (lines.erase, value.erase) = r ∧ (lines.label, value.label) = ids ∧
        (lines.cells ++ value.cells).Subperm test.cells := by
  obtain ⟨id, layer⟩ := test
  unfold LowerM.comparisonOperands
  rw [ExprTree.label_node, Runs.treeM_bind (TreeM.run_expr held.expr_node), ExprTree.erase_node,
    PlanM.comparisonOperands, ExprTree.layer_node]
  have otherwise : Runs (LowerM.options >>= fun options => throw
      (Refusal.unsupported (.conditionArity options.conditionFn)).error) t c
      (.error (.unsupported (.conditionArity o.conditionFn))) fun r ids t₁ c₁ =>
        t₁ = t ∧ c₁ = c ∧ ∃ lines value : ExprTree NodeId,
          (lines.erase, value.erase) = r ∧ (lines.label, value.label) = ids ∧
          (lines.cells ++ value.cells).Subperm (ExprTree.node id layer).cells := by
    rw [Runs.options_bind, matched.options]
    exact .throw _
  cases layer with
  | call func args keywords =>
    rcases args with _ | ⟨⟨arg, argument⟩, _ | ⟨second, args⟩⟩
    · exact otherwise
    · rcases keywords with _ | ⟨keyword, keywords⟩
      · have inside : Holds t (ExprTree.node arg argument).cells :=
          held.part (by simp [Expr.children])
        simp only [Expr.map, List.map_cons, List.map_nil, ExprTree.label_node]
        rw [Runs.treeM_bind (TreeM.run_expr inside.expr_node), ExprTree.erase_node,
          ExprTree.layer_node]
        cases argument with
        | compare left op right =>
          cases op with
          | equal =>
            have inside' : Holds t left.cells := inside.part (by simp [Expr.children])
            simp only [Expr.map]
            obtain ⟨left, layer⟩ := left
            rw [ExprTree.label_node, Runs.treeM_bind (TreeM.run_expr inside'.expr_node),
              ExprTree.erase_node, ExprTree.layer_node]
            have operands : ((ExprTree.node left layer).cells ++ right.cells).Subperm
                (ExprTree.node id (.call func [.node arg (.compare (.node left layer) .equal right)]
                  [])).cells := by
              refine List.subperm_iff_count.2 fun cell => ?_
              simp only [ExprTree.cells_node id, ExprTree.cells_node arg, Expr.children,
                List.map_nil, List.append_nil, List.flatMap_cons, List.flatMap_nil,
                List.count_append, List.count_cons]
              omega
            cases layer with
            | int value =>
              exact .pure ⟨rfl, rfl, right, .node left (.int value), by simp [Expr.map], rfl,
                List.perm_append_comm.subperm.trans operands⟩
            | _ => exact .pure ⟨rfl, rfl, _, right, by rw [ExprTree.erase_node], rfl, operands⟩
          | notEqual => exact .throw (.unsupported .inequality)
        | _ => exact .throw (.unsupported (.noComparison _))
      · exact otherwise
    · exact otherwise
  | _ => exact otherwise

theorem lowerConditional_runs {id : NodeId} {test : ExprTree NodeId}
    {body orelse : List (StmtTree NodeId)} (matched : Matches o c p)
    (owned : Owns t (StmtTree.conditional id test body orelse).cells) :
    RunsM (LowerM.lowerConditional id) t c
      (PlanM.lowerConditional o test.erase (body.map StmtTree.erase) (orelse.map StmtTree.erase)) p
      fun r p₁ _ t₁ c₁ => Tracks c p c₁ p₁ [] ∧ ∃ s : StmtTree NodeId, s.erase = r ∧ s.label = id ∧
        Becomes t t₁ (StmtTree.conditional id test body orelse).cells s.cells := by
  have found : t.nodes[id]? = some (.stmt (.conditional test.label (body.map StmtTree.label)
      (orelse.map StmtTree.label))) := owned.held.stmt_node
  have heldTest : Holds t test.cells := owned.held.exprs (by simp [StmtTree.exprs])
  unfold LowerM.lowerConditional PlanM.lowerConditional
  rw [RunsM.treeM_bind (TreeM.run_stmt found)]
  cases orelse with
  | cons s rest => exact Runs.throw (.unsupported .elseBranch)
  | nil =>
    simp only [List.map_nil, List.isEmpty_nil, ↓reduceIte]
    refine RunsM.lift_bind (comparisonOperands_runs test matched heldTest) ?_
    rintro _ _ t c ⟨rfl, rfl, lines, value, rfl, rfl, operands⟩
    rw [RunsM.options_bind, matched.options]
    refine (freshName_runs matched _).bind ?_
    rintro _ p₁ control t c₁ ⟨rfl, rfl, named⟩
    have matched₁ := named.matched matched
    rw [RunsM.get_bind, ← matched₁.operations]
    rw [StmtTree.cells_conditional] at owned ⊢
    refine RunsM.lift_bind (controlBlock_runs control body owned.tail.right.left) ?_
    rintro _ _ t₁ c₁ ⟨rfl, body', rfl, labels, controlled⟩
    have becomes := (((controlled.frame_owned owned.tail.right).frame_owned_left
      owned.tail).cons_owned owned)
    rw [RunsM.options_bind, RunsM.treeM_bind (TreeM.run_addName _), RunsM.options_bind,
      RunsM.treeM_bind (show TreeM.addAttribute _ _ _ = _ from TreeM.run_addExpr _),
      RunsM.treeM_bind (show TreeM.addCall _ _ _ = _ from TreeM.run_addExpr _),
      RunsM.treeM_bind (TreeM.run_addName _)]
    have scope := (((becomes.append_new (.push _ (.expr (.name o.boilerplateAlias)))).append_new
      (.push _ (.expr (.attribute t₁.size o.scopeFn)))).append_new
      (.push _ (.expr (.call (t₁.size + 1) [lines.label, value.label] [])))).append_new
      (.push _ (.expr (.name control)))
    simp only [matched₁.options, SyntaxTree.size_push] at scope ⊢
    rw [RunsM.treeM_bind (TreeM.run_setStmt (scope.held (id, .stmt (.conditional test.label
      (body.map StmtTree.label) [])) (by simp)))]
    have placed := (scope.put_head owned (.stmt (.scoped (t₁.size + 1 + 1)
      (some (t₁.size + 1 + 1 + 1)) (body.map StmtTree.label))))
    rw [← bind_pure (liftM (ContextM.modifyStats _) : LowerM Unit)]
    refine (modifyStats_runs matched₁ _).bind ?_
    rintro _ p₂ _ _ c₂ ⟨rfl, counted⟩
    refine .pure ⟨named.trans counted, .scoped id (.node (t₁.size + 1 + 1) (.call (.node
      (t₁.size + 1) (.attribute (.node t₁.size (.name o.boilerplateAlias)) o.scopeFn))
      [lines, value] [])) (some (.node (t₁.size + 1 + 1 + 1) (.name control))) body',
      by simp [PlanM.scopeCall, nameTerm, Expr.map], rfl, placed.giveUp ?_⟩
    refine List.subperm_iff_count.2 fun cell => ?_
    have fewer := List.subperm_iff_count.1 operands cell
    simp only [StmtTree.cells_scoped, ExprTree.cells_node, labels, Expr.map, Expr.children,
      List.map_cons, List.map_nil, ExprTree.label_node, Option.map_some, Option.toList_some,
      List.flatMap_cons, List.flatMap_nil, List.append_nil, List.append_eq, List.count_append,
      List.count_cons, List.count_nil] at fewer ⊢
    omega

end QuantumLowering
