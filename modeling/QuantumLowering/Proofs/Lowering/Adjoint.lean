import QuantumLowering.Proofs.Lowering.Blocks

namespace QuantumLowering

namespace GateFunctor

theorem length_compose (f : GateFunctor) (chain : List GateFunctor) :
    compose f chain = f :: chain ∨ (compose f chain).length < chain.length := by
  unfold compose
  split
  · simp
  · simp

theorem length_reduceChain_le (chain : List GateFunctor) :
    (reduceChain chain).length ≤ chain.length := by
  induction chain with
  | nil => exact Nat.le_refl _
  | cons f chain ih =>
    rw [reduceChain, List.foldr_cons, ← reduceChain, List.length_cons]
    rcases length_compose f (reduceChain chain) with same | shorter
    · rw [same, List.length_cons]
      omega
    · omega

theorem reduceChain_eq_of_length {chain : List GateFunctor}
    (length : (reduceChain chain).length = chain.length) : reduceChain chain = chain := by
  induction chain with
  | nil => rfl
  | cons f chain ih =>
    have shorter := length_reduceChain_le chain
    rw [reduceChain, List.foldr_cons, ← reduceChain] at length ⊢
    rcases length_compose f (reduceChain chain) with same | less
    · rw [same, List.length_cons, List.length_cons] at length
      rw [same, ih (by omega)]
    · rw [List.length_cons] at length
      omega

end GateFunctor

def ExprTree.wrap (chain : List GateFunctor) (e : ExprTerm) : ExprTerm :=
  chain.foldr (fun f target => .node () (.functor f target)) e

theorem ExprTree.wrap_chain_base (e : ExprTerm) : wrap e.chain e.base = e := by
  induction e using induct with
  | step label layer ih =>
    cases layer with
    | functor f target =>
      have inner := ih target (by simp [Expr.children])
      rw [chain, base, wrap, List.foldr_cons, ← wrap, inner]
    | _ => rfl

theorem ExprTree.chain_wrap (chain : List GateFunctor) (e : ExprTerm) :
    (wrap chain e).chain = chain ++ e.chain := by
  induction chain with
  | nil => rfl
  | cons f chain ih =>
    rw [wrap, List.foldr_cons, ← wrap, ExprTree.chain, ih, List.cons_append]

theorem ExprTree.chain_base {α : Type} (e : ExprTree α) : e.base.chain = [] := by
  induction e using induct with
  | step label layer ih =>
    cases layer with
    | functor f target => exact ih target (by simp [Expr.children])
    | _ => rfl

def adjointCheck (known : OperationTable) : Expr ExprTerm → Plan Unit
  | .call func _ _ =>
    match func.operation? known with
    | none => .ok ()
    | some name =>
      (known.require name (GateFunctor.reduceChain (.adjoint :: func.chain))).mapError
        .undefinedVariant
  | _ => .ok ()

def adjointFinish (known : OperationTable) : Expr ExprTerm → Expr ExprTerm → Expr ExprTerm
  | .call func _ _, .call func' args' keywords' =>
    match func.operation? known with
    | none => .call func' args' keywords'
    | some _ =>
      .call (.wrap (GateFunctor.reduceChain (.adjoint :: func.chain)) func'.base) args' keywords'
  | _, filled => filled

/-- Replaces every call of a known operation by its adjoint. -/
def adjointRule (known : OperationTable) : CallRule where
  check := adjointCheck known
  finish := adjointFinish known
  check_other layer other := by
    cases layer <;> simp_all [adjointCheck, Expr.isCall]
  finish_other layer filled other := by
    cases layer <;> simp_all [adjointFinish, Expr.isCall]

def adjointStmt (known : OperationTable) (o : Options) : StmtTerm → Plan StmtTerm :=
  (adjointRule known).rewriteStmt (ExprTree.isControlScope o)

/-- The adjoint of a block: the statements in reverse. -/
def adjointStmts (known : OperationTable) (o : Options) (block : List StmtTerm) :
    Plan (List StmtTerm) := do
  let block ← block.mapM (adjointStmt known o)
  return block.reverse

theorem ExprTree.base_cells (e : ExprTree NodeId) : e.base.cells.Sublist e.cells := by
  induction e using induct with
  | step id layer ih =>
    cases layer with
    | functor f target =>
      rw [cells_node, base]
      simp only [Expr.children, List.flatMap_cons, List.flatMap_nil, List.append_nil]
      exact (ih target (by simp [Expr.children])).trans (List.sublist_cons_self ..)
    | _ => exact .refl _

theorem exists_run_wrap (chain : List GateFunctor) (base : NodeId) (t : SyntaxTree) :
    ∃ (top : NodeId) (head : List Cell) (t' : SyntaxTree),
      chain.foldrM TreeM.addFunctor base t = .ok top t' ∧ Becomes t t' [] head ∧
      ∀ e : ExprTree NodeId, e.label = base → ∃ d : ExprTree NodeId, d.label = top ∧
        d.erase = .wrap chain e.erase ∧ d.cells = head ++ e.cells := by
  induction chain with
  | nil => exact ⟨base, [], t, rfl, .refl .nil, fun e same => ⟨e, same, rfl, rfl⟩⟩
  | cons f chain ih =>
    obtain ⟨top, head, t', ran, becomes, wrapped⟩ := ih
    refine ⟨t'.size, _, t'.push (.expr (.functor f top)), ?_, becomes.cons_new _, fun e same => ?_⟩
    · rw [List.foldrM_cons, TreeM.run_bind ran]
      exact TreeM.run_addFunctor ..
    · obtain ⟨d, label, erased, cells⟩ := wrapped e same
      refine ⟨.node t'.size (.functor f d), rfl, ?_, ?_⟩
      · rw [ExprTree.erase_node, Expr.map, erased]
        rfl
      · simp [Expr.map, Expr.children, label, cells]

section Calls

variable {t : SyntaxTree} {c : Context} {func : ExprTree NodeId}

theorem exists_run_adjointCallee (held : Holds t func.cells) :
    ∃ (top : NodeId) (head : List Cell) (t' : SyntaxTree),
      TreeM.cancelAdjointPairs t.size (t.push (.expr (.functor .adjoint func.label))) =
        .ok top t' ∧
      Becomes t t' [] head ∧
      ∀ func' : ExprTree NodeId, func'.trunk = func.trunk → ∃ d : ExprTree NodeId, d.label = top ∧
        d.erase = .wrap (GateFunctor.reduceChain (.adjoint :: func.chain)) func'.base.erase ∧
        d.cells.Subperm (head ++ func'.cells) := by
  have wrapped := Becomes.push t (.expr (.functor .adjoint func.label))
  have chain : (t.push (.expr (.functor .adjoint func.label))).chain t.size =
      .ok (.adjoint :: func.chain, func.base.label) := by
    have held := (wrapped.beside held).held
    exact Holds.chain_eq (e := .node t.size (.functor .adjoint func))
      (by simpa [Expr.children, Expr.map, and_comm] using held)
  unfold TreeM.cancelAdjointPairs
  rw [TreeM.run_bind TreeM.run_get, TreeM.run_bind (TreeM.run_lift chain)]
  by_cases same : (GateFunctor.reduceChain (.adjoint :: func.chain)).length =
      (GateFunctor.adjoint :: func.chain).length
  · simp only [same, ↓reduceIte]
    refine ⟨_, _, _, rfl, wrapped, fun func' trunk => ⟨.node t.size (.functor .adjoint func'), rfl, ?_, ?_⟩⟩
    · rw [GateFunctor.reduceChain_eq_of_length same, ExprTree.erase_node, Expr.map,
        ← ExprTree.chain_eq_of_trunk trunk, ← ExprTree.base_erase, ← ExprTree.chain_erase]
      exact congrArg _ (congrArg _ (ExprTree.wrap_chain_base _).symm)
    · simp only [ExprTree.cells_node, Expr.map, Expr.children, ExprTree.label_eq_of_trunk trunk,
        List.flatMap_cons, List.flatMap_nil, List.append_nil, List.cons_append, List.nil_append]
      exact .refl _
  · simp only [same, ↓reduceIte]
    obtain ⟨top, head, t', ran, becomes, around⟩ := exists_run_wrap
      (GateFunctor.reduceChain (.adjoint :: func.chain)) func.base.label
      (t.push (.expr (.functor .adjoint func.label)))
    refine ⟨top, _, t', ran, wrapped.append_new becomes, fun func' trunk => ?_⟩
    obtain ⟨d, label, erased, cells⟩ := around func'.base
      (ExprTree.label_eq_of_trunk (ExprTree.base_eq_of_trunk trunk))
    refine ⟨d, label, erased, ?_⟩
    rw [cells, List.append_assoc]
    exact ((List.Subperm.refl head).append func'.base_cells.subperm).cons_right _

theorem adjointRule_follows (c : Context) :
    (adjointRule c.operations).Follows LowerM.adjointCall c := by
  intro t id layer call owned
  obtain ⟨func, args, keywords, rfl⟩ := Expr.eq_call call
  have heldFunc : Holds t func.cells := owned.held.part (by simp [Expr.children])
  unfold LowerM.adjointCall
  simp only [Runs.tree_bind, owned.held.callee_eq, Runs.ok_bind, heldFunc.operationName_eq]
  refine Runs.known_call (fun unknown => ?_) fun name known => ?_
  · have check : (adjointRule c.operations).check
        ((Expr.call func args keywords).map ExprTree.erase) = .ok () := by
      simp [adjointRule, adjointCheck, Expr.map, unknown]
    rw [check]
    refine .pure ⟨rfl, CallRule.unchanged call owned.held fun filled => ?_⟩
    cases filled <;> simp [adjointRule, adjointFinish, Expr.map, unknown]
  have check : (adjointRule c.operations).check
      ((Expr.call func args keywords).map ExprTree.erase) =
      (c.operations.require name (GateFunctor.reduceChain (.adjoint :: func.chain))).mapError
        .undefinedVariant := by
    simp [adjointRule, adjointCheck, Expr.map, known]
  rw [check]
  obtain ⟨top, head, t', ran, becomes, callee⟩ := exists_run_adjointCallee heldFunc
  have chain : ∃ base, t'.chain top =
      .ok (GateFunctor.reduceChain (.adjoint :: func.chain), base) := by
    obtain ⟨d, rfl, erased, cells⟩ := callee func rfl
    have all := (becomes.beside heldFunc).held
    have held : Holds t' d.cells := fun cell member =>
      all cell (List.perm_append_comm.mem_iff.1 (cells.subset member))
    rw [held.chain_eq, ← ExprTree.chain_erase, erased, ExprTree.chain_wrap, ExprTree.chain_erase,
      ExprTree.chain_base, List.append_nil]
    exact ⟨_, rfl⟩
  obtain ⟨base, chain⟩ := chain
  rw [Runs.treeM_bind (TreeM.run_addFunctor ..), Runs.treeM_bind ran]
  simp only [Runs.tree_bind, chain, Runs.ok_bind, Runs.operations_bind]
  refine Runs.variant_bind ?_
  have beside := becomes.beside owned.expr_head.held
  refine .treeM (run_setCallee (beside.held _ List.mem_cons_self) _)
    ⟨rfl, _, beside.put_head owned.expr_head _, fun filled trunk => ?_⟩
  obtain ⟨func', args', keywords', rfl, trunkFunc, trunkArgs, labels⟩ :=
    ExprTree.exists_filled trunk
  obtain ⟨d, label, erased, cells⟩ := callee func' trunkFunc
  refine ⟨.call d args' keywords', rfl, ?_, ?_⟩
  · simp [adjointRule, adjointFinish, Expr.map, known, erased]
  · simp only [ExprTree.cells_node, Expr.map, Expr.children, List.flatMap_cons,
      List.cons_append, label, ExprTree.map_label_of_trunk trunkArgs, labels, List.subperm_cons,
      ← List.append_assoc]
    exact (List.subperm_append_right _).2 cells

end Calls

theorem adjointBlock_runs {t : SyntaxTree} {c : Context} (block : List (StmtTree NodeId))
    (owned : Owns t (block.flatMap StmtTree.cells)) :
    Runs (LowerM.adjointBlock (block.map StmtTree.label)) t c
      (adjointStmts c.operations c.options (block.map StmtTree.erase)) fun rs ids t₁ c₁ =>
        c₁ = c ∧ ∃ block' : List (StmtTree NodeId), block'.map StmtTree.erase = rs ∧
          block'.map StmtTree.label = ids ∧
          Becomes t t₁ (block.flatMap StmtTree.cells) (block'.flatMap StmtTree.cells) := by
  unfold LowerM.adjointBlock adjointStmts
  simp only [Runs.tree_bind, LowerM.adjointStatementWithin_eq]
  refine (changeBlock_runs (adjointRule_follows c) (fun _ e held => by
    rw [held.isControlScope_eq, e.isControlScope_erase]) block owned).bind ?_
  rintro rs _ t₁ c₁ ⟨same, block', rfl, labels, becomes⟩
  refine .pure ⟨same, block'.reverse, by simp, by simp [labels], becomes.perm .rfl ?_⟩
  exact (List.reverse_perm block').symm.flatMap_right _

end QuantumLowering
