import QuantumLowering.Lowering.Adjoint
import QuantumLowering.Proofs.Lowering.Calls

namespace QuantumLowering

def ExprTree.isControlScope {α : Type} (o : Options) : ExprTree α → Bool
  | .node _ (.call (.node _ (.attribute (.node _ (.name name)) attr)) _ _) =>
    attr == o.scopeFn && name == o.boilerplateAlias
  | _ => false

@[simp]
theorem ExprTree.isControlScope_erase {α : Type} (o : Options) (e : ExprTree α) :
    e.erase.isControlScope o = e.isControlScope o := by
  obtain ⟨label, layer⟩ := e
  rw [erase_node]
  cases layer with
  | call func args keywords =>
    obtain ⟨label', layer'⟩ := func
    rw [Expr.map, erase_node]
    cases layer' with
    | «attribute» value attr =>
      obtain ⟨label'', layer''⟩ := value
      rw [Expr.map, erase_node]
      cases layer'' <;> rfl
    | _ => rfl
  | _ => rfl

theorem Holds.isControlScope_eq {t : SyntaxTree} {e : ExprTree NodeId} (held : Holds t e.cells)
    (o : Options) : t.isControlScope o e.label = .ok (e.isControlScope o) := by
  obtain ⟨id, layer⟩ := e
  rw [SyntaxTree.isControlScope, held.expr_eq]
  cases layer with
  | call func args keywords =>
    have heldFunc : Holds t func.cells := held.part (by simp [Expr.children])
    simp only [ExprTree.layer, Expr.map, Bind.bind, Except.bind, heldFunc.expr_eq]
    obtain ⟨id', layer'⟩ := func
    cases layer' with
    | «attribute» value attr =>
      have heldValue : Holds t value.cells := heldFunc.part (by simp [Expr.children])
      simp only [Expr.map, heldValue.expr_eq]
      obtain ⟨id'', layer''⟩ := value
      by_cases named : attr = o.scopeFn
      · cases layer'' <;> simp [named, ExprTree.isControlScope, Pure.pure, Except.pure]
      · cases layer'' <;> simp [named, ExprTree.isControlScope, Pure.pure, Except.pure]
    | _ => rfl
  | _ => rfl

/-- Rewrites the calls of a statement. Definitions and classes stay as they are. -/
def CallRule.rewriteStmt (rule : CallRule) (reversed : ExprTerm → Bool) : StmtTerm → Plan StmtTerm
  | .expr _ value => do return .expr () (← rule.rewrite value)
  | .assign _ target value => do return .assign () target (← rule.rewrite value)
  | .scoped _ context binding body => do
    let body ← body.attach.mapM fun s => rule.rewriteStmt reversed s.1
    return .scoped () context binding (if reversed context then body.reverse else body)
  | .conditional _ test body orelse => do
    let body ← body.attach.mapM fun s => rule.rewriteStmt reversed s.1
    let orelse ← orelse.attach.mapM fun s => rule.rewriteStmt reversed s.1
    return .conditional () test body orelse
  | s => return s
termination_by s => sizeOf s
decreasing_by all_goals exact StmtTree.sizeOf_inner (by simp [StmtTree.inner, s.2])

section Equations

variable (rule : CallRule) (reversed : ExprTerm → Bool)

theorem CallRule.rewriteStmt_scoped (context : ExprTerm) (binding : Option ExprTerm)
    (body : List StmtTerm) :
    rule.rewriteStmt reversed (.scoped () context binding body) = do
      let body ← body.mapM (rule.rewriteStmt reversed)
      return .scoped () context binding (if reversed context then body.reverse else body) := by
  rw [CallRule.rewriteStmt, mapM_attach]

theorem CallRule.rewriteStmt_conditional (test : ExprTerm) (body orelse : List StmtTerm) :
    rule.rewriteStmt reversed (.conditional () test body orelse) = do
      let body ← body.mapM (rule.rewriteStmt reversed)
      let orelse ← orelse.mapM (rule.rewriteStmt reversed)
      return .conditional () test body orelse := by
  rw [CallRule.rewriteStmt, mapM_attach, mapM_attach]

end Equations

namespace LowerM

open TreeM

def changeCalls (act : NodeId → LowerM Unit) (expr : NodeId) : LowerM Unit := do
  let calls ← (← tree).callsIn expr
  calls.forM act

variable (act : NodeId → LowerM Unit)
  (reversed : SyntaxTree → Options → NodeId → Except TreeError Bool)

def changeStatementWithin : Nat → NodeId → LowerM Unit
  | 0, id => throw (.tree (.cyclic id))
  | depth + 1, id => do
    match ← stmt id with
    | .expr value => changeCalls act value
    | .assign _ value => changeCalls act value
    | .scoped context _ body =>
      let reverses ← reversed (← tree) (← options) context
      body.forM (changeStatementWithin depth)
      if reverses then setScopedBody id body.reverse
    | .conditional _ body orelse =>
      body.forM (changeStatementWithin depth)
      orelse.forM (changeStatementWithin depth)
    | _ => return ()

theorem adjointStatementWithin_eq (depth : Nat) :
    adjointStatementWithin depth =
      changeStatementWithin adjointCall SyntaxTree.isControlScope depth := by
  induction depth with
  | zero => rfl
  | succ depth ih =>
    funext id
    rw [adjointStatementWithin, changeStatementWithin, ih]
    rfl

theorem controlStatementWithin_eq (control : String) (depth : Nat) :
    controlStatementWithin control depth =
      changeStatementWithin (controlCall control) (fun _ _ _ => .ok false) depth := by
  induction depth with
  | zero => rfl
  | succ depth ih =>
    funext id
    rw [controlStatementWithin, changeStatementWithin, ih]
    congr 1
    funext s
    match s with
    | .scoped context binding body =>
      exact (bind_pure (m := LowerM) _).symm
    | .expr _ | .assign .. | .conditional .. | .importAs .. | .define _ | .classDef .. | .wire ..
    | .pass => rfl

end LowerM

section Simulation

variable {rule : CallRule} {act : NodeId → LowerM Unit} {c : Context} {t : SyntaxTree}
  {reverses : SyntaxTree → Options → NodeId → Except TreeError Bool} {reversed : ExprTerm → Bool}

theorem changeCalls_runs (follows : rule.Follows act c) (e : ExprTree NodeId)
    (owned : Owns t e.cells) :
    Runs (LowerM.changeCalls act e.label) t c (rule.rewrite e.erase) fun r _ t₁ c₁ =>
      c₁ = c ∧ ∃ d : ExprTree NodeId, d.erase = r ∧ d.label = e.label ∧
        Becomes t t₁ e.cells d.cells := by
  simp only [LowerM.changeCalls, Runs.tree_bind, owned.held.callsIn_eq, Runs.ok_bind]
  refine (rule.rewrite_runs follows e owned).mono ?_
  rintro r _ t₁ c₁ ⟨same, d, erased, trunk, becomes⟩
  exact ⟨same, d, erased, ExprTree.label_eq_of_trunk trunk, becomes⟩

theorem run_setScopedBody {id : NodeId} {context : NodeId} {binding : Option NodeId}
    {old body : List NodeId} (found : t.nodes[id]? = some (.stmt (.scoped context binding old))) :
    TreeM.setScopedBody id body t = .ok () (t.put id (.stmt (.scoped context binding body))) := by
  unfold TreeM.setScopedBody
  rw [TreeM.run_bind (TreeM.run_stmt found)]
  exact TreeM.run_setStmt found

theorem changeStatement_runs (follows : rule.Follows act c)
    (scopes : ∀ t (e : ExprTree NodeId), Holds t e.cells →
      reverses t c.options e.label = .ok (reversed e.erase))
    {depth : Nat} (s : StmtTree NodeId) (bound : s.height ≤ depth) (owned : Owns t s.cells) :
    Runs (LowerM.changeStatementWithin act reverses depth s.label) t c
      (rule.rewriteStmt reversed s.erase) fun r _ t₁ c₁ =>
        c₁ = c ∧ ∃ s' : StmtTree NodeId, s'.erase = r ∧ s'.label = s.label ∧
          Becomes t t₁ s.cells s'.cells := by
  induction s using StmtTree.induct generalizing t depth with
  | step s ih =>
    obtain ⟨depth, rfl⟩ : ∃ d, depth = d + 1 := ⟨depth - 1, by have := s.height_pos; omega⟩
    have block : ∀ body : List (StmtTree NodeId), (∀ part ∈ body, part ∈ s.inner) → ∀ t,
        Owns t (body.flatMap StmtTree.cells) →
        Runs ((body.map StmtTree.label).forM (LowerM.changeStatementWithin act reverses depth))
          t c ((body.map StmtTree.erase).mapM (rule.rewriteStmt reversed)) fun rs _ t₁ c₁ =>
            c₁ = c ∧ ∃ body' : List (StmtTree NodeId), body'.map StmtTree.erase = rs ∧
              body'.map StmtTree.label = body.map StmtTree.label ∧
              Becomes t t₁ (body.flatMap StmtTree.cells) (body'.flatMap StmtTree.cells) := by
      intro body inside t owned
      rw [List.forM_eq_forM, List.forM_map, ← List.forM_eq_forM, List.mapM_map]
      refine Runs.each StmtTree.cells StmtTree.erase StmtTree.label owned fun part member t own => ?_
      have := StmtTree.height_inner (inside part member)
      exact ih part (inside part member) (by omega) own
    unfold LowerM.changeStatementWithin
    rw [Runs.treeM_bind (TreeM.run_stmt owned.held.stmt_node)]
    match s with
    | .importAs .. | .define .. | .classDef .. | .wire .. | .pass _ =>
      simp only [StmtTree.erase_importAs, StmtTree.erase_define, StmtTree.erase_classDef,
        StmtTree.erase_wire, StmtTree.erase_pass, CallRule.rewriteStmt]
      exact .pure ⟨rfl, _, by simp, rfl, .refl owned.held⟩
    | .expr id value =>
      rw [StmtTree.cells_expr] at owned
      rw [StmtTree.erase_expr, CallRule.rewriteStmt, bind_pure_comp]
      refine (changeCalls_runs follows value owned.tail).map ?_
      rintro r _ t₁ c₁ ⟨same, d, rfl, label, becomes⟩
      refine ⟨same, .expr id d, by simp, rfl, ?_⟩
      rw [StmtTree.cells_expr, StmtTree.cells_expr, label]
      exact becomes.cons_owned owned
    | .assign id target value =>
      rw [StmtTree.cells_assign] at owned
      rw [StmtTree.erase_assign, CallRule.rewriteStmt, bind_pure_comp]
      refine (changeCalls_runs follows value owned.tail.right).map ?_
      rintro r _ t₁ c₁ ⟨same, d, rfl, label, becomes⟩
      refine ⟨same, .assign id target d, by simp, rfl, ?_⟩
      rw [StmtTree.cells_assign, StmtTree.cells_assign, label]
      exact (becomes.frame_owned_left owned.tail).cons_owned owned
    | .scoped id context binding body =>
      have isReversed := scopes t context (owned.held.exprs (by simp [StmtTree.exprs]))
      rw [StmtTree.cells_scoped] at owned ⊢
      rw [StmtTree.erase_scoped, CallRule.rewriteStmt_scoped]
      simp only [StmtTree.stmt, Runs.tree_bind, Runs.options_bind, isReversed, Runs.ok_bind]
      refine (block body (fun _ member => member) t owned.tail.right).bind ?_
      rintro rs _ t₁ c₁ ⟨same, body', rfl, labels, becomes⟩
      cases same
      have framed := (becomes.frame_owned_left owned.tail).cons_owned owned
      cases reversed context.erase with
      | false =>
        refine .pure ⟨rfl, .scoped id context binding body', by simp, rfl, ?_⟩
        rw [StmtTree.cells_scoped, labels]
        exact framed
      | true =>
        refine .treeM (run_setScopedBody (framed.held _ List.mem_cons_self))
          ⟨rfl, .scoped id context binding body'.reverse, by simp, rfl, ?_⟩
        rw [StmtTree.cells_scoped, List.map_reverse, labels]
        refine (framed.put_head owned _).perm .rfl (.cons _ (.append_left _ ?_))
        exact (List.reverse_perm body').symm.flatMap_right _
    | .conditional id test body orelse =>
      rw [StmtTree.cells_conditional] at owned ⊢
      rw [StmtTree.erase_conditional, CallRule.rewriteStmt_conditional]
      refine (block body (by simp +contextual [StmtTree.inner]) t owned.tail.right.left).bind ?_
      rintro rs _ t₁ c₁ ⟨same, body', rfl, labels, first⟩
      cases same
      have owned₁ := (first.frame_owned owned.tail.right).owns owned.tail.right
      rw [bind_pure_comp]
      refine (block orelse (by simp +contextual [StmtTree.inner]) t₁ owned₁.right).map ?_
      rintro rs _ t₂ c₂ ⟨same, orelse', rfl, labels', second⟩
      refine ⟨same, .conditional id test body' orelse', by simp, rfl, ?_⟩
      rw [StmtTree.cells_conditional, labels, labels']
      have both := first.append second owned.tail.right
      exact (both.frame_owned_left owned.tail).cons_owned owned

theorem changeBlock_runs (follows : rule.Follows act c)
    (scopes : ∀ t (e : ExprTree NodeId), Holds t e.cells →
      reverses t c.options e.label = .ok (reversed e.erase))
    (block : List (StmtTree NodeId)) (owned : Owns t (block.flatMap StmtTree.cells)) :
    Runs ((block.map StmtTree.label).forM
        (LowerM.changeStatementWithin act reverses t.depthBound)) t c
      ((block.map StmtTree.erase).mapM (rule.rewriteStmt reversed)) fun rs _ t₁ c₁ =>
        c₁ = c ∧ ∃ block' : List (StmtTree NodeId), block'.map StmtTree.erase = rs ∧
          block'.map StmtTree.label = block.map StmtTree.label ∧
          Becomes t t₁ (block.flatMap StmtTree.cells) (block'.flatMap StmtTree.cells) := by
  rw [List.forM_eq_forM, List.forM_map, ← List.forM_eq_forM, List.mapM_map]
  refine Runs.each StmtTree.cells StmtTree.erase StmtTree.label owned fun s member t' own => ?_
  have height := (Holds.flatMap_iff.1 owned.held s member).height_stmt
  exact changeStatement_runs follows scopes s (Nat.le_succ_of_le height) own

end Simulation

section Known

variable {α : Type}

def ExprTree.operation? (known : OperationTable) (func : ExprTree α) : Option String :=
  func.operationName.filter known.contains

@[simp]
theorem ExprTree.operation?_erase (known : OperationTable) (func : ExprTree α) :
    func.erase.operation? known = func.operation? known := by
  simp [ExprTree.operation?]

theorem Runs.known_call {β : Type} {change : String → LowerM Unit} {c : Context} {t : SyntaxTree}
    {func : ExprTree α} {plan : Plan β} {post : β → Unit → SyntaxTree → Context → Prop}
    (unknown : func.operation? c.operations = none →
      Runs (Pure.pure ()) t c plan post)
    (known : ∀ name, func.operation? c.operations = some name →
      Runs (change name) t c plan post) :
    Runs (match func.operationName with
      | none => Pure.pure ()
      | some name => do
        if (← LowerM.operations).contains name then change name else Pure.pure ()) t c plan post := by
  cases called : func.operationName with
  | none => exact unknown (by simp [ExprTree.operation?, called])
  | some name =>
    rw [Runs.operations_bind]
    cases listed : c.operations.contains name with
    | true =>
      simp only [↓reduceIte]
      exact known name (by simp [ExprTree.operation?, called, listed])
    | false =>
      simp only [Bool.false_eq_true, ↓reduceIte]
      exact unknown (by simp [ExprTree.operation?, called, listed])

end Known

end QuantumLowering
