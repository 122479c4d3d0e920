import QuantumLowering.Proofs.Lowering.Commuting

namespace QuantumLowering

namespace OperationUse

def Supported (known : OperationTable) (u : OperationUse) : Prop :=
  ∀ f ∈ u.chain, known.supports u.operation f

def Lacks (known : OperationTable) (u : OperationUse) (missing : UndefinedVariant) : Prop :=
  missing.operation = u.operation ∧ missing.functor ∈ u.chain ∧
    known.supports u.operation missing.functor = false

def adjoint (u : OperationUse) : OperationUse :=
  ⟨u.operation, GateFunctor.reduceChain (.adjoint :: u.chain)⟩

theorem controlled_of_mem {u : OperationUse} (listed : .controlled ∈ u.chain) : u.controlled = u := by
  rw [controlled, GateFunctor.controlChain, if_pos listed]

theorem controlled_of_notMem {u : OperationUse} (absent : .controlled ∉ u.chain) :
    u.controlled = ⟨u.operation, .controlled :: u.chain⟩ := by
  rw [controlled, GateFunctor.controlChain, if_neg absent]

end OperationUse

/-- The uses of known operations in the values of a block. -/
def usesIn (known : OperationTable) (body : List StmtTerm) : List OperationUse :=
  (body.flatMap StmtTree.values).flatMap (ExprTree.uses known)

section Require

variable {known : OperationTable} {name : String} {chain : List GateFunctor}

theorem supported_of_require
    (required : (known.require name chain).mapError Refusal.undefinedVariant = .ok ()) :
    OperationUse.Supported known ⟨name, chain⟩ := by
  unfold OperationTable.require at required
  cases found : chain.find? fun f => !known.supports name f with
  | none =>
    intro f inside
    simpa using List.find?_eq_none.1 found f inside
  | some f =>
    rw [found] at required
    cases required

theorem lacks_of_require {reason : Refusal}
    (failed : (known.require name chain).mapError Refusal.undefinedVariant = .error reason) :
    ∃ missing, reason = .undefinedVariant missing ∧
      OperationUse.Lacks known ⟨name, chain⟩ missing := by
  unfold OperationTable.require at failed
  cases found : chain.find? fun f => !known.supports name f with
  | none =>
    rw [found] at failed
    cases failed
  | some f =>
    rw [found] at failed
    cases failed
    have lacking := List.find?_some found
    exact ⟨⟨name, f⟩, rfl, rfl, List.mem_of_find?_eq_some found, by simpa using lacking⟩

end Require

section Checks

variable {known : OperationTable} {layer : Expr ExprTerm} {u : OperationUse} {reason : Refusal}

theorem use?_eq_some (used : ExprTree.use? known layer = some u) :
    ∃ func args keywords, layer = .call func args keywords ∧
      func.operation? known = some u.operation ∧ func.chain = u.chain := by
  cases layer with
  | call func args keywords =>
    obtain ⟨name, named, rfl⟩ := Option.map_eq_some_iff.1 used
    exact ⟨func, args, keywords, rfl, named, rfl⟩
  | _ => cases used

theorem adjointCheck_ok (used : ExprTree.use? known layer = some u)
    (checked : adjointCheck known layer = .ok ()) : u.adjoint.Supported known := by
  obtain ⟨func, args, keywords, rfl, named, chain⟩ := use?_eq_some used
  simp only [adjointCheck, named, chain] at checked
  exact supported_of_require checked

theorem adjointCheck_error (used : ExprTree.use? known layer = some u)
    (failed : adjointCheck known layer = .error reason) :
    ∃ missing, reason = .undefinedVariant missing ∧ u.adjoint.Lacks known missing := by
  obtain ⟨func, args, keywords, rfl, named, chain⟩ := use?_eq_some used
  simp only [adjointCheck, named, chain] at failed
  exact lacks_of_require failed

theorem controlCheck_ok (used : ExprTree.use? known layer = some u)
    (checked : controlCheck known layer = .ok ()) (plain : .controlled ∉ u.chain) :
    u.controlled.Supported known := by
  obtain ⟨func, args, keywords, rfl, named, chain⟩ := use?_eq_some used
  rw [← chain] at plain
  have signature : func.signature = .identity := if_neg plain
  simp only [controlCheck, named, signature] at checked
  rw [chain] at checked plain
  rw [OperationUse.controlled_of_notMem plain]
  exact supported_of_require checked

theorem controlCheck_error (used : ExprTree.use? known layer = some u)
    (failed : controlCheck known layer = .error reason) :
    (.controlled ∉ u.chain ∧ ∃ missing, reason = .undefinedVariant missing ∧
        u.controlled.Lacks known missing) ∨
      .controlled ∈ u.chain ∧ reason = .unsupported (.missingControl u.operation) := by
  obtain ⟨func, args, keywords, rfl, named, chain⟩ := use?_eq_some used
  rw [← chain]
  by_cases listed : .controlled ∈ func.chain
  · right
    have signature : func.signature = .controlled := if_pos listed
    simp only [controlCheck, named, signature] at failed
    cases args with
    | nil =>
      cases failed
      exact ⟨listed, rfl⟩
    | cons existing args => cases failed
  · left
    have signature : func.signature = .identity := if_neg listed
    simp only [controlCheck, named, signature] at failed
    rw [chain] at failed listed
    rw [OperationUse.controlled_of_notMem listed, chain]
    exact ⟨listed, lacks_of_require failed⟩

theorem adjointCheck_other (other : ExprTree.isOperationCall known layer = false) :
    adjointCheck known layer = .ok () := by
  cases layer with
  | call func args keywords =>
    have unknown : func.operation? known = none := by
      simpa [ExprTree.isOperationCall] using other
    simp [adjointCheck, unknown]
  | _ => rfl

theorem controlCheck_other (other : ExprTree.isOperationCall known layer = false) :
    controlCheck known layer = .ok () := by
  cases layer with
  | call func args keywords =>
    have unknown : func.operation? known = none := by
      simpa [ExprTree.isOperationCall] using other
    simp [controlCheck, unknown]
  | _ => rfl

end Checks

section Expressions

variable {rule : CallRule} {known : OperationTable} {e r : ExprTerm}

theorem ExprTree.mem_uses_node {layer : Expr ExprTerm} {u : OperationUse} :
    u ∈ uses known (.node () layer) ↔
      use? known layer = some u ∨ ∃ part ∈ layer.children, u ∈ uses known part := by
  rw [uses_node, List.mem_append, List.mem_flatMap, Option.mem_toList]

theorem CallRule.checked_of_rewrite (ended : rule.rewrite e = .ok r) :
    ∀ u ∈ e.uses known, ∃ layer, ExprTree.use? known layer = some u ∧ rule.check layer = .ok () := by
  induction e using ExprTree.induct generalizing r with
  | step label layer ih =>
    have checked := CallRule.check_of_rewrite ended
    obtain ⟨parts, rewritten, -⟩ := CallRule.rewrite_eq_ok ended
    intro u member
    rcases ExprTree.mem_uses_node.1 member with used | ⟨part, inside, member⟩
    · exact ⟨layer, used, checked⟩
    · obtain ⟨part', -, ran⟩ := exists_mem_of_forall₂ rewritten inside
      exact ih part inside ran u member

theorem CallRule.refused_of_rewrite {reason : Refusal}
    (others : ∀ layer, ExprTree.isOperationCall known layer = false → rule.check layer = .ok ())
    (failed : rule.rewrite e = .error reason) : ∃ u ∈ e.uses known,
      ∃ layer, ExprTree.use? known layer = some u ∧ rule.check layer = .error reason := by
  induction e using ExprTree.induct with
  | step label layer ih =>
    rw [CallRule.rewrite_node] at failed
    rcases Plan.bind_eq_error.1 failed with here | ⟨⟨⟩, -, failed⟩
    · have operation : ExprTree.isOperationCall known layer := by
        by_contra other
        rw [others layer (Bool.eq_false_iff.2 other)] at here
        cases here
      rw [ExprTree.isOperationCall_eq_use?] at operation
      obtain ⟨u, used⟩ := Option.isSome_iff_exists.1 operation
      exact ⟨u, ExprTree.mem_uses_node.2 (.inl used), layer, used, here⟩
    · rcases Plan.bind_eq_error.1 failed with there | ⟨parts, -, ended⟩
      · obtain ⟨part, inside, failed⟩ := Plan.mapM_eq_error there
        obtain ⟨u, member, refused⟩ := ih part inside failed
        exact ⟨u, ExprTree.mem_uses_node.2 (.inr ⟨part, inside, member⟩), refused⟩
      · cases ended

theorem ExprTree.uses_wrap (chain : List GateFunctor) (func : ExprTerm) :
    uses known (wrap chain func.base) = uses known func := by
  rw [uses, operationCalls_wrap, operationCalls_base]
  rfl

theorem uses_adjoint (ended : (adjointRule known).rewrite e = .ok r) :
    r.uses known = (e.uses known).map OperationUse.adjoint := by
  induction e using ExprTree.induct generalizing r with
  | step label layer ih =>
    obtain ⟨parts, rewritten, rfl⟩ := CallRule.rewrite_eq_ok ended
    have trunks : parts.map ExprTree.trunk = layer.children.map ExprTree.trunk :=
      map_eq_of_forall₂ rewritten fun _ _ _ ended => trunk_adjoint ended
    have inside : parts.flatMap (ExprTree.uses known) =
        (layer.children.flatMap (ExprTree.uses known)).map OperationUse.adjoint := by
      rw [List.map_flatMap, List.flatMap_def, List.flatMap_def]
      exact congrArg List.flatten
        (map_eq_of_forall₂ rewritten fun part inside part' ended => ih part inside ended)
    have children := Expr.children_refill rewritten.length_eq.symm
    rw [ExprTree.uses_node layer, List.map_append, ← inside]
    cases operation : ExprTree.isOperationCall known layer with
    | false =>
      have finished : (adjointRule known).finish layer (layer.refill parts) = layer.refill parts :=
        adjointFinish_other _ operation
      rw [finished, ExprTree.uses_node, ExprTree.use?_refill trunks, children,
        ExprTree.use?_eq_none operation]
      rfl
    | true =>
      cases layer with
      | call func args keywords =>
        obtain ⟨func', args', keywords', filled, trunkFunc, -⟩ :=
          ExprTree.exists_call_of_trunk (ExprTree.trunk_refill trunks)
        have finished : (adjointRule known).finish (.call func args keywords)
            (.call func' args' keywords') = .call (.wrap (GateFunctor.reduceChain
              (.adjoint :: func.chain)) func'.base) args' keywords' := adjointFinish_call operation
        have named : (ExprTree.wrap (GateFunctor.reduceChain (.adjoint :: func.chain))
            func'.base).operation? known = func.operation? known := by
          rw [← ExprTree.operation?_eq_of_trunk trunkFunc]
          simp only [ExprTree.operation?, ExprTree.operationName, ExprTree.base_wrap,
            ExprTree.base_base]
        rw [filled] at children ⊢
        rw [finished, ExprTree.uses_node, ← children]
        simp only [ExprTree.use?, named, ExprTree.chain_wrap, ExprTree.chain_base, List.append_nil,
          Expr.children, List.flatMap_cons, ExprTree.uses_wrap]
        cases func.operation? known <;> rfl
      | _ => cases operation

end Expressions

section Blocks

variable {rule : CallRule} {reversed : ExprTerm → Bool} {known : OperationTable}
  {body rs : List StmtTerm}

theorem usesIn_reverse {u : OperationUse} : u ∈ usesIn known body.reverse ↔ u ∈ usesIn known body := by
  unfold usesIn
  exact ((body.reverse_perm.flatMap_right _).flatMap_right _).mem_iff

theorem CallRule.exists_rewritten_value {s r : StmtTerm}
    (ended : rule.rewriteStmt reversed s = .ok r) :
    ∀ value ∈ s.values, ∃ value' ∈ r.values, rule.rewrite value = .ok value' := by
  have block : ∀ {body rs : List StmtTerm}, List.Forall₂ (fun s r : StmtTerm =>
      ∀ value ∈ s.values, ∃ value' ∈ r.values, rule.rewrite value = .ok value') body rs →
      ∀ value ∈ body.flatMap StmtTree.values,
        ∃ value' ∈ rs.flatMap StmtTree.values, rule.rewrite value = .ok value' := by
    intro body rs pairs value member
    obtain ⟨s, listed, inside⟩ := List.mem_flatMap.1 member
    obtain ⟨r, listed', each⟩ := exists_mem_of_forall₂ pairs listed
    obtain ⟨value', inside', ran⟩ := each value inside
    exact ⟨value', List.mem_flatMap.2 ⟨r, listed', inside'⟩, ran⟩
  refine CallRule.rewriteStmt_induct ?kept ?expr ?assign ?scope ?conditional ended
  case kept =>
    intro s closed
    rw [StmtTree.values_sealed closed]
    simp
  case expr =>
    intro value value' ran
    simpa using ran
  case assign =>
    intro target value value' ran
    simpa using ran
  case scope =>
    intro context binding body rs pairs value member
    rw [StmtTree.values_scoped] at member ⊢
    obtain ⟨value', inside, ran⟩ := block pairs value member
    refine ⟨value', ?_, ran⟩
    split
    · exact (rs.reverse_perm.flatMap_right _).mem_iff.2 inside
    · exact inside
  case conditional =>
    intro test body orelse rs rs' pairs pairs' value member
    rw [StmtTree.values_conditional] at member ⊢
    rcases List.mem_append.1 member with member | member
    · obtain ⟨value', inside, ran⟩ := block pairs value member
      exact ⟨value', List.mem_append_left _ inside, ran⟩
    · obtain ⟨value', inside, ran⟩ := block pairs' value member
      exact ⟨value', List.mem_append_right _ inside, ran⟩

theorem CallRule.exists_rewritten_block_value
    (ended : body.mapM (rule.rewriteStmt reversed) = .ok rs) :
    ∀ value ∈ body.flatMap StmtTree.values,
      ∃ value' ∈ rs.flatMap StmtTree.values, rule.rewrite value = .ok value' := by
  intro value member
  obtain ⟨s, listed, inside⟩ := List.mem_flatMap.1 member
  obtain ⟨r, listed', ran⟩ := exists_mem_of_forall₂ (Plan.mapM_eq_ok ended) listed
  obtain ⟨value', inside', rewritten⟩ := CallRule.exists_rewritten_value ran value inside
  exact ⟨value', List.mem_flatMap.2 ⟨r, listed', inside'⟩, rewritten⟩

theorem CallRule.mem_usesIn {f : OperationUse → OperationUse}
    (each : ∀ e r, rule.rewrite e = .ok r → ∀ u, u ∈ r.uses known ↔ u ∈ (e.uses known).map f)
    (ended : body.mapM (rule.rewriteStmt reversed) = .ok rs) (u : OperationUse) :
    u ∈ usesIn known rs ↔ u ∈ (usesIn known body).map f := by
  simp only [usesIn, List.map_flatMap, List.mem_flatMap (b := u)]
  constructor
  · rintro ⟨value', listed, member⟩
    obtain ⟨value, listed', ran⟩ := CallRule.exists_of_mem_block_values ended value' listed
    exact ⟨value, listed', (each value value' ran u).1 member⟩
  · rintro ⟨value, listed, member⟩
    obtain ⟨value', listed', ran⟩ := CallRule.exists_rewritten_block_value ended value listed
    exact ⟨value', listed', (each value value' ran u).2 member⟩

theorem CallRule.checked_of_mapM (ended : body.mapM (rule.rewriteStmt reversed) = .ok rs) :
    ∀ u ∈ usesIn known body,
      ∃ layer, ExprTree.use? known layer = some u ∧ rule.check layer = .ok () := by
  intro u member
  obtain ⟨value, listed, inside⟩ := List.mem_flatMap.1 member
  obtain ⟨value', -, ran⟩ := CallRule.exists_rewritten_block_value ended value listed
  exact CallRule.checked_of_rewrite ran u inside

theorem CallRule.refused_value {s : StmtTerm} {reason : Refusal}
    (failed : rule.rewriteStmt reversed s = .error reason) :
    ∃ value ∈ s.values, rule.rewrite value = .error reason := by
  induction s using StmtTree.induct with
  | step s ih =>
    have block : ∀ body : List StmtTerm, (∀ part ∈ body, part ∈ s.inner) →
        body.mapM (rule.rewriteStmt reversed) = .error reason →
        ∃ value ∈ body.flatMap StmtTree.values, rule.rewrite value = .error reason := by
      intro body inside failed
      obtain ⟨part, member, failed⟩ := Plan.mapM_eq_error failed
      obtain ⟨value, listed, refused⟩ := ih part (inside part member) failed
      exact ⟨value, List.mem_flatMap.2 ⟨part, member, listed⟩, refused⟩
    cases s with
    | importAs _ _ _ | define _ _ | classDef _ _ _ | wire _ _ _ _ | pass _ =>
      rw [CallRule.rewriteStmt_sealed rfl] at failed
      cases failed
    | expr _ value =>
      rw [CallRule.rewriteStmt] at failed
      rw [StmtTree.values_expr]
      rcases Plan.bind_eq_error.1 failed with refused | ⟨value', -, ended⟩
      · exact ⟨value, List.mem_singleton_self value, refused⟩
      · cases ended
    | assign _ target value =>
      rw [CallRule.rewriteStmt] at failed
      rw [StmtTree.values_assign]
      rcases Plan.bind_eq_error.1 failed with refused | ⟨value', -, ended⟩
      · exact ⟨value, List.mem_singleton_self value, refused⟩
      · cases ended
    | «scoped» _ context binding body =>
      rw [CallRule.rewriteStmt_scoped] at failed
      rw [StmtTree.values_scoped]
      rcases Plan.bind_eq_error.1 failed with refused | ⟨rs, -, ended⟩
      · exact block body (fun _ member => member) refused
      · cases ended
    | conditional _ test body orelse =>
      rw [CallRule.rewriteStmt_conditional] at failed
      rw [StmtTree.values_conditional]
      rcases Plan.bind_eq_error.1 failed with refused | ⟨rs, -, failed⟩
      · obtain ⟨value, listed, refused⟩ :=
          block body (by simp +contextual [StmtTree.inner]) refused
        exact ⟨value, List.mem_append_left _ listed, refused⟩
      · rcases Plan.bind_eq_error.1 failed with refused | ⟨rs', -, ended⟩
        · obtain ⟨value, listed, refused⟩ :=
            block orelse (by simp +contextual [StmtTree.inner]) refused
          exact ⟨value, List.mem_append_right _ listed, refused⟩
        · cases ended

theorem CallRule.refused_of_mapM {reason : Refusal}
    (others : ∀ layer, ExprTree.isOperationCall known layer = false → rule.check layer = .ok ())
    (failed : body.mapM (rule.rewriteStmt reversed) = .error reason) : ∃ u ∈ usesIn known body,
      ∃ layer, ExprTree.use? known layer = some u ∧ rule.check layer = .error reason := by
  obtain ⟨s, there, failed⟩ := Plan.mapM_eq_error failed
  obtain ⟨value, within, failed⟩ := CallRule.refused_value failed
  obtain ⟨u, inside, refused⟩ := CallRule.refused_of_rewrite others failed
  exact ⟨u, List.mem_flatMap.2 ⟨value, List.mem_flatMap.2 ⟨s, there, within⟩, inside⟩, refused⟩

end Blocks

section Derived

variable {t : SyntaxTree} {c : Context} {d : Definition NodeId} {body : List StmtTerm}

theorem deriveAdjoint_body_runs (read : t.Reads d.body body) :
    Runs (LowerM.deriveAdjoint d) t c (adjointStmts c.operations c.options body)
      fun body' derived t' _ => t'.Reads derived.body body' := by
  obtain ⟨stmts, labels, erased, held⟩ := read
  obtain ⟨copies, t₁, copied, same, first⟩ := copyBlock_run held
  rw [labels] at copied
  unfold LowerM.deriveAdjoint
  rw [Runs.treeM_bind copied, ← erased, ← same,
    ← bind_pure (adjointStmts c.operations c.options (copies.map StmtTree.erase))]
  refine (adjointBlock_runs copies (first.owns .nil)).bind ?_
  rintro _ _ t₂ c₂ ⟨rfl, stmts', rfl, labels', second⟩
  rw [Runs.contextM_bind (ContextM.run_freshName _),
    Runs.contextM_bind (ContextM.run_modifyStats _)]
  exact .pure ⟨stmts', labels', rfl, second.held⟩

theorem deriveAdjoint_uses {derived : Definition NodeId} {s : LoweringState}
    (read : t.Reads d.body body) (ran : LowerM.deriveAdjoint d ⟨t, c⟩ = .ok derived s) :
    ∃ body', s.tree.Reads derived.body body' ∧
      (∀ u, u ∈ usesIn c.operations body' ↔
        u ∈ (usesIn c.operations body).map OperationUse.adjoint) ∧
      ∀ u ∈ usesIn c.operations body', u.Supported c.operations := by
  obtain ⟨body', ended, read'⟩ := (deriveAdjoint_body_runs read).exists_of_ok ran
  obtain ⟨rs, rewritten, ended⟩ := Plan.bind_eq_ok.1 ended
  cases ended
  have uses : ∀ u, u ∈ usesIn c.operations rs.reverse ↔
      u ∈ (usesIn c.operations body).map OperationUse.adjoint := by
    intro u
    rw [usesIn_reverse]
    refine CallRule.mem_usesIn (fun e r ended u => ?_) rewritten u
    rw [uses_adjoint ended]
  refine ⟨_, read', uses, fun u' member => ?_⟩
  obtain ⟨u, there, rfl⟩ := List.mem_map.1 ((uses u').1 member)
  obtain ⟨layer, used, checked⟩ := CallRule.checked_of_mapM rewritten u there
  exact adjointCheck_ok used checked

theorem deriveAdjoint_lacks {error : LoweringError} {s : LoweringState}
    (read : t.Reads d.body body) (failed : LowerM.deriveAdjoint d ⟨t, c⟩ = .error error s) :
    ∃ missing, error = .undefinedVariant missing ∧
      ∃ u ∈ usesIn c.operations body, u.adjoint.Lacks c.operations missing := by
  obtain ⟨reason, planned, rfl⟩ := (deriveAdjoint_body_runs read).exists_of_error failed
  rcases Plan.bind_eq_error.1 planned with refused | ⟨rs, -, ended⟩
  · obtain ⟨u, there, layer, used, refused⟩ :=
      CallRule.refused_of_mapM (fun layer other => adjointCheck_other other) refused
    obtain ⟨missing, rfl, lacking⟩ := adjointCheck_error used refused
    exact ⟨missing, rfl, u, there, lacking⟩
  · cases ended

theorem deriveControlled_uses {derived : Definition NodeId} {s : LoweringState}
    (read : t.Reads d.body body) (ran : LowerM.deriveControlled d ⟨t, c⟩ = .ok derived s) :
    ∃ body', s.tree.Reads derived.body body' ∧
      (∀ u, u ∈ usesIn c.operations body' ↔
        u ∈ (usesIn c.operations body).map OperationUse.controlled) ∧
      ∀ u ∈ usesIn c.operations body, .controlled ∉ u.chain →
        u.controlled.Supported c.operations := by
  obtain ⟨body', rewritten, -, read'⟩ := (deriveControlled_body_runs read).exists_of_ok ran
  refine ⟨body', read', CallRule.mem_usesIn (fun e r => control_controlsUses) rewritten, ?_⟩
  intro u there plain
  obtain ⟨layer, used, checked⟩ := CallRule.checked_of_mapM rewritten u there
  exact controlCheck_ok used checked plain

theorem deriveControlled_lacks {error : LoweringError} {s : LoweringState}
    (read : t.Reads d.body body) (failed : LowerM.deriveControlled d ⟨t, c⟩ = .error error s) :
    ∃ u ∈ usesIn c.operations body,
      (.controlled ∉ u.chain ∧ ∃ missing, error = .undefinedVariant missing ∧
          u.controlled.Lacks c.operations missing) ∨
        .controlled ∈ u.chain ∧ error = .unsupported (.missingControl u.operation) := by
  obtain ⟨reason, planned, rfl⟩ := (deriveControlled_body_runs read).exists_of_error failed
  obtain ⟨u, there, layer, used, refused⟩ :=
    CallRule.refused_of_mapM (fun layer other => controlCheck_other other) planned
  refine ⟨u, there, ?_⟩
  rcases controlCheck_error used refused with ⟨plain, missing, rfl, lacking⟩ | ⟨listed, rfl⟩
  · exact .inl ⟨plain, missing, rfl, lacking⟩
  · exact .inr ⟨listed, rfl⟩

/-- A controlled form keeps the chains that were controlled, supported or not. -/
theorem forall_supported_iff_controlled {known : OperationTable} {body body' : List StmtTerm}
    (uses : ∀ u, u ∈ usesIn known body' ↔ u ∈ (usesIn known body).map OperationUse.controlled)
    (plain : ∀ u ∈ usesIn known body, .controlled ∉ u.chain → u.controlled.Supported known) :
    (∀ u ∈ usesIn known body', u.Supported known) ↔
      ∀ u ∈ usesIn known body, .controlled ∈ u.chain → u.Supported known := by
  constructor
  · intro all u there listed
    rw [← OperationUse.controlled_of_mem listed]
    exact all _ ((uses _).2 (List.mem_map_of_mem there))
  · intro kept u' member
    obtain ⟨u, there, rfl⟩ := List.mem_map.1 ((uses u').1 member)
    by_cases listed : .controlled ∈ u.chain
    · rw [OperationUse.controlled_of_mem listed]
      exact kept u there listed
    · exact plain u there listed

/-- The adjoint form of a definition uses only variants that the table has, and is refused for one
that it has not. The controlled form does so exactly if the uses that were controlled already have
their variants: of these, the table is not asked. -/
theorem derived_uses_supported (read : t.Reads d.body body) :
    (∀ derived s, LowerM.deriveAdjoint d ⟨t, c⟩ = .ok derived s → ∃ body',
      s.tree.Reads derived.body body' ∧
      (∀ u, u ∈ usesIn c.operations body' ↔
        u ∈ (usesIn c.operations body).map OperationUse.adjoint) ∧
      ∀ u ∈ usesIn c.operations body', u.Supported c.operations) ∧
    (∀ error s, LowerM.deriveAdjoint d ⟨t, c⟩ = .error error s → ∃ missing,
      error = .undefinedVariant missing ∧
      ∃ u ∈ usesIn c.operations body, u.adjoint.Lacks c.operations missing) ∧
    (∀ derived s, LowerM.deriveControlled d ⟨t, c⟩ = .ok derived s → ∃ body',
      s.tree.Reads derived.body body' ∧
      (∀ u, u ∈ usesIn c.operations body' ↔
        u ∈ (usesIn c.operations body).map OperationUse.controlled) ∧
      (∀ u ∈ usesIn c.operations body, .controlled ∉ u.chain →
        u.controlled.Supported c.operations) ∧
      ((∀ u ∈ usesIn c.operations body', u.Supported c.operations) ↔
        ∀ u ∈ usesIn c.operations body, .controlled ∈ u.chain → u.Supported c.operations)) ∧
    ∀ error s, LowerM.deriveControlled d ⟨t, c⟩ = .error error s →
      ∃ u ∈ usesIn c.operations body,
        (.controlled ∉ u.chain ∧ ∃ missing, error = .undefinedVariant missing ∧
            u.controlled.Lacks c.operations missing) ∨
          .controlled ∈ u.chain ∧ error = .unsupported (.missingControl u.operation) := by
  refine ⟨fun _ _ ran => deriveAdjoint_uses read ran, fun _ _ => deriveAdjoint_lacks read, ?_,
    fun _ _ => deriveControlled_lacks read⟩
  intro derived s ran
  obtain ⟨body', read', uses, plain⟩ := deriveControlled_uses read ran
  exact ⟨body', read', uses, plain, forall_supported_iff_controlled uses plain⟩

def uncontrollable : OperationTable := .ofList [("U", ⟨.variant "U", .undefined⟩)]

/-- With the operation under a control, the adjoint form is refused and the controlled form is not. -/
theorem derived_uses_supported_uncontrollable :
    let t : SyntaxTree := ⟨#[.expr (.name "U"), .expr (.functor .controlled 0), .expr (.name "c"),
      .expr (.name "q"), .expr (.call 1 [2, 3] []), .stmt (.expr 4)], []⟩
    let c : Context := { Context.new .default with operations := uncontrollable }
    let d : Definition NodeId := ⟨"f", ["c", "q"], [5], none⟩
    (∃ s, LowerM.deriveAdjoint d ⟨t, c⟩ = .error (.undefinedVariant ⟨"U", .controlled⟩) s) ∧
      ∃ derived s body', LowerM.deriveControlled d ⟨t, c⟩ = .ok derived s ∧
        s.tree.Reads derived.body body' ∧ ¬ ∀ u ∈ usesIn uncontrollable body',
          u.Supported uncontrollable := by
  intro t c d
  let body : List StmtTerm := [.expr () (.node () (.call (.node () (.functor .controlled
    (nameTerm "U"))) [nameTerm "c", nameTerm "q"] []))]
  have read : t.Reads d.body body := by
    refine ⟨[.expr 5 (.node 4 (.call (.node 1 (.functor .controlled (.node 0 (.name "U"))))
      [.node 2 (.name "c"), .node 3 (.name "q")] []))], rfl, ?_, ?_⟩
    · simp [body, nameTerm, Expr.map]
    · simp [t, Expr.map, Expr.children, Holds]
  have uses : usesIn uncontrollable body = [⟨"U", [.controlled]⟩] := by
    have known : uncontrollable.contains "U" = true := by decide
    simp [usesIn, body, ExprTree.uses_node, ExprTree.use?, Expr.children,
      ExprTree.operation?, ExprTree.operationName, ExprTree.base, ExprTree.layer, ExprTree.chain,
      nameTerm, known]
  obtain ⟨-, refused, derives, -⟩ := derived_uses_supported (c := c) read
  constructor
  · have fails : LowerM.succeeds (LowerM.deriveAdjoint d) ⟨t, c⟩ = false := by decide +kernel
    cases ran : LowerM.deriveAdjoint d ⟨t, c⟩ with
    | ok derived s =>
      rw [LowerM.succeeds, ran] at fails
      cases fails
    | error error s =>
      obtain ⟨⟨name, f⟩, rfl, u, there, named, listed, lacking⟩ := refused error s ran
      rw [show c.operations = uncontrollable from rfl, uses, List.mem_singleton] at there
      cases there
      cases named
      cases f with
      | adjoint => cases lacking
      | controlled => exact ⟨s, rfl⟩
  · have succeeds : LowerM.succeeds (LowerM.deriveControlled d) ⟨t, c⟩ := by decide +kernel
    obtain ⟨derived, s, ran⟩ := LowerM.exists_of_succeeds succeeds
    obtain ⟨body', read', -, -, all⟩ := derives derived s ran
    refine ⟨derived, s, body', ran, read', fun supported => ?_⟩
    have before := all.1 supported ⟨"U", [.controlled]⟩ (by
      rw [show c.operations = uncontrollable from rfl, uses]
      exact List.mem_singleton_self _) (List.mem_singleton_self _)
    cases before .controlled (List.mem_singleton_self _)

end Derived

end QuantumLowering
