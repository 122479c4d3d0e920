import QuantumLowering.Proofs.Lowering.Discipline
import QuantumLowering.Proofs.Lowering.Separation

/-!
Most steps of lowering leave every statement of the arena as it is: they add nodes and change expressions.
Adding a control, moving measurements, putting a batch in place and deriving a form are such steps, on any
tree whatsoever. The others change the one statement they are for.
-/

namespace QuantumLowering

/-- Apart from those touched, every statement of the arena is still there as it was. -/
def Settled (touched : List NodeId) (t t' : SyntaxTree) : Prop :=
  ∀ (id : NodeId) (s : Stmt NodeId), id ∉ touched → t.nodes[id]? = some (.stmt s) →
    t'.nodes[id]? = some (.stmt s)

namespace Settled

variable {touched : List NodeId} {t t' t'' : SyntaxTree} {id : NodeId}

theorem refl (touched : List NodeId) (t : SyntaxTree) : Settled touched t t := fun _ _ _ found => found

theorem trans (first : Settled touched t t') (second : Settled touched t' t'') :
    Settled touched t t'' :=
  fun id s outside found => second id s outside (first id s outside found)

theorem touch (settled : Settled [] t t') (touched : List NodeId) : Settled touched t t' :=
  fun id s _ found => settled id s (by simp) found

theorem push (t : SyntaxTree) (node : Node NodeId) : Settled [] t (t.push node) :=
  fun _ _ _ found => SyntaxTree.nodes_push_of_some node found

theorem put_expr {e e' : Expr NodeId} (found : t.nodes[id]? = some (.expr e)) :
    Settled [] t (t.put id (.expr e')) := by
  intro other s _ there
  have differ : other ≠ id := by
    rintro rfl
    cases found.symm.trans there
  rw [SyntaxTree.nodes_put, if_neg fun both => differ both.1]
  exact there

theorem put (t : SyntaxTree) (id : NodeId) (node : Node NodeId) : Settled [id] t (t.put id node) := by
  intro other s outside there
  have differ : other ≠ id := fun same => outside (by simp [same])
  rw [SyntaxTree.nodes_put, if_neg fun both => differ both.1]
  exact there

end Settled

theorem Revises.settled {t t' : SyntaxTree} (revises : Revises t.size t t') : Settled [] t t' := by
  intro id s _ found
  rw [revises.same id (Array.getElem?_eq_some_iff.1 found).1, found]

theorem LowerM.treeM_of_lift_ok {α : Type} {act : TreeM α} {a : α} {s s' : LoweringState}
    (ended : (liftM act : LowerM α) s = .ok a s') : act s.tree = .ok a s'.tree := by
  simp only [liftM, monadLift, MonadLift.monadLift] at ended
  cases ran : act s.tree with
  | ok b t' =>
    rw [ran] at ended
    cases ended
    rfl
  | error e t' =>
    rw [ran] at ended
    cases ended

theorem LowerM.nodes_of_put_ok {act : TreeM Unit} {id : NodeId} {node new : Node NodeId}
    {s s' : LoweringState} (ended : (liftM act : LowerM Unit) s = .ok () s')
    (ran : act s.tree = .ok () (s.tree.put id new)) (found : s.tree.nodes[id]? = some node) :
    s'.tree.nodes[id]? = some new := by
  have put := LowerM.treeM_of_lift_ok ended
  rw [ran] at put
  rw [← (EStateM.Result.ok.inj put).2]
  exact SyntaxTree.nodes_put_self found

def Observes {α : Type} (act : LowerM α) : Prop := ∀ s, act.final s = s

namespace Observes

variable {α β : Type}

theorem eq_of_ok {act : LowerM α} (observes : Observes act) {a : α} {s s' : LoweringState}
    (ended : act s = .ok a s') : s' = s := by
  have final := observes s
  unfold LowerM.final at final
  rwa [ended] at final

theorem pure (a : α) : Observes (Pure.pure a : LowerM α) := fun _ => rfl

theorem throw (e : LoweringError) : Observes (MonadExcept.throw e : LowerM α) := fun _ => rfl

theorem throw_bind (e : LoweringError) (f : α → LowerM β) :
    Observes (MonadExcept.throw e >>= f) := fun _ => rfl

theorem bind {act : LowerM α} {f : α → LowerM β} (first : Observes act) (rest : ∀ a, Observes (f a)) :
    Observes (act >>= f) := by
  intro s
  have before := first s
  unfold LowerM.final at before ⊢
  cases ran : act s with
  | error e s' =>
    simp only [Bind.bind, EStateM.bind, ran] at before ⊢
    exact before
  | ok a s' =>
    simp only [Bind.bind, EStateM.bind, ran] at before ⊢
    exact before ▸ rest a s'

theorem foldlM {xs : List α} {act : β → α → LowerM β} (each : ∀ b x, Observes (act b x)) (b : β) :
    Observes (xs.foldlM act b) := by
  induction xs generalizing b with
  | nil => exact pure b
  | cons x xs ih =>
    rw [List.foldlM_cons]
    exact bind (each b x) ih

theorem tree : Observes LowerM.tree := fun _ => rfl

theorem context : Observes LowerM.context := fun _ => rfl

theorem options : Observes LowerM.options := fun _ => rfl

theorem operations : Observes LowerM.operations := fun _ => rfl

theorem except (r : Except TreeError α) : Observes (liftM r : LowerM α) := by
  intro s
  cases r <;> rfl

theorem variant (r : Except UndefinedVariant α) : Observes (liftM r : LowerM α) := by
  intro s
  cases r <;> rfl

end Observes

/-- Where a run succeeds, the arena that the state holds has settled. -/
def Settles {ε σ α : Type} (view : σ → SyntaxTree) (touched : List NodeId) (act : EStateM ε σ α) : Prop :=
  ∀ s a s', act s = .ok a s' → Settled touched (view s) (view s')

namespace Settles

section Combinators

variable {ε σ α β : Type} {view : σ → SyntaxTree} {touched : List NodeId}

theorem pure (a : α) : Settles view touched (Pure.pure a : EStateM ε σ α) := by
  intro s b s' ended
  cases ended
  exact .refl touched _

theorem throw (e : ε) : Settles view touched (MonadExcept.throw e : EStateM ε σ α) := by
  intro s b s' ended
  cases ended

theorem throw_bind (e : ε) (f : α → EStateM ε σ β) :
    Settles view touched (MonadExcept.throw e >>= f) := by
  intro s b s' ended
  cases ended

theorem bind {act : EStateM ε σ α} {f : α → EStateM ε σ β} (first : Settles view touched act)
    (rest : ∀ a, Settles view touched (f a)) : Settles view touched (act >>= f) := by
  intro s b s'' ended
  obtain ⟨a, s', ran, ended⟩ := LowerM.exists_of_bind_ok ended
  exact (first s a s' ran).trans (rest a s' b s'' ended)

theorem forM {xs : List α} {act : α → EStateM ε σ Unit} (each : ∀ x, Settles view touched (act x)) :
    Settles view touched (xs.forM act) := by
  induction xs with
  | nil => exact pure ()
  | cons x xs ih => exact bind (each x) fun _ => ih

theorem mapM {xs : List α} {act : α → EStateM ε σ β} (each : ∀ x, Settles view touched (act x)) :
    Settles view touched (xs.mapM act) := by
  induction xs with
  | nil => exact pure []
  | cons x xs ih =>
    rw [List.mapM_cons]
    exact bind (each x) fun _ => bind ih fun _ => pure _

theorem touch {act : EStateM ε σ α} (settles : Settles view [] act) (touched : List NodeId) :
    Settles view touched act :=
  fun s a s' ended => (settles s a s' ended).touch touched

end Combinators

section Arena

variable {α : Type} {touched : List NodeId} {site : NodeId}

theorem looking (look : SyntaxTree → Except TreeError α) :
    Settles id touched ((get : TreeM SyntaxTree) >>= fun t => (liftM (look t) : TreeM α)) := by
  intro t a t' ended
  rw [TreeM.run_bind TreeM.run_get] at ended
  cases looked : look t with
  | ok b =>
    rw [TreeM.run_lift looked] at ended
    cases ended
    exact .refl touched _
  | error e =>
    rw [looked] at ended
    cases ended

theorem expr : Settles id touched (TreeM.expr site) := looking _

theorem stmt : Settles id touched (TreeM.stmt site) := looking _

theorem addExpr (e : Expr NodeId) : Settles id [] (TreeM.addExpr e) := by
  intro t a t' ended
  cases ended
  exact .push t _

theorem addStmt (s : Stmt NodeId) : Settles id [] (TreeM.addStmt s) := by
  intro t a t' ended
  cases ended
  exact .push t _

theorem setExpr (e : Expr NodeId) : Settles id [] (TreeM.setExpr site e) := by
  intro t a t' ended
  unfold TreeM.setExpr TreeM.expr SyntaxTree.expr at ended
  rw [bind_assoc, TreeM.run_bind TreeM.run_get] at ended
  cases found : t.nodes[site]? with
  | none =>
    simp only [found] at ended
    cases ended
  | some node =>
    cases node with
    | stmt s =>
      simp only [found] at ended
      cases ended
    | expr e' =>
      simp only [found] at ended
      cases ended
      exact .put_expr found

theorem setStmt (s : Stmt NodeId) : Settles id [site] (TreeM.setStmt site s) := by
  refine bind stmt fun _ => ?_
  intro t a t' ended
  cases ended
  exact .put t site _

theorem setCallee (func : NodeId) : Settles id [] (TreeM.setCallee site func) := by
  refine bind expr fun e => ?_
  split
  · exact setExpr _
  · exact pure ()

theorem modifyArgs (f : List NodeId → List NodeId) : Settles id [] (TreeM.modifyArgs site f) := by
  refine bind expr fun e => ?_
  split
  · exact setExpr _
  · exact pure ()

theorem mergeControl (existing control : NodeId) :
    Settles id [] (TreeM.mergeControl existing control) := by
  intro t a t' ended
  rcases run_mergeControl_cases t existing control with ⟨e, failed⟩ | ⟨ids, members, -, -, ran⟩
  · cases failed.symm.trans ended
  · cases ran.symm.trans ended
    exact .push t _

variable {body orelse : List NodeId}

theorem setDefinitionBody : Settles id [site] (TreeM.setDefinitionBody site body) := by
  refine bind stmt fun s => ?_
  split
  · exact setStmt _
  · exact pure ()

theorem setClassBody : Settles id [site] (TreeM.setClassBody site body) := by
  refine bind stmt fun s => ?_
  split
  · exact setStmt _
  · exact pure ()

theorem setScopedBody : Settles id [site] (TreeM.setScopedBody site body) := by
  refine bind stmt fun s => ?_
  split
  · exact setStmt _
  · exact pure ()

theorem setBranches : Settles id [site] (TreeM.setBranches site body orelse) := by
  refine bind stmt fun s => ?_
  split
  · exact setStmt _
  · exact pure ()

end Arena

section Lowering

variable {α β : Type} {touched : List NodeId}

theorem treeM {act : TreeM α} (settles : Settles id touched act) :
    Settles LoweringState.tree touched (liftM act : LowerM α) :=
  fun _ _ _ ended => settles _ _ _ (LowerM.treeM_of_lift_ok ended)

theorem contextM (act : ContextM α) :
    Settles LoweringState.tree touched (liftM act : LowerM α) := by
  intro s a s' ended
  rw [(LowerM.exists_of_lift_ok ended).2]
  exact .refl touched _

theorem observing {act : LowerM α} (observes : Observes act) :
    Settles LoweringState.tree touched act := by
  intro s a s' ended
  rw [observes.eq_of_ok ended]
  exact .refl touched _

theorem tree : Settles LoweringState.tree touched LowerM.tree := observing .tree

theorem context : Settles LoweringState.tree touched LowerM.context := observing .context

theorem options : Settles LoweringState.tree touched LowerM.options := observing .options

theorem operations : Settles LoweringState.tree touched LowerM.operations := observing .operations

theorem except (r : Except TreeError α) : Settles LoweringState.tree touched (liftM r : LowerM α) :=
  observing (.except r)

theorem variant (r : Except UndefinedVariant α) :
    Settles LoweringState.tree touched (liftM r : LowerM α) :=
  observing (.variant r)

variable (control : String)

theorem controlPlainCall (name : String) (call func : NodeId) :
    Settles LoweringState.tree [] (LowerM.controlPlainCall control name call func) := by
  unfold LowerM.controlPlainCall
  refine bind (treeM (addExpr _)) fun wrapped => bind tree fun t => bind (except _) ?_
  rintro ⟨chain, base⟩
  refine bind operations fun known => bind (variant _) fun _ => bind (treeM (addExpr _)) fun id => ?_
  exact bind (treeM (setCallee _)) fun _ => treeM (modifyArgs _)

theorem controlControlledCall (name : String) (call : NodeId) :
    Settles LoweringState.tree [] (LowerM.controlControlledCall control name call) := by
  unfold LowerM.controlControlledCall
  refine bind (treeM expr) fun e => ?_
  split
  · refine bind (treeM (addExpr _)) fun id => bind (treeM (mergeControl _ _)) fun merged => ?_
    exact treeM (modifyArgs _)
  · exact throw _

theorem controlCall (call : NodeId) :
    Settles LoweringState.tree [] (LowerM.controlCall control call) := by
  unfold LowerM.controlCall
  refine bind tree fun t => bind (except _) fun func => bind tree fun t' => bind (except _) fun name? => ?_
  cases name? with
  | none => exact pure ()
  | some name =>
    refine bind operations fun known => ?_
    split
    · refine bind tree fun t'' => bind (except _) fun signature => ?_
      cases signature with
      | identity => exact controlPlainCall control name call func
      | controlled => exact controlControlledCall control name call
    · exact pure ()

theorem controlStatementWithin (depth : Nat) (site : NodeId) :
    Settles LoweringState.tree [] (LowerM.controlStatementWithin control depth site) := by
  have calls (expr : NodeId) : Settles LoweringState.tree [] (LowerM.controlCalls control expr) :=
    bind tree fun _ => bind (except _) fun _ => forM (controlCall control)
  induction depth generalizing site with
  | zero => exact throw _
  | succ depth ih =>
    unfold LowerM.controlStatementWithin
    refine bind (treeM stmt) fun s => ?_
    split
    · exact calls _
    · exact calls _
    · exact forM ih
    · exact bind (forM ih) fun _ => forM ih
    · exact pure ()

theorem controlBlock (block : List NodeId) :
    Settles LoweringState.tree [] (LowerM.controlBlock control block) :=
  bind tree fun _ => forM (controlStatementWithin control _)

theorem comparisonOperands (test : NodeId) :
    Settles LoweringState.tree [] (LowerM.comparisonOperands test) := by
  unfold LowerM.comparisonOperands
  refine bind (treeM expr) fun e => ?_
  split
  · refine bind (treeM expr) fun argument => ?_
    split
    · refine bind (treeM expr) fun left => ?_
      split <;> exact pure _
    · exact throw _
    · exact throw _
  · exact bind options fun o => throw _

theorem lowerConditional (site : NodeId) :
    Settles LoweringState.tree [site] (LowerM.lowerConditional site) := by
  unfold LowerM.lowerConditional
  refine bind (treeM stmt) fun s => ?_
  split
  · rename_i test body orelse
    split
    · refine bind ((comparisonOperands test).touch _) ?_
      rintro ⟨lines, value⟩
      refine bind options fun o => bind (contextM _) fun control => ?_
      refine bind ((controlBlock control body).touch _) fun _ => bind options fun o' => ?_
      refine bind ((treeM (addExpr _)).touch _) fun boilerplate => bind options fun o'' => ?_
      refine bind ((treeM (addExpr _)).touch _) fun scope => ?_
      refine bind ((treeM (addExpr _)).touch _) fun context => ?_
      refine bind ((treeM (addExpr _)).touch _) fun binding => ?_
      exact bind (treeM (setStmt _)) fun _ => contextM _
    · exact throw_bind _ _
  · exact throw _

theorem hoistMeasurement (site : NodeId) :
    Settles LoweringState.tree [] (LowerM.hoistMeasurement site) := by
  unfold LowerM.hoistMeasurement
  refine bind (treeM expr) fun call => bind (treeM (addExpr _)) fun moved => ?_
  refine bind (contextM _) fun placeholder => ?_
  cases placeholder with
  | none => exact throw _
  | some placeholder => exact treeM (setExpr _)

theorem replaceMeasurements (site : NodeId) :
    Settles LoweringState.tree [] (LowerM.replaceMeasurements site) := by
  unfold LowerM.replaceMeasurements
  refine bind context fun c => ?_
  split
  · exact pure ()
  · exact bind tree fun t => bind options fun o => bind (except _) fun sites => forM hoistMeasurement

theorem emitProxies (ordinal : Nat) (entries : List HoistEntry) :
    Settles LoweringState.tree [] (LowerM.emitProxies ordinal entries) := by
  induction entries generalizing ordinal with
  | nil => exact pure []
  | cons entry entries ih =>
    unfold LowerM.emitProxies
    refine bind options fun o => bind (contextM _) fun proxy => bind (treeM (addExpr _)) fun target => ?_
    exact bind (treeM (addStmt _)) fun assign => bind (ih (ordinal + 1)) fun _ => pure _

theorem emitExecution (proxies placeholders : List String) :
    Settles LoweringState.tree [] (LowerM.emitExecution proxies placeholders) := by
  have addNames (names : List String) : Settles id [] (TreeM.addNames names) := mapM fun _ => addExpr _
  unfold LowerM.emitExecution
  refine bind options fun o => bind (treeM (addExpr _)) fun boilerplate => bind options fun o' => ?_
  refine bind (treeM (addExpr _)) fun execute => bind (treeM (addNames _)) fun args => ?_
  refine bind (treeM (addExpr _)) fun call => bind (treeM (addNames _)) fun targets => ?_
  exact bind (treeM (addExpr _)) fun target => treeM (addStmt _)

theorem emitBatch (entries : List HoistEntry) (body : List NodeId) :
    Settles LoweringState.tree [] (LowerM.emitBatch entries body) := by
  unfold LowerM.emitBatch
  split
  · exact pure body
  · refine bind (emitProxies 1 entries) fun emitted => bind (emitExecution _ _) fun execution => ?_
    exact bind (contextM _) fun _ => pure _

theorem derive (f : GateFunctor) (d : Definition NodeId) :
    Settles LoweringState.tree [] (LowerM.derive f d) := by
  intro s derived s' ended
  have revises := (derive_tends f d s.tree s.context).1
  unfold LowerM.final at revises
  rw [ended] at revises
  exact revises.settled

end Lowering

end Settles

theorem checkBalanced_observes : Observes (liftM ContextM.checkBalanced : LowerM Unit) := by
  intro s
  unfold LowerM.final
  simp only [liftM, monadLift, MonadLift.monadLift]
  obtain balanced | ⟨e, failed⟩ := ContextM.checkBalanced_cases s.context
  · rw [balanced]
  · rw [failed]

theorem verifyNode_observes (t : SyntaxTree) (known : OperationTable) (seen : List NodeId) (id : NodeId) :
    Observes (Pass.verifyNode t known seen id) := by
  unfold Pass.verifyNode
  split
  · exact .throw_bind _ _
  · refine .bind (.except _) fun node => ?_
    split
    · split
      · exact .throw _
      · exact .pure _
    · exact .pure _

theorem verifyOutcome_observes : Observes Pass.verifyOutcome.run := by
  refine .bind checkBalanced_observes fun _ => .bind .tree fun t => .bind .operations fun known => ?_
  refine .bind (.foldlM (fun seen root => ?_) []) fun _ => .pure ()
  exact .bind (.except _) fun ids => .foldlM (verifyNode_observes t known) seen

end QuantumLowering
