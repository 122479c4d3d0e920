import Mathlib.Data.List.Flatten
import QuantumLowering.Proofs.Lowering.Blocks

namespace QuantumLowering

/-- The controls of a call with one more in front. A control is left out if it was the same as one
before it, whatever has become of the two since. -/
def mergedControls {α : Type} (new existing filled : ExprTree α) : List (ExprTree α) :=
  (firsts (fun x y => x.1.same y.1) ((new, new) :: existing.leaves.zip filled.leaves)).map Prod.snd

def controlCheck (known : OperationTable) : Expr ExprTerm → Plan Unit
  | .call func args _ =>
    match func.operation? known, func.signature, args with
    | none, _, _ => .ok ()
    | some name, .identity, _ =>
      (known.require name (.controlled :: func.chain)).mapError .undefinedVariant
    | some name, .controlled, [] => .error (.unsupported (.missingControl name))
    | some _, .controlled, _ :: _ => .ok ()
  | _ => .ok ()

def controlFinish (known : OperationTable) (control : String) :
    Expr ExprTerm → Expr ExprTerm → Expr ExprTerm
  | .call func args _, .call func' args' keywords' =>
    match func.operation? known, func.signature, args, args' with
    | some _, .identity, _, _ =>
      .call (.node () (.functor .controlled func')) (.node () (.name control) :: args') keywords'
    | some _, .controlled, existing :: _, existing' :: rest =>
      let controls := mergedControls (.node () (.name control)) existing existing'
      .call func' (.node () (.aggregate controls) :: rest) keywords'
    | _, _, _, _ => .call func' args' keywords'
  | _, filled => filled

def controlRule (known : OperationTable) (control : String) : CallRule where
  check := controlCheck known
  finish := controlFinish known control
  check_other layer other := by
    cases layer <;> simp_all [controlCheck, Expr.isCall]
  finish_other layer filled other := by
    cases layer <;> simp_all [controlFinish, Expr.isCall]

def controlStmt (known : OperationTable) (control : String) : StmtTerm → Plan StmtTerm :=
  (controlRule known control).rewriteStmt fun _ => false

def controlStmts (known : OperationTable) (control : String) (block : List StmtTerm) :
    Plan (List StmtTerm) :=
  block.mapM (controlStmt known control)

section Merge

variable {α : Type} {new existing filled : ExprTree α}

theorem erase_mergedControls : (mergedControls new existing filled).map ExprTree.erase =
    mergedControls new.erase existing.erase filled.erase := by
  have pairs := map_firsts (fun x y : ExprTerm × ExprTerm => x.1.same y.1)
    (Prod.map ExprTree.erase ExprTree.erase) ((new, new) :: existing.leaves.zip filled.leaves)
  simp only [Prod.map_fst, ExprTree.same_erase, List.map_cons, Prod.map_apply, ← List.zip_map,
    ← ExprTree.leaves_erase] at pairs
  rw [mergedControls, mergedControls, ← pairs, List.map_map, List.map_map]
  rfl

theorem mergedControls_sublist (same : filled.trunk = existing.trunk) :
    (mergedControls new existing filled).Sublist (new :: filled.leaves) := by
  have pairs := (firsts_sublist (fun x y : ExprTree α × ExprTree α => x.1.same y.1)
    ((new, new) :: existing.leaves.zip filled.leaves)).map Prod.snd
  have length : filled.leaves.length = existing.leaves.length := by
    simpa using congrArg List.length (ExprTree.leaves_eq_of_trunk same)
  rwa [List.map_cons, List.map_snd_zip (by omega)] at pairs

theorem label_mergedControls (same : filled.trunk = existing.trunk) :
    (mergedControls new existing filled).map ExprTree.label =
      (firsts ExprTree.same (new :: existing.leaves)).map ExprTree.label := by
  let pairs := (new, new) :: existing.leaves.zip filled.leaves
  let kept := firsts (fun x y => x.1.same y.1) pairs
  have leaves := ExprTree.leaves_eq_of_trunk same
  have labels : ∀ pair ∈ pairs, pair.2.label = pair.1.label := by
    intro pair member
    rcases List.mem_cons.1 member with rfl | member
    · rfl
    · obtain ⟨i, bound, rfl⟩ := List.mem_iff_getElem.1 member
      have trunks := congrArg (·[i]?) leaves
      simp only [List.length_zip] at bound
      simp only [List.getElem?_map, List.getElem?_eq_getElem (show i < filled.leaves.length by omega),
        List.getElem?_eq_getElem (show i < existing.leaves.length by omega), Option.map_some,
        Option.some.injEq] at trunks
      simpa using ExprTree.label_eq_of_trunk trunks
  have firstOnes : kept.map Prod.fst = firsts ExprTree.same (new :: existing.leaves) := by
    have length : filled.leaves.length = existing.leaves.length := by
      simpa using congrArg List.length leaves
    have mapped := map_firsts ExprTree.same Prod.fst pairs
    rwa [List.map_cons, List.map_fst_zip (by omega)] at mapped
  rw [← firstOnes, mergedControls, List.map_map, List.map_map]
  exact List.map_congr_left fun pair member =>
    labels pair ((firsts_sublist _ pairs).subset member)

end Merge

theorem ExprTree.leaves_cells (e : ExprTree NodeId) :
    (e.leaves.flatMap cells).Sublist e.cells := by
  induction e using induct with
  | step id layer ih =>
    cases layer with
    | list items | aggregate items =>
      simp only [leaves_list, leaves_aggregate, List.flatMap_assoc, cells_node, Expr.children]
      exact (List.Sublist.flatMap_right items ih).trans (List.sublist_cons_self ..)
    | _ =>
      rw [leaves_of_ne (by simp [layer]) (by simp [layer])]
      simp

section Calls

variable {t : SyntaxTree} {c : Context} {control name : String} {id : NodeId}
  {func : ExprTree NodeId} {args : List (ExprTree NodeId)}
  {keywords : List (Keyword (ExprTree NodeId))}

theorem controlPlainCall_runs
    (owned : Owns t (ExprTree.node id (.call func args keywords)).cells) :
    Runs (LowerM.controlPlainCall control name id func.label) t c
      ((c.operations.require name (.controlled :: func.chain)).mapError .undefinedVariant)
      fun _ _ t₁ c₁ => c₁ = c ∧
        Becomes t t₁
          [(id, .expr ((Expr.call func args keywords).map ExprTree.label))]
          [(id, .expr (.call t.size ((t.size + 1) :: args.map ExprTree.label)
              (keywords.map (Keyword.map ExprTree.label)))),
            (t.size, .expr (.functor .controlled func.label)),
            (t.size + 1, .expr (.name control))] := by
  have heldFunc : Holds t func.cells := owned.held.part (by simp [Expr.children])
  have ownedHead := owned.expr_head
  have wrapped := Becomes.push t (.expr (.functor .controlled func.label))
  have chain : (t.push (.expr (.functor .controlled func.label))).chain t.size =
      .ok (.controlled :: func.chain, func.base.label) := by
    have held := (wrapped.beside heldFunc).held
    exact Holds.chain_eq (e := .node t.size (.functor .controlled func))
      (by simpa [Expr.children, Expr.map, and_comm] using held)
  unfold LowerM.controlPlainCall
  rw [Runs.treeM_bind (TreeM.run_addFunctor ..)]
  simp only [Runs.tree_bind, chain, Runs.ok_bind, Runs.operations_bind]
  refine Runs.variant_bind ?_
  have named := wrapped.append_new (.push _ (.expr (.name control)))
  have head := named.beside ownedHead.held
  rw [Runs.treeM_bind (TreeM.run_addName _),
    Runs.treeM_bind (run_setCallee (head.held _ List.mem_cons_self) _)]
  have callee := head.put_head ownedHead
    (.expr (.call t.size (args.map ExprTree.label) (keywords.map (Keyword.map ExprTree.label))))
  refine .treeM (run_modifyArgs (callee.held _ List.mem_cons_self) _) ⟨rfl, ?_⟩
  have finished := callee.put_head ownedHead (.expr (.call t.size
    ((t.size + 1) :: args.map ExprTree.label) (keywords.map (Keyword.map ExprTree.label))))
  simpa using finished

theorem run_mergeControl {existing new : ExprTree NodeId} (held : Holds t existing.cells)
    (heldNew : Holds t new.cells) :
    TreeM.mergeControl existing.label new.label t = .ok t.size (t.push (.expr (.aggregate
      ((firsts ExprTree.same (new :: existing.leaves)).map ExprTree.label)))) := by
  have helds : ∀ e ∈ new :: existing.leaves, Holds t e.cells := by
    intro e member
    rcases List.mem_cons.1 member with rfl | member
    · exact heldNew
    · exact held.leaves e member
  have members : t.dedupe (new.label :: existing.leaves.map ExprTree.label) =
      .ok ((firsts ExprTree.same (new :: existing.leaves)).map ExprTree.label) :=
    Holds.dedupe_eq helds
  unfold TreeM.mergeControl
  rw [TreeM.run_bind TreeM.run_get, TreeM.run_bind (TreeM.run_lift held.controls_eq),
    TreeM.run_bind (TreeM.run_lift members)]
  exact TreeM.run_addExpr _

theorem controlControlledCall_runs {existing : ExprTree NodeId}
    (owned : Owns t (ExprTree.node id (.call func (existing :: args) keywords)).cells) :
    Runs (LowerM.controlControlledCall control name id) t c (.ok ()) fun _ _ t₁ c₁ =>
      c₁ = c ∧
        Becomes t t₁
          [(id, .expr ((Expr.call func (existing :: args) keywords).map ExprTree.label))]
          [(id, .expr (.call func.label ((t.size + 1) :: args.map ExprTree.label)
              (keywords.map (Keyword.map ExprTree.label)))),
            (t.size, .expr (.name control)),
            (t.size + 1, .expr (.aggregate ((firsts ExprTree.same
              (.node t.size (.name control) :: existing.leaves)).map ExprTree.label)))] := by
  have heldExisting : Holds t existing.cells := owned.held.part (by simp [Expr.children])
  have ownedHead := owned.expr_head
  have named := Becomes.push t (.expr (.name control))
  unfold LowerM.controlControlledCall
  rw [Runs.treeM_bind (TreeM.run_expr owned.held.expr_node)]
  simp only [Expr.map, List.map_cons]
  have heldNew : Holds (t.push (.expr (.name control)))
      (ExprTree.node t.size (.name control)).cells := by
    simpa [Expr.map, Expr.children] using named.held
  have merging := run_mergeControl (named.ext.holds heldExisting (by simp)) heldNew
  rw [ExprTree.label] at merging
  rw [Runs.treeM_bind (TreeM.run_addName _), Runs.treeM_bind merging]
  have merged := named.append_new (.push _ (.expr (.aggregate ((firsts ExprTree.same
    (.node t.size (.name control) :: existing.leaves)).map ExprTree.label))))
  have head := merged.beside ownedHead.held
  refine .treeM (run_modifyArgs (head.held _ List.mem_cons_self) _) ⟨rfl, ?_⟩
  simpa [Expr.map] using head.put_head ownedHead (.expr (.call func.label
    ((t.size + 1) :: args.map ExprTree.label) (keywords.map (Keyword.map ExprTree.label))))

end Calls

theorem controlRule_follows (control : String) (c : Context) :
    (controlRule c.operations control).Follows (LowerM.controlCall control) c := by
  intro t id layer call owned
  obtain ⟨func, args, keywords, rfl⟩ := Expr.eq_call call
  have heldFunc : Holds t func.cells := owned.held.part (by simp [Expr.children])
  unfold LowerM.controlCall
  simp only [Runs.tree_bind, owned.held.callee_eq, Runs.ok_bind, heldFunc.operationName_eq]
  refine Runs.known_call (fun unknown => ?_) fun name known => ?_
  · have check : (controlRule c.operations control).check
        ((Expr.call func args keywords).map ExprTree.erase) = .ok () := by
      simp [controlRule, controlCheck, Expr.map, unknown]
    rw [check]
    refine .pure ⟨rfl, CallRule.unchanged call owned.held fun filled => ?_⟩
    cases filled <;> simp [controlRule, controlFinish, Expr.map, unknown]
  rw [Runs.tree_bind, heldFunc.signature_eq, Runs.ok_bind]
  cases signature : func.signature with
  | identity =>
    have check : (controlRule c.operations control).check
        ((Expr.call func args keywords).map ExprTree.erase) =
        (c.operations.require name (.controlled :: func.chain)).mapError .undefinedVariant := by
      simp [controlRule, controlCheck, Expr.map, known, signature]
    rw [check]
    refine (controlPlainCall_runs owned).mono ?_
    rintro _ _ t₁ c₁ ⟨same, becomes⟩
    refine ⟨same, _, becomes, fun filled trunk => ?_⟩
    obtain ⟨func', args', keywords', rfl, trunkFunc, trunkArgs, labels⟩ :=
      ExprTree.exists_filled trunk
    refine ⟨.call (.node t.size (.functor .controlled func'))
      (.node (t.size + 1) (.name control) :: args') keywords', rfl, ?_, ?_⟩
    · simp [controlRule, controlFinish, Expr.map, known, signature]
    · simp only [ExprTree.cells_node, Expr.map, Expr.children, List.map_cons, ExprTree.label_node,
        List.flatMap_cons, List.flatMap_nil, List.append_nil, List.cons_append, List.nil_append,
        ExprTree.label_eq_of_trunk trunkFunc, ExprTree.map_label_of_trunk trunkArgs, labels]
      exact ((List.perm_middle.cons _).cons _).subperm
  | controlled =>
    cases args with
    | nil =>
      have check : (controlRule c.operations control).check
          ((Expr.call func [] keywords).map ExprTree.erase) =
          .error (.unsupported (.missingControl name)) := by
        simp [controlRule, controlCheck, Expr.map, known, signature]
      rw [check, LowerM.controlControlledCall, Runs.treeM_bind (TreeM.run_expr owned.held.expr_node)]
      exact .throw (.unsupported (.missingControl name))
    | cons existing args =>
      have check : (controlRule c.operations control).check
          ((Expr.call func (existing :: args) keywords).map ExprTree.erase) = .ok () := by
        simp [controlRule, controlCheck, Expr.map, known, signature]
      rw [check]
      refine (controlControlledCall_runs owned).mono ?_
      rintro _ _ t₁ c₁ ⟨same, becomes⟩
      refine ⟨same, _, becomes, fun filled trunk => ?_⟩
      obtain ⟨func', args', keywords', rfl, trunkFunc, trunkArgs, labels⟩ :=
        ExprTree.exists_filled trunk
      obtain ⟨existing', args', rfl, trunkExisting, trunkArgs⟩ := List.map_eq_cons_iff.1 trunkArgs
      have kept : ((mergedControls (.node t.size (.name control)) existing existing').flatMap
          ExprTree.cells).Subperm ((t.size, .expr (.name control)) :: existing'.cells) := by
        have sublist : (mergedControls (.node t.size (.name control)) existing existing').Sublist _ :=
          mergedControls_sublist trunkExisting
        refine (sublist.flatMap ExprTree.cells).subperm.trans ?_
        simp only [List.flatMap_cons, ExprTree.cells_node, Expr.map, Expr.children, List.flatMap_nil,
          List.cons_append, List.nil_append, List.subperm_cons]
        exact existing'.leaves_cells.subperm
      refine ⟨.call func' (.node (t.size + 1) (.aggregate (mergedControls
        (.node t.size (.name control)) existing existing')) :: args') keywords', rfl, ?_, ?_⟩
      · simp [controlRule, controlFinish, Expr.map, known, signature, erase_mergedControls]
      · simp only [ExprTree.cells_node, Expr.map, Expr.children, List.map_cons, ExprTree.label_node,
          List.flatMap_cons, List.cons_append, List.nil_append, label_mergedControls trunkExisting,
          ExprTree.label_eq_of_trunk trunkFunc, ExprTree.map_label_of_trunk trunkArgs, labels]
        refine List.subperm_ext_iff.2 fun cell _ => ?_
        have := kept.count_le cell
        simp only [List.count_cons, List.count_append] at this ⊢
        omega

theorem controlBlock_runs {t : SyntaxTree} {c : Context} (control : String)
    (block : List (StmtTree NodeId)) (owned : Owns t (block.flatMap StmtTree.cells)) :
    Runs (LowerM.controlBlock control (block.map StmtTree.label)) t c
      (controlStmts c.operations control (block.map StmtTree.erase)) fun rs _ t₁ c₁ =>
        c₁ = c ∧ ∃ block' : List (StmtTree NodeId), block'.map StmtTree.erase = rs ∧
          block'.map StmtTree.label = block.map StmtTree.label ∧
          Becomes t t₁ (block.flatMap StmtTree.cells) (block'.flatMap StmtTree.cells) := by
  unfold LowerM.controlBlock
  simp only [Runs.tree_bind, LowerM.controlStatementWithin_eq]
  exact changeBlock_runs (controlRule_follows control c) (fun _ _ _ => rfl) block owned

end QuantumLowering
