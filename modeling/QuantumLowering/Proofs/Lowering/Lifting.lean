import QuantumLowering.Proofs.Lowering.Effects
import QuantumLowering.Proofs.Lowering.Involution

namespace QuantumLowering

namespace ExprTree

/-- The arguments with the control beside those that the first argument lists. A control that has the
structure of one before it is left out. -/
def joinControl (control : String) : List ExprTerm → List ExprTerm
  | [] => []
  | existing :: rest =>
    .node () (.aggregate (firsts same (nameTerm control :: existing.leaves))) :: rest

/-- Gives the control to a call of a known operation: as a new first argument if it is not controlled
yet, and otherwise beside the controls that it has. -/
def liftCall (known : OperationTable) (control : String) : Expr ExprTerm → Expr ExprTerm
  | .call func args keywords =>
    if (func.operation? known).isSome then
      if .controlled ∈ func.chain then .call func (joinControl control args) keywords
      else .call (.node () (.functor .controlled func)) (nameTerm control :: args) keywords
    else .call func args keywords
  | layer => layer

def lifted (known : OperationTable) (control : String) : ExprTerm → ExprTerm :=
  mapCalls (liftCall known control)

end ExprTree

section Expressions

variable {known : OperationTable} {control : String}

theorem mergedControls_self {α : Type} (new existing : ExprTree α) :
    mergedControls new existing existing = firsts ExprTree.same (new :: existing.leaves) := by
  have pairs : (new, new) :: existing.leaves.zip existing.leaves =
      (new :: existing.leaves).map fun e => (e, e) := by
    rw [List.map_cons, List.zip_eq_zipWith, List.zipWith_self]
  have mapped := map_firsts (fun x y : ExprTree α × ExprTree α => x.1.same y.1) (fun e => (e, e))
    (new :: existing.leaves)
  rw [mergedControls, pairs, ← mapped, List.map_map]
  exact List.map_id _

theorem liftCall_other {layer : Expr ExprTerm}
    (other : ExprTree.isOperationCall known layer = false) :
    ExprTree.liftCall known control layer = layer := by
  cases layer with
  | call func args keywords =>
    have unknown : ¬ (func.operation? known).isSome := by
      simpa [ExprTree.isOperationCall] using other
    rw [ExprTree.liftCall, if_neg unknown]
  | _ => rfl

theorem liftCall_call {func : ExprTerm} {args : List ExprTerm} {keywords : List (Keyword ExprTerm)}
    (operation : ExprTree.isOperationCall known (.call func args keywords)) :
    ExprTree.liftCall known control (.call func args keywords) =
      .call (.wrap (GateFunctor.controlChain func.chain) func.base)
        (controlArgs control func.signature args) keywords := by
  have named : (func.operation? known).isSome := operation
  rw [ExprTree.liftCall, if_pos named]
  by_cases controlled : .controlled ∈ func.chain
  · have signature : func.signature = .controlled := if_pos controlled
    rw [if_pos controlled, controlChain_of_controlled signature, signature, ExprTree.wrap_chain_base]
    cases args with
    | nil => rfl
    | cons existing rest => rw [controlArgs, mergedControls_self, ExprTree.joinControl]
  · have signature : func.signature = .identity := if_neg controlled
    rw [if_neg controlled, controlChain_of_identity signature, signature, ExprTree.wrap,
      List.foldr_cons, ← ExprTree.wrap, ExprTree.wrap_chain_base]
    rfl

theorem isCall_liftCall {layer : Expr ExprTerm} (call : layer.isCall) :
    (ExprTree.liftCall known control layer).isCall := by
  cases operation : ExprTree.isOperationCall known layer with
  | false => rwa [liftCall_other operation]
  | true =>
    obtain ⟨func, args, keywords, rfl⟩ := Expr.eq_call call
    rw [liftCall_call operation]
    rfl

theorem liftCall_notCall {layer : Expr ExprTerm} (other : layer.isCall = false) :
    ExprTree.liftCall known control layer = layer := by
  cases layer with
  | call func args keywords => cases other
  | _ => rfl

theorem isOperationCall_lifted (layer : Expr ExprTerm) :
    ExprTree.isOperationCall known (layer.map (ExprTree.lifted known control)) =
      ExprTree.isOperationCall known layer := by
  cases layer with
  | call func args keywords =>
    have same : (func.lifted known control).operation? known = func.operation? known :=
      ExprTree.operation?_mapCalls (fun _ => liftCall_notCall) (fun _ => isCall_liftCall) func
    show ((func.lifted known control).operation? known).isSome = (func.operation? known).isSome
    rw [same]
  | _ => rfl

theorem lifted_other {layer : Expr ExprTerm} (other : ExprTree.isOperationCall known layer = false) :
    ExprTree.lifted known control (.node () layer) =
      .node () (layer.map (ExprTree.lifted known control)) := by
  have kept : ExprTree.isOperationCall known (layer.map (ExprTree.lifted known control)) = false :=
    (isOperationCall_lifted layer).trans other
  rw [ExprTree.lifted, ExprTree.mapCalls_node]
  exact congrArg _ (liftCall_other kept)

theorem lifted_eq_self {e : ExprTerm} (without : e.operationCalls known = []) :
    e.lifted known control = e := by
  induction e using ExprTree.induct with
  | step label layer ih =>
    rw [ExprTree.operationCalls_node, List.append_eq_nil_iff, List.flatMap_eq_nil_iff] at without
    have other : ExprTree.isOperationCall known layer = false := by simpa using without.1
    rw [lifted_other other]
    exact congrArg _ ((Expr.map_congr fun part inside => ih part inside (without.2 part inside)).trans
      (Expr.map_id layer))

theorem lifted_call {func : ExprTerm} {args : List ExprTerm} {keywords : List (Keyword ExprTerm)}
    (operation : ExprTree.isOperationCall known (.call func args keywords))
    (plain : ∀ arg ∈ args ++ keywords.map Keyword.value, arg.operationCalls known = []) :
    ExprTree.lifted known control (.node () (.call func args keywords)) =
      .node () (.call (.wrap (GateFunctor.controlChain func.chain) (func.base.lifted known control))
        (controlArgs control func.signature args) keywords) := by
  have others : ∀ layer, layer.isCall = false → ExprTree.liftCall known control layer = layer :=
    fun _ => liftCall_notCall
  have calls : ∀ layer, layer.isCall → (ExprTree.liftCall known control layer).isCall :=
    fun _ => isCall_liftCall
  have chain : (func.lifted known control).chain = func.chain :=
    ExprTree.chain_mapCalls others calls func
  have base : (func.lifted known control).base = func.base.lifted known control :=
    ExprTree.base_mapCalls others calls func
  have filled : (Expr.call func args keywords).map (ExprTree.lifted known control) =
      .call (func.lifted known control) args keywords := by
    have sameArgs : args.map (ExprTree.lifted known control) = args :=
      (List.map_congr_left fun arg inside =>
        lifted_eq_self (plain arg (List.mem_append_left _ inside))).trans args.map_id
    have sameKeywords : keywords.map (Keyword.map (ExprTree.lifted known control)) = keywords := by
      refine (List.map_congr_left fun k inside => ?_).trans keywords.map_id
      have same := plain k.value (List.mem_append_right _ (List.mem_map_of_mem inside))
      rw [Keyword.map, lifted_eq_self same]
      rfl
    rw [Expr.map, sameArgs, sameKeywords]
  have operation' : ExprTree.isOperationCall known
      (.call (func.lifted known control) args keywords) := by
    rw [← filled, isOperationCall_lifted, operation]
  rw [ExprTree.lifted, ExprTree.mapCalls_node, ← ExprTree.lifted, filled, liftCall_call operation',
    ExprTree.signature, chain, base, ← ExprTree.signature]

theorem control_lifted {e r : ExprTerm} (unnested : e.Unnested known)
    (ended : (controlRule known control).rewrite e = .ok r) : r = e.lifted known control := by
  -- a call goes on with the base of its callee, which is not among its parts
  have both : (∀ r, (controlRule known control).rewrite e = .ok r → r = e.lifted known control) ∧
      ∀ r, (controlRule known control).rewrite e.base = .ok r → r = e.base.lifted known control := by
    clear ended
    induction e using ExprTree.induct with
    | step label layer ih =>
      obtain ⟨here, parts⟩ := ExprTree.forall_operationCalls_node.1 unnested
      have whole : ∀ r, (controlRule known control).rewrite (.node () layer) = .ok r →
          r = ExprTree.lifted known control (.node () layer) := by
        intro r ended
        cases operation : ExprTree.isOperationCall known layer with
        | false =>
          obtain ⟨rs, rewritten, rfl⟩ := CallRule.rewrite_eq_ok ended
          have same : rs.map id = layer.children.map (ExprTree.lifted known control) :=
            map_eq_of_forall₂ rewritten fun part inside r ended =>
              (ih part inside (parts part inside)).1 r ended
          rw [List.map_id] at same
          rw [lifted_other operation, Expr.map_eq_refill, same]
          exact congrArg _ (controlFinish_other _ operation)
        | true =>
          cases layer with
          | call func args keywords =>
            have inside : func ∈ (Expr.call func args keywords).children := List.mem_cons_self
            have plain := here operation
            obtain ⟨func', ran, rfl⟩ := control_call operation plain ended
            rw [lifted_call operation plain, (ih func inside (parts func inside)).2 _ ran]
          | _ => cases operation
      refine ⟨whole, ?_⟩
      cases layer with
      | functor f target =>
        have inside : target ∈ (Expr.functor f target).children := List.mem_cons_self
        exact (ih target inside (parts target inside)).2
      | _ => exact whole
  exact both.1 r ended

section Gates

variable {gate x : String}

theorem unnested_gate : ExprTree.Unnested known (.node () (.call (nameTerm gate) [nameTerm x] [])) := by
  have named := ExprTree.operationCalls_nameTerm known
  refine ExprTree.forall_operationCalls_node.2 ⟨fun _ => ?_, ?_⟩
  · simp [ExprTree.arguments, named]
  · simp [Expr.children, named]

theorem lifted_gate
    (operation : ExprTree.isOperationCall known (.call (nameTerm gate) [nameTerm x] [])) :
    ExprTree.lifted known control (.node () (.call (nameTerm gate) [nameTerm x] [])) =
      .node () (.call (.node () (.functor .controlled (nameTerm gate)))
        [nameTerm control, nameTerm x] []) := by
  have named := ExprTree.operationCalls_nameTerm known
  rw [lifted_call operation (by simp [named]),
    lifted_eq_self ((ExprTree.operationCalls_base _).trans (named gate))]
  rfl

end Gates

end Expressions

section Blocks

variable {rule : CallRule} {f : ExprTerm → ExprTerm}

theorem CallRule.rewriteStmt_mapValues {s r : StmtTerm}
    (each : ∀ value ∈ s.values, ∀ value', rule.rewrite value = .ok value' → value' = f value)
    (ended : rule.rewriteStmt (fun _ => false) s = .ok r) : r = s.mapValues f := by
  induction s using StmtTree.induct generalizing r with
  | step s ih =>
    have block : ∀ body rs : List StmtTerm, (∀ part ∈ body, part ∈ s.inner) →
        (∀ value ∈ body.flatMap StmtTree.values, ∀ value', rule.rewrite value = .ok value' →
          value' = f value) →
        body.mapM (rule.rewriteStmt fun _ => false) = .ok rs → rs = body.map (.mapValues f) := by
      intro body rs inside each ended
      have same := map_eq_of_forall₂ (f := id) (g := StmtTree.mapValues f) (Plan.mapM_eq_ok ended)
        fun part member r ended => ih part (inside part member)
          (fun value listed => each value (List.mem_flatMap.2 ⟨part, member, listed⟩)) ended
      rwa [List.map_id] at same
    cases CallRule.rewritten ended with
    | kept closed => exact (StmtTree.mapValues_sealed closed).symm
    | @expr value value' ran => rw [StmtTree.mapValues, each value (by simp) value' ran]
    | @assign target value value' ran => rw [StmtTree.mapValues, each value (by simp) value' ran]
    | @scope context binding body rs ran =>
      rw [StmtTree.values_scoped] at each
      rw [StmtTree.mapValues_scoped, block body rs (fun _ member => member) each ran]
      rfl
    | @conditional test body orelse rs rs' ran ran' =>
      rw [StmtTree.values_conditional] at each
      rw [StmtTree.mapValues_conditional,
        block body rs (by simp +contextual [StmtTree.inner])
          (fun value member => each value (List.mem_append_left _ member)) ran,
        block orelse rs' (by simp +contextual [StmtTree.inner])
          (fun value member => each value (List.mem_append_right _ member)) ran']

end Blocks

/-- The ids lead to the statements of the block, and no node stands in two places: the block is a tree,
as the body of a valid module and every copied block are. -/
def SyntaxTree.ReadsTree (t : SyntaxTree) (ids : List NodeId) (block : List StmtTerm) : Prop :=
  ∃ stmts : List (StmtTree NodeId), stmts.map StmtTree.label = ids ∧
    stmts.map StmtTree.erase = block ∧ Owns t (stmts.flatMap StmtTree.cells)

/-- A block that has been given a control is the block it was, with the control given to every call of
a known operation in its values. -/
theorem controlBlock_lifts {t : SyntaxTree} {c : Context} {control : String} {block : List NodeId}
    {body : List StmtTerm} {s : LoweringState} (read : t.ReadsTree block body)
    (unnested : ∀ value ∈ body.flatMap StmtTree.values, value.Unnested c.operations)
    (ran : LowerM.controlBlock control block ⟨t, c⟩ = .ok () s) :
    s.tree.ReadsTree block
        (body.map (StmtTree.mapValues (ExprTree.lifted c.operations control))) ∧
      s.context = c := by
  obtain ⟨stmts, rfl, rfl, owned⟩ := read
  obtain ⟨rs, ended, same, stmts', erased, labels, becomes⟩ :=
    (controlBlock_runs (c := c) control stmts owned).exists_of_ok ran
  have lifted : rs = (stmts.map StmtTree.erase).map
      (StmtTree.mapValues (ExprTree.lifted c.operations control)) := by
    have each := map_eq_of_forall₂ (f := id)
      (g := StmtTree.mapValues (ExprTree.lifted c.operations control)) (Plan.mapM_eq_ok ended)
      fun part member r ended => CallRule.rewriteStmt_mapValues
        (fun value listed value' ran =>
          control_lifted (unnested value (List.mem_flatMap.2 ⟨part, member, listed⟩)) ran) ended
    rwa [List.map_id] at each
  exact ⟨⟨stmts', labels, erased.trans lifted, becomes.owns owned⟩, same⟩

/-- A plain call, and in a scope one that lists the control already. -/
theorem controlBlock_lifts_listed :
    let t : SyntaxTree := ⟨#[.expr (.name "X"), .expr (.name "q"), .expr (.call 0 [1] []),
      .stmt (.expr 2), .expr (.name "r"), .expr (.name "y"), .expr (.name "X"),
      .expr (.functor .controlled 6), .expr (.name "a"), .expr (.name "k"), .expr (.list [8, 9]),
      .expr (.name "q"), .expr (.call 7 [10, 11] []), .stmt (.assign 5 12),
      .stmt (.scoped 4 none [13])], []⟩
    let x : ExprTerm := .node () (.functor .controlled (nameTerm "X"))
    ∃ s, LowerM.controlBlock "k" [3, 14] ⟨t, .new .default⟩ = .ok () s ∧
      s.tree.ReadsTree [3, 14]
        [.expr () (.node () (.call x [nameTerm "k", nameTerm "q"] [])),
          .scoped () (nameTerm "r") none [.assign () (nameTerm "y") (.node () (.call x
            [.node () (.aggregate [nameTerm "k", nameTerm "a"]), nameTerm "q"] []))]] := by
  intro t x
  let body : List StmtTerm := [.expr () (.node () (.call (nameTerm "X") [nameTerm "q"] [])),
    .scoped () (nameTerm "r") none [.assign () (nameTerm "y") (.node () (.call x
      [.node () (.list [nameTerm "a", nameTerm "k"]), nameTerm "q"] []))]]
  have read : t.ReadsTree [3, 14] body := by
    refine ⟨[.expr 3 (.node 2 (.call (.node 0 (.name "X")) [.node 1 (.name "q")] [])),
      .scoped 14 (.node 4 (.name "r")) none [.assign 13 (.node 5 (.name "y")) (.node 12 (.call
        (.node 7 (.functor .controlled (.node 6 (.name "X")))) [.node 10 (.list
          [.node 8 (.name "a"), .node 9 (.name "k")]), .node 11 (.name "q")] []))]], rfl, ?_, ?_, ?_⟩
    · simp [body, x, nameTerm, Expr.map]
    · simp [t, Expr.map, Expr.children, Holds, StmtTree.label]
    · simp [Expr.map, Expr.children]
  have named := ExprTree.operationCalls_nameTerm .preamble
  have callee : x.operationCalls .preamble = [] := by
    rw [ExprTree.operationCalls_node]
    simp [Expr.children, named, ExprTree.isOperationCall]
  have listed : ExprTree.operationCalls .preamble
      (.node () (.list [nameTerm "a", nameTerm "k"])) = [] := by
    rw [ExprTree.operationCalls_node]
    simp [Expr.children, named, ExprTree.isOperationCall]
  have unnested : ∀ value ∈ body.flatMap StmtTree.values, value.Unnested .preamble := by
    simp only [body, List.flatMap_cons, List.flatMap_nil, StmtTree.values_expr,
      StmtTree.values_scoped, StmtTree.values_assign, List.append_nil, List.cons_append,
      List.nil_append, List.mem_cons, List.not_mem_nil, or_false]
    rintro value (rfl | rfl)
    · exact unnested_gate
    · refine ExprTree.forall_operationCalls_node.2 ⟨fun _ => ?_, ?_⟩
      · simp [ExprTree.arguments, named, listed]
      · simp [Expr.children, named, callee, listed]
  have succeeds : LowerM.succeeds (LowerM.controlBlock "k" [3, 14]) ⟨t, .new .default⟩ := by
    decide +kernel
  obtain ⟨⟨⟩, s, ran⟩ := LowerM.exists_of_succeeds succeeds
  refine ⟨s, ran, ?_⟩
  have plain : ExprTree.lifted .preamble "k" (.node () (.call (nameTerm "X") [nameTerm "q"] [])) =
      .node () (.call x [nameTerm "k", nameTerm "q"] []) :=
    lifted_gate (by decide +kernel)
  have joined : ExprTree.lifted .preamble "k" (.node () (.call x
      [.node () (.list [nameTerm "a", nameTerm "k"]), nameTerm "q"] [])) = .node () (.call x
        [.node () (.aggregate [nameTerm "k", nameTerm "a"]), nameTerm "q"] []) := by
    rw [lifted_call (by decide +kernel) (by simp [named, listed]),
      lifted_eq_self ((ExprTree.operationCalls_base _).trans callee)]
    have leaves : ExprTree.leaves (.node () (.list [nameTerm "a", nameTerm "k"])) =
        [nameTerm "a", nameTerm "k"] := by
      simp [ExprTree.leaves_list, ExprTree.leaves_nameTerm]
    have apart : (nameTerm "k").same (nameTerm "a") = false := by decide +kernel
    have again : (nameTerm "k").same (nameTerm "k") = true := by decide +kernel
    have signature : x.signature = .controlled := rfl
    rw [signature, controlArgs, mergedControls_self, leaves]
    simp [firsts, apart, again]
    rfl
  have lifts := (controlBlock_lifts read unnested ran).1
  have known : (Context.new .default).operations = .preamble := rfl
  rw [known] at lifts
  simpa only [body, List.map_cons, List.map_nil, StmtTree.mapValues_scoped, StmtTree.mapValues,
    plain, joined] using lifts

/-- One call in two places is lifted twice, and the second time it has the control already. -/
theorem controlBlock_not_lifted :
    let call : StmtTerm := .expr () (.node () (.call (nameTerm "X") [nameTerm "q"] []))
    let t : SyntaxTree := ⟨#[.expr (.name "X"), .expr (.name "q"), .expr (.call 0 [1] []),
      .stmt (.expr 2)], []⟩
    t.Reads [3, 3] [call, call] ∧
      (∀ value ∈ [call, call].flatMap StmtTree.values, value.Unnested .preamble) ∧
      ∃ s, LowerM.controlBlock "k" [3, 3] ⟨t, .new .default⟩ = .ok () s ∧
        ¬ s.tree.Reads [3, 3]
          ([call, call].map (StmtTree.mapValues (ExprTree.lifted .preamble "k"))) := by
  intro call t
  have read : t.Reads [3, 3] [call, call] := by
    let placed : StmtTree NodeId :=
      .expr 3 (.node 2 (.call (.node 0 (.name "X")) [.node 1 (.name "q")] []))
    refine ⟨[placed, placed], rfl, ?_, ?_⟩
    · simp [placed, call, nameTerm, Expr.map]
    · simp [placed, t, Expr.map, Expr.children, Holds]
  have unnested : ∀ value ∈ [call, call].flatMap StmtTree.values, value.Unnested .preamble := by
    simp only [call, List.flatMap_cons, List.flatMap_nil, StmtTree.values_expr, List.append_nil,
      List.cons_append, List.nil_append, List.mem_cons, List.not_mem_nil, or_false, or_self]
    rintro value rfl
    exact unnested_gate
  have succeeds : (LowerM.controlBlock "k" [3, 3]).succeeds ⟨t, .new .default⟩ := by
    decide +kernel
  obtain ⟨⟨⟩, s, ran⟩ := LowerM.exists_of_succeeds succeeds
  have rewritten : ((LowerM.controlBlock "k" [3, 3]).final ⟨t, .new .default⟩).tree.nodes =
      #[.expr (.name "X"), .expr (.name "q"), .expr (.call 4 [7, 1] []), .stmt (.expr 2),
        .expr (.functor .controlled 0), .expr (.name "k"), .expr (.name "k"),
        .expr (.aggregate [6])] := by
    decide +kernel
  unfold LowerM.final at rewritten
  rw [ran] at rewritten
  let x : ExprTerm := .node () (.functor .controlled (nameTerm "X"))
  let twice : StmtTerm :=
    .expr () (.node () (.call x [.node () (.aggregate [nameTerm "k"]), nameTerm "q"] []))
  have found : s.tree.Reads [3, 3] [twice, twice] := by
    let placed : StmtTree NodeId := .expr 3 (.node 2 (.call (.node 4 (.functor .controlled
      (.node 0 (.name "X")))) [.node 7 (.aggregate [.node 6 (.name "k")]), .node 1 (.name "q")] []))
    refine ⟨[placed, placed], rfl, ?_, ?_⟩
    · simp [placed, twice, x, nameTerm, Expr.map]
    · simp [placed, rewritten, Expr.map, Expr.children, Holds]
  have once : call.mapValues (ExprTree.lifted .preamble "k") =
      .expr () (.node () (.call x [nameTerm "k", nameTerm "q"] [])) := by
    rw [StmtTree.mapValues, lifted_gate (by decide +kernel)]
  refine ⟨read, unnested, s, ran, fun lifted => ?_⟩
  rw [List.map_cons, once] at lifted
  have same := lifted.unique found
  simp [twice, nameTerm] at same

end QuantumLowering
