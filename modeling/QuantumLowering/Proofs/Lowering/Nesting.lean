import QuantumLowering.Proofs.Circuit.Execution
import QuantumLowering.Proofs.Lowering.Recovery

namespace QuantumLowering

section Controls

variable {known : OperationTable} {control : String}

theorem mapM_eq_self {β : Type} {f : β → Plan β} {xs : List β} (each : ∀ x ∈ xs, f x = .ok x) :
    xs.mapM f = .ok xs := by
  induction xs with
  | nil => rfl
  | cons x xs ih =>
    rw [List.mapM_cons, each x (by simp), ih fun x inside => each x (by simp [inside])]
    rfl

theorem CallRule.rewrite_parts {rule : CallRule} {layer : Expr ExprTerm}
    (check : rule.check layer = .ok ()) (parts : ∀ part ∈ layer.children, rule.rewrite part = .ok part) :
    rule.rewrite (.node () layer) = .ok (.node () (rule.finish layer layer)) := by
  rw [rule.rewrite_node, check, mapM_eq_self parts]
  show Except.ok (ExprTree.node () (rule.finish layer (layer.refill layer.children))) = _
  rw [Expr.refill_children]

theorem CallRule.rewrite_other {rule : CallRule} {layer : Expr ExprTerm}
    (other : layer.isCall = false) (parts : ∀ part ∈ layer.children, rule.rewrite part = .ok part) :
    rule.rewrite (.node () layer) = .ok (.node () layer) := by
  rw [rewrite_parts (rule.check_other layer other) parts, rule.finish_other layer layer other]

theorem CallRule.rewrite_nameTerm (rule : CallRule) (name : String) :
    rule.rewrite (nameTerm name) = .ok (nameTerm name) :=
  rewrite_other rfl (by simp [Expr.children])

theorem CallRule.rewrite_controlArgument (rule : CallRule) (names : List String) :
    rule.rewrite (controlArgument names) = .ok (controlArgument names) := by
  have aggregate : rule.rewrite (.node () (.aggregate (names.map nameTerm))) =
      .ok (.node () (.aggregate (names.map nameTerm))) := by
    refine rewrite_other rfl fun part member => ?_
    obtain ⟨name, -, rfl⟩ := List.mem_map.1 member
    exact rule.rewrite_nameTerm name
  match names with
  | [name] => exact rule.rewrite_nameTerm name
  | [] | _ :: _ :: _ => exact aggregate

theorem firsts_of_pairwise {β : Type} {same : β → β → Bool} {xs : List β}
    (apart : xs.Pairwise fun x y => same x y = false) : firsts same xs = xs := by
  have general : ∀ (rest kept : List β), (kept ++ rest).Pairwise (fun x y => same x y = false) →
      rest.foldl (fun kept x => if kept.any (same · x) then kept else kept ++ [x]) kept =
        kept ++ rest := by
    intro rest
    induction rest with
    | nil => simp
    | cons x rest ih =>
      intro kept apart
      have new : kept.any (same · x) = false := by
        rw [List.any_eq_false]
        intro y member
        simp [(List.pairwise_append.1 apart).2.2 y member x (by simp)]
      rw [List.append_cons] at apart
      rw [List.foldl_cons, new, if_neg (by simp), ih _ apart, List.append_assoc]
      rfl
  exact general xs [] apart

theorem mergedControls_names {names : List String} (new : control ∉ names) (once : names.Nodup) :
    mergedControls (nameTerm control) (controlArgument names) (controlArgument names) =
      (control :: names).map nameTerm := by
  have pairs : (nameTerm control, nameTerm control) ::
      (names.map nameTerm).zip (names.map nameTerm) =
        (control :: names).map fun name => (nameTerm name, nameTerm name) := by
    simp [List.zip_map']
  have apart : ((control :: names).map fun name => (nameTerm name, nameTerm name)).Pairwise
      fun x y => x.1.same y.1 = false := by
    rw [List.pairwise_map]
    refine (List.nodup_cons.2 ⟨new, once⟩).imp fun {x y} other => ?_
    simp [nameTerm, Expr.sameHead, other]
  rw [mergedControls, leaves_controlArgument, pairs, firsts_of_pairwise apart, List.map_map]
  rfl

theorem rewrite_gateCall {gate target : String} {names : List String}
    (present : known.contains gate) (supported : known.supports gate .controlled)
    (new : control ∉ names) (once : names.Nodup) :
    (controlRule known control).rewrite (gateCall gate target names) =
      .ok (gateCall gate target (control :: names)) := by
  have operation : (nameTerm gate).operation? known = some gate := by
    simp [ExprTree.operation?, ExprTree.operationName, nameTerm, ExprTree.base, present]
  cases names with
  | nil =>
    have signature : (nameTerm gate).signature = .identity := rfl
    have required : known.require gate (.controlled :: (nameTerm gate).chain) = .ok () := by
      simp [OperationTable.require, supported, nameTerm, ExprTree.chain]
    have check : (controlRule known control).check
        (.call (nameTerm gate) [nameTerm target] []) = .ok () := by
      simp only [controlRule, controlCheck, operation, signature, required]
      rfl
    unfold gateCall
    rw [CallRule.rewrite_parts check]
    · simp only [controlRule, controlFinish, operation, signature]
      rfl
    · simp [Expr.children, CallRule.rewrite_nameTerm]
  | cons first names =>
    let func : ExprTerm := .node () (.functor .controlled (nameTerm gate))
    have operation' : func.operation? known = some gate := operation
    have signature : func.signature = .controlled := rfl
    have check : (controlRule known control).check
        (.call func [controlArgument (first :: names), nameTerm target] []) = .ok () := by
      simp only [controlRule, controlCheck, operation', signature]
    have callee : (controlRule known control).rewrite func = .ok func :=
      CallRule.rewrite_other rfl (by simp [Expr.children, CallRule.rewrite_nameTerm])
    show (controlRule known control).rewrite
      (.node () (.call func [controlArgument (first :: names), nameTerm target] [])) = _
    rw [CallRule.rewrite_parts check]
    · simp only [controlRule, controlFinish, operation', signature]
      have merged := mergedControls_names new once
      unfold nameTerm at merged
      rw [merged]
      rfl
    · simp [Expr.children, callee, CallRule.rewrite_nameTerm, CallRule.rewrite_controlArgument]

end Controls

namespace PlanM

variable {α β : Type} {p p' : Progress} {a : α}

theorem run_bind {plan : PlanM α} {f : α → PlanM β} (ran : plan p = .ok (a, p')) :
    (plan >>= f) p = f a p' := by
  show (plan p >>= fun r => f r.1 r.2) = _
  rw [ran]
  rfl

theorem run_lift {plan : Plan α} (ended : plan = .ok a) :
    (liftM plan : PlanM α) p = .ok (a, p) := by
  rw [ended]
  rfl

theorem run_map {plan : PlanM α} {f : α → β} (ran : plan p = .ok (a, p')) :
    (f <$> plan) p = .ok (f a, p') := by
  rw [map_eq_pure_bind, run_bind ran]
  rfl

theorem run_mapM_singleton {f : β → PlanM α} {b : β} (ran : f b p = .ok (a, p')) :
    [b].mapM f p = .ok ([a], p') := by
  rw [List.mapM_cons, run_bind ran]
  rfl

end PlanM

def Level.test (o : Options) (level : Level) : ExprTerm :=
  .node () (.call (nameTerm o.conditionFn)
    [.node () (.compare level.lines .equal level.value)] [])

/-- Quantum conditionals inside each other, the first being the outermost. -/
def conditionalNest (o : Options) : List Level → StmtTerm → StmtTerm
  | [], inner => inner
  | level :: levels, inner => .conditional () (level.test o) [conditionalNest o levels inner] []

section Lowering

variable {o : Options} {known : OperationTable} {control gate target : String} {p : Progress}

theorem controlStmt_scopeNest {levels : List (Level × String)} {inner inner' : StmtTerm}
    (changes : controlStmt known control inner = .ok inner') :
    controlStmt known control (scopeNest o levels inner) = .ok (scopeNest o levels inner') := by
  induction levels with
  | nil => exact changes
  | cons level levels ih =>
    have body : [scopeNest o levels inner].mapM (controlStmt known control) =
        .ok [scopeNest o levels inner'] := by
      rw [List.mapM_cons, ih]
      rfl
    unfold controlStmt at body
    unfold controlStmt scopeNest
    rw [CallRule.rewriteStmt_scoped, body]
    rfl

theorem comparisonOperands_test {level : Level} (listed : ∀ n, level.lines.layer ≠ .int n) :
    PlanM.comparisonOperands o (level.test o) = .ok (level.lines, level.value) := by
  unfold PlanM.comparisonOperands Level.test
  simp only [ExprTree.layer]
  split
  · exact absurd ‹_› (listed _)
  · rfl

theorem lowerConditional_scopeNest (o : Options) (target : String) {level : Level}
    {levels : List (Level × String)}
    (listed : ∀ n, level.lines.layer ≠ .int n) (present : p.operations.contains gate)
    (supported : p.operations.supports gate .controlled) (once : (levels.map Prod.snd).Nodup)
    (reserved : ∀ x ∈ levels.map Prod.snd, x ∈ p.names.taken) :
    ∃ control p', PlanM.lowerConditional o (level.test o)
      [scopeNest o levels (.expr () (gateCall gate target (levels.map Prod.snd)))] [] p =
        .ok (scopeNest o ((level, control) :: levels)
          (.expr () (gateCall gate target (control :: levels.map Prod.snd))), p') ∧
      control ∉ p.names.taken ∧ p'.names.taken = control :: p.names.taken ∧ p'.batch = p.batch ∧
      p'.operations = p.operations := by
  let control := (p.names.fresh o.controlParam).1
  have new : control ∉ levels.map Prod.snd :=
    fun again => p.names.fresh_not_mem o.controlParam (reserved _ again)
  have gated : controlStmt p.operations control
      (.expr () (gateCall gate target (levels.map Prod.snd))) =
        .ok (.expr () (gateCall gate target (control :: levels.map Prod.snd))) := by
    rw [controlStmt, CallRule.rewriteStmt, rewrite_gateCall present supported new once]
    rfl
  have body : controlStmts p.operations control
      [scopeNest o levels (.expr () (gateCall gate target (levels.map Prod.snd)))] =
        .ok [scopeNest o levels (.expr () (gateCall gate target (control :: levels.map Prod.snd)))] := by
    rw [controlStmts, List.mapM_cons, controlStmt_scopeNest gated]
    rfl
  let named : Progress := { p with names := (p.names.fresh o.controlParam).2 }
  refine ⟨control, { named with stats := { p.stats with
    conditionalsLowered := p.stats.conditionalsLowered + 1 } }, ?_,
    p.names.fresh_not_mem o.controlParam, rfl, rfl, rfl⟩
  unfold PlanM.lowerConditional
  rw [if_pos List.isEmpty_nil, PlanM.run_bind (PlanM.run_lift (comparisonOperands_test listed))]
  dsimp only
  rw [PlanM.run_bind (show PlanM.freshName o.controlParam p = .ok (control, named) from rfl),
    PlanM.run_bind (show (get : PlanM Progress) named = .ok (named, named) from rfl),
    PlanM.run_bind (PlanM.run_lift (show controlStmts named.operations control _ = _ from body))]
  rfl

/-- Quantum conditionals around a gate become scopes around it, with names of their own, and the gate
takes all of their controls. -/
theorem lowerStmt_conditionalNest (o : Options) (target : String) {levels : List Level}
    (listed : ∀ level ∈ levels, ∀ n, level.lines.layer ≠ .int n) (closed : p.batch = none)
    (present : p.operations.contains gate) (supported : p.operations.supports gate .controlled) :
    ∃ (named : List (Level × String)) (p' : Progress),
      PlanM.lowerStmt o (conditionalNest o levels (.expr () (gateCall gate target []))) p =
        .ok ([scopeNest o named (.expr () (gateCall gate target (named.map Prod.snd)))], p') ∧
      named.map Prod.fst = levels ∧ (named.map Prod.snd).Nodup ∧
      (∀ x ∈ named.map Prod.snd, x ∈ p'.names.taken) ∧ p'.batch = none ∧
      p'.operations = p.operations := by
  induction levels with
  | nil =>
    refine ⟨[], p, ?_, rfl, List.nodup_nil, by simp, closed, rfl⟩
    unfold conditionalNest
    rw [PlanM.lowerStmt_expr, PlanM.run_bind (PlanM.hoist_closed closed _)]
    rfl
  | cons level levels ih =>
    obtain ⟨named, p₁, ran, same, once, reserved, closed₁, operations₁⟩ :=
      ih fun level member => listed level (by simp [member])
    rw [← operations₁] at present supported
    obtain ⟨control, p₂, lowered, fresh, taken, batch, operations₂⟩ :=
      lowerConditional_scopeNest o target (listed level (by simp)) present supported once reserved
    refine ⟨(level, control) :: named, p₂, ?_, by rw [List.map_cons, same], ?_, ?_, ?_, ?_⟩
    · have asked : (level.test o).isCallTo o.conditionFn = true := by
        simp [Level.test, nameTerm, ExprTree.isCallTo]
      unfold conditionalNest
      rw [PlanM.lowerStmt_conditional, if_pos asked, PlanM.run_bind (PlanM.run_mapM_singleton ran),
        List.mapM_nil, pure_bind, List.flatten_singleton, List.flatten_nil, PlanM.run_bind lowered]
      rfl
    · exact List.nodup_cons.2 ⟨fun again => fresh (reserved _ again), once⟩
    · intro x member
      rw [taken]
      rcases List.mem_cons.1 member with rfl | member
      · exact List.mem_cons_self
      · exact List.mem_cons_of_mem _ (reserved x member)
    · rw [batch, closed₁]
    · rw [operations₂, operations₁]

end Lowering

theorem Context.operations_enter {c : Context} {node : Node NodeId}
    (other : ∀ d, node ≠ .stmt (.define d)) : (c.enter node).operations = c.operations := by
  match node with
  | .stmt (.define d) => exact absurd rfl (other d)
  | .stmt (.classDef ..) | .stmt (.importAs ..) | .stmt (.expr _) | .stmt (.assign ..)
  | .stmt (.scoped ..) | .stmt (.conditional ..) | .stmt (.wire ..) | .stmt .pass => rfl
  | .expr (.name _) | .expr (.int _) | .expr (.float _) | .expr (.bool _) | .expr (.str _)
  | .expr (.attribute ..) | .expr (.call ..) | .expr (.functor ..) | .expr (.aggregate _)
  | .expr (.list _) | .expr (.tuple _) | .expr (.compare ..) => rfl

theorem Context.operations_enterAll {cells : List Cell}
    (others : ∀ id d, (id, Node.stmt (.define d)) ∉ cells) (c : Context) :
    (c.enterAll cells).operations = c.operations := by
  induction cells generalizing c with
  | nil => rfl
  | cons cell cells ih =>
    have first : (c.enter cell.2).operations = c.operations := by
      refine operations_enter fun d same => others cell.1 d ?_
      rw [← same]
      exact List.mem_cons_self
    exact (ih (fun id d member => others id d (List.mem_cons_of_mem _ member)) _).trans first

theorem operations_start {body : List (StmtTree NodeId)}
    (none : ∀ s ∈ body.map StmtTree.erase, s.defined = []) (o : Options) :
    (Progress.start o body).operations = o.operations := by
  refine Context.operations_enterAll (fun id d member => ?_) _
  obtain ⟨s, inside, member⟩ := List.mem_flatMap.1 member
  have defined := StmtTree.mem_defined_of_mem_cells member
  rw [← StmtTree.defined_erase, none _ (List.mem_map_of_mem inside)] at defined
  cases defined

theorem defined_conditionalNest (o : Options) (levels : List Level) (value : ExprTerm) :
    (conditionalNest o levels (.expr () value)).defined = [] := by
  induction levels with
  | nil => exact StmtTree.defined_expr () value
  | cons level levels ih =>
    unfold conditionalNest
    simp [ih]

theorem OperationTable.contains_of_supports {known : OperationTable} {name : String}
    {f : GateFunctor} (supported : known.supports name f) : known.contains name := by
  unfold OperationTable.supports at supported
  unfold Dictionary.contains
  cases found : known.get? name with
  | none =>
    rw [found] at supported
    cases supported
  | some entry => rfl

/-- Quantum conditionals inside each other around a gate are lowered, and what comes out runs on every
basis state: the gate fires when every line reads zero or one according to whether an odd number of
the conditions ask for a zero on it, and afterwards the lines of the conditions are back to what they
read. So the gate fires for the conditions themselves exactly if these are compatible. -/
theorem lower_conditionalNest {R : Type} [AmplitudeScalar R] (D : Device R) {o : Options}
    {t : SyntaxTree} {levels : List Level} {gate target : String} (kinded : t.WellKinded)
    (valid : t.validate = .ok ())
    (reads : t.Reads t.body [conditionalNest o levels (.expr () (gateCall gate target []))])
    (listed : ∀ level ∈ levels, ∀ n, level.lines.layer ≠ .int n)
    (supported : o.operations.supports gate .controlled)
    (wf : ∀ c ∈ levels.map D.condition, c.WellFormed)
    (apart : ∀ s, ∀ c ∈ levels.map D.condition, ∀ line ∈ c.lines,
      D.gate (nameTerm gate) [nameTerm target] s line = s line)
    (boilerplate verification : Bool) :
    ∃ lowered front nest, t.lower o (.build boilerplate verification) = .ok lowered ∧
      lowered.tree.Reads lowered.tree.body (front ++ [nest]) ∧
      ∃ (fired : BasisState → Bool) (after : BasisState → BasisState),
        (∀ s, D.exec o nest (fun _ => none) s = .ok ([fired s], after s)) ∧
        (∀ s, ∀ c ∈ levels.map D.condition, ∀ line ∈ c.lines, after s line = s line) ∧
        (∀ s, fired s = true ↔ ∀ c ∈ levels.map D.condition, ∀ line ∈ c.lines,
          s line = !decide (Odd (zeroLevels (levels.map D.condition) line))) ∧
        ((∀ s, fired s = true ↔ ∀ c ∈ levels.map D.condition, c.Holds s) ↔
          Compatible (levels.map D.condition)) := by
  obtain ⟨body, placed⟩ := exists_placed kinded valid
  have same := reads.unique ⟨body, placed.labels, rfl, placed.owned.held⟩
  have operations : (Progress.start o body).operations = o.operations := by
    refine operations_start (fun s member => ?_) o
    rw [← same, List.mem_singleton] at member
    rw [member]
    exact defined_conditionalNest o levels _
  rw [← operations] at supported
  obtain ⟨named, p', ran, fst, once, -⟩ := lowerStmt_conditionalNest o target
    listed (show (Progress.start o body).batch = none from rfl)
    (OperationTable.contains_of_supports supported) supported
  have planned : modulePlan o boilerplate body = .ok (injectedImport o boilerplate
      (body.map StmtTree.erase) ++ [scopeNest o named (.expr () (gateCall gate target
        (named.map Prod.snd)))], p') := by
    unfold modulePlan
    rw [lowerStmts_preparedBody, ← same]
    refine PlanM.run_map ?_
    unfold PlanM.lowerStmts
    rw [PlanM.run_bind (PlanM.run_mapM_singleton ran)]
    rfl
  have conditions : D.conditions named = levels.map D.condition := by
    rw [← fst, List.map_map]
    rfl
  rw [← conditions] at wf apart ⊢
  obtain ⟨_, lowered, c, stmts, planned', ended, -, finished⟩ | ⟨reason, refused, -⟩ :=
    lower_cases placed o boilerplate verification
  case inr =>
    cases refused.symm.trans planned
  cases planned'.symm.trans planned
  choose fired after runs fires restored using
    Device.exec_scopeNest_gate (D := D) (o := o) once wf apart fun _ => none
  refine ⟨lowered, _, _, ended, ⟨stmts, finished.placed.labels, finished.erased,
    finished.placed.owned.held⟩, fired, after, runs, restored, ?_, ?_⟩
  · exact fun s => (fires s).trans (BasisState.fires_iff wf s)
  · rw [← compatible_iff wf]
    exact forall_congr' fun s => by rw [fires s]

/-- Two conditions that ask for a zero on the same line flip it twice: the gate does not fire although
both hold. -/
theorem lower_conditionalNest_repeated :
    let zero : Level := ⟨nameTerm "q", .node () (.int 0)⟩
    let D : Device Float := ⟨fun line _ => modify fun s => s.flip line, fun _ _ => rfl,
      fun _ => [0], fun _ => 0, fun _ _ s => s.flip 1⟩
    let t : SyntaxTree := ⟨#[.expr (.name "superposition"), .expr (.name "q"), .expr (.int 0),
      .expr (.compare 1 .equal 2), .expr (.call 0 [3] []), .expr (.name "superposition"),
      .expr (.name "q"), .expr (.int 0), .expr (.compare 6 .equal 7), .expr (.call 5 [8] []),
      .expr (.name "X"), .expr (.name "t"), .expr (.call 10 [11] []), .stmt (.expr 12),
      .stmt (.conditional 9 [13] []), .stmt (.conditional 4 [14] [])], [15]⟩
    ∃ lowered front nest, t.lower .default .standard = .ok lowered ∧
      lowered.tree.Reads lowered.tree.body (front ++ [nest]) ∧
      (∃ s', D.exec .default nest (fun _ => none) (fun _ => false) = .ok ([false], s')) ∧
      (D.condition zero).Holds fun _ => false := by
  intro zero D t
  let test : Nat → ExprTree NodeId := fun id => .node (id + 4) (.call
    (.node id (.name "superposition"))
    [.node (id + 3) (.compare (.node (id + 1) (.name "q")) .equal (.node (id + 2) (.int 0)))] [])
  let body : StmtTree NodeId := .conditional 15 (test 0) [.conditional 14 (test 5) [.expr 13
    (.node 12 (.call (.node 10 (.name "X")) [.node 11 (.name "t")] []))] []] []
  have placed : Placed t [body] := by
    refine ⟨rfl, ?_, ?_⟩
    · simp [t, body, test, Expr.map, Expr.children, Holds, StmtTree.label]
    · simp [body, test, Expr.map, Expr.children, StmtTree.label]
  have erased : body.erase =
      conditionalNest .default [zero, zero] (.expr () (gateCall "X" "t" [])) := by
    simp [body, test, conditionalNest, gateCall, Level.test, zero, nameTerm, Expr.map]
    rfl
  have reads : t.Reads t.body
      [conditionalNest .default [zero, zero] (.expr () (gateCall "X" "t" []))] :=
    ⟨[body], rfl, by rw [← erased]; rfl, placed.owned.held⟩
  have wf : ∀ c ∈ [zero, zero].map D.condition, c.WellFormed := by
    intro c member
    have same : c = ⟨[0], 0⟩ := by simpa [Device.condition, D] using member
    subst same
    exact ⟨by simp, by simp, by simp⟩
  have apart : ∀ s, ∀ c ∈ [zero, zero].map D.condition, ∀ line ∈ c.lines,
      D.gate (nameTerm "X") [nameTerm "t"] s line = s line := by
    intro s c member line listed
    have same : c = ⟨[0], 0⟩ := by simpa [Device.condition, D] using member
    subst same
    obtain rfl : line = 0 := by simpa using listed
    rfl
  obtain ⟨lowered, front, nest, ended, lowers, fired, after, runs, -, fires, -⟩ :=
    lower_conditionalNest D placed.wellKinded placed.validate reads (by simp [zero, nameTerm])
      (by decide +kernel) wf apart true true
  refine ⟨lowered, front, nest, ended, lowers, ⟨after fun _ => false, ?_⟩, rfl⟩
  have still : fired (fun _ => false) = false := by
    rw [Bool.eq_false_iff, ne_eq, fires]
    intro all
    have line := all ⟨[0], 0⟩ (by simp [Device.condition, D]) 0 (by simp)
    revert line
    decide
  rw [runs, still]

end QuantumLowering
