import QuantumLowering.Proofs.Lowering.Modules

namespace QuantumLowering

variable {o : Options} {t : SyntaxTree} {body : List (StmtTree NodeId)}

/-- The module that the body is lowered from. -/
def preparedBody (o : Options) (boilerplate : Bool) (body : List StmtTerm) : List StmtTerm :=
  if boilerplate then withImport o body else body

def modulePlan (o : Options) (boilerplate : Bool) (body : List (StmtTree NodeId)) :
    Plan (List StmtTerm × Progress) :=
  PlanM.lowerStmts o (preparedBody o boilerplate (body.map StmtTree.erase)) (.start o body)

theorem Pipeline.run_eq (pipeline : Pipeline) : pipeline.run = pipeline.forM Pass.step := rfl

/-- A lowered module in the tree and the context after a run. -/
structure Finished (o : Options) (planned : List StmtTerm × Progress) (t : SyntaxTree) (c : Context)
    (stmts : List (StmtTree NodeId)) : Prop where
  placed : Placed t stmts
  erased : stmts.map StmtTree.erase = planned.1
  matched : Matches o c planned.2
  closed : planned.2.batch = none
  settles : planned.2.operations.SettlesBlock planned.1

def Pipeline.front (boilerplate : Bool) : Pipeline :=
  [.inferOperations] ++ if boilerplate then [.injectBoilerplate] else []

theorem Pipeline.run_append (front back : Pipeline) :
    (front ++ back).run = front.run >>= fun _ => back.run := by
  simp only [run_eq, List.forM_eq_forM, List.forM_append]

theorem run_front_false (placed : Placed t body) (o : Options) :
    (Pipeline.front false).run ⟨t, .new o⟩ =
      .ok () ⟨t, (Context.new o).enterAll (body.flatMap StmtTree.cells)⟩ := by
  rw [Pipeline.run_eq]
  show (Pass.inferOperations.step >>= fun _ => pure ()) _ = _
  rw [bind_pure]
  exact run_inferOperations placed (.new o)

theorem run_front (placed : Placed t body) (o : Options) (boilerplate : Bool) :
    ∃ t₁ body₁, (Pipeline.front boilerplate).run ⟨t, .new o⟩ =
        .ok () ⟨t₁, (Context.new o).enterAll (body.flatMap StmtTree.cells)⟩ ∧
      Placed t₁ body₁ ∧
      body₁.map StmtTree.erase = preparedBody o boilerplate (body.map StmtTree.erase) := by
  cases boilerplate with
  | false => exact ⟨t, body, run_front_false placed o, placed, rfl⟩
  | true =>
    have inferred := run_inferOperations placed (.new o)
    obtain ⟨t₁, body₁, injected, placed₁, same⟩ :=
      run_injectBoilerplate placed (matches_start o body).options
    refine ⟨t₁, body₁, ?_, placed₁, same⟩
    rw [Pipeline.run_eq]
    show (Pass.inferOperations.step >>= fun _ => Pass.injectBoilerplate.step >>= fun _ => pure ()) _ = _
    rw [LowerM.run_bind (show Pass.inferOperations.step _ = _ from inferred), bind_pure]
    exact injected

theorem build_runs (placed : Placed t body) (boilerplate : Bool) :
    Runs (Pipeline.build boilerplate false).run t (.new o) (modulePlan o boilerplate body)
      fun planned _ t₁ c₁ => ∃ stmts, Finished o planned t₁ c₁ stmts := by
  obtain ⟨t₁, body₁, front, placed₁, same⟩ := run_front placed o boilerplate
  have split : (Pipeline.build boilerplate false).run =
      (Pipeline.front boilerplate).run >>= fun _ => Pass.lowerModule.step := by
    have built : Pipeline.build boilerplate false = Pipeline.front boilerplate ++ [.lowerModule] :=
      List.append_nil _
    rw [built, Pipeline.run_append]
    simp [Pipeline.run_eq]
  have run := (lowerModule_runs placed₁ (matches_start o body) rfl).and_yields
    (lowerStmts_lowers _ _)
  rw [same] at run
  rw [split, Runs.after front]
  refine Runs.mono run ?_
  rintro planned _ t₂ c₂ ⟨⟨stmts, placed₂, erased, matched₂, closed⟩, lowers⟩
  exact ⟨stmts, placed₂, erased, matched₂, closed, lowers.settles⟩

theorem run_build_verified (placed : Placed t body) (boilerplate : Bool) :
    (Pipeline.build boilerplate true).run ⟨t, .new o⟩ =
      (Pipeline.build boilerplate false).run ⟨t, .new o⟩ := by
  have split : (Pipeline.build boilerplate true).run =
      (Pipeline.build boilerplate false).run >>= fun _ => Pass.verifyOutcome.step := by
    cases boilerplate <;> simp [Pipeline.run_eq, Pipeline.build, List.forM_eq_forM]
  have run := build_runs (o := o) placed boilerplate
  rw [split]
  cases ended : modulePlan o boilerplate body with
  | error reason =>
    rw [ended] at run
    obtain ⟨s, failed⟩ := run
    rw [failed]
    simp only [Bind.bind, EStateM.bind, failed]
  | ok planned =>
    rw [ended] at run
    obtain ⟨a, t₁, c₁, ran, stmts, finished⟩ := run
    rw [LowerM.run_bind ran, ran]
    exact run_verifyOutcome finished.placed finished.matched finished.closed
      (finished.erased ▸ finished.settles)

theorem run_build_eq (placed : Placed t body) (boilerplate verification : Bool) :
    (Pipeline.build boilerplate verification).run ⟨t, .new o⟩ =
      (Pipeline.build boilerplate false).run ⟨t, .new o⟩ := by
  cases verification with
  | false => rfl
  | true => exact run_build_verified placed boilerplate

/-- The pipeline ends as the plan of the module does. -/
theorem run_build_cases (placed : Placed t body) (o : Options) (boilerplate verification : Bool) :
    (∃ planned t₁ c₁ stmts, modulePlan o boilerplate body = .ok planned ∧
      (Pipeline.build boilerplate verification).run ⟨t, .new o⟩ = .ok () ⟨t₁, c₁⟩ ∧
      Finished o planned t₁ c₁ stmts) ∨
    ∃ reason s, modulePlan o boilerplate body = .error reason ∧
      (Pipeline.build boilerplate verification).run ⟨t, .new o⟩ = .error reason.error s := by
  have run := build_runs (o := o) placed boilerplate
  rw [run_build_eq placed]
  cases planned : modulePlan o boilerplate body with
  | error reason =>
    rw [planned] at run
    obtain ⟨s, failed⟩ := run
    exact .inr ⟨reason, s, rfl, failed⟩
  | ok plan =>
    rw [planned] at run
    obtain ⟨a, t₁, c₁, ran, stmts, finished⟩ := run
    exact .inl ⟨plan, t₁, c₁, stmts, rfl, ran, finished⟩

theorem lower_cases (placed : Placed t body) (o : Options) (boilerplate verification : Bool) :
    (∃ planned lowered c stmts, modulePlan o boilerplate body = .ok planned ∧
      t.lower o (.build boilerplate verification) = .ok lowered ∧
      lowered.operations = c.operations ∧ Finished o planned lowered.tree c stmts) ∨
    ∃ reason, modulePlan o boilerplate body = .error reason ∧
      t.lower o (.build boilerplate verification) = .error reason.error := by
  unfold SyntaxTree.lower
  obtain ⟨planned, t₁, c₁, stmts, same, ran, finished⟩ | ⟨reason, s, same, failed⟩ :=
    run_build_cases placed o boilerplate verification
  · exact .inl ⟨planned, ⟨t₁, c₁.operations, c₁.stats⟩, c₁, stmts, same, by rw [ran], rfl, finished⟩
  · exact .inr ⟨reason, same, by rw [failed]⟩

theorem exists_finished (placed : Placed t body) {o : Options} {boilerplate verification : Bool}
    {lowered : Lowered} (ended : t.lower o (.build boilerplate verification) = .ok lowered) :
    ∃ planned c stmts, modulePlan o boilerplate body = .ok planned ∧
      (Pipeline.build boilerplate verification).run ⟨t, .new o⟩ = .ok () ⟨lowered.tree, c⟩ ∧
      lowered.operations = c.operations ∧ lowered.stats = c.stats ∧
      Finished o planned lowered.tree c stmts := by
  unfold SyntaxTree.lower at ended
  obtain ⟨planned, t₁, c₁, stmts, same, ran, finished⟩ | ⟨reason, s, -, failed⟩ :=
    run_build_cases placed o boilerplate verification
  · rw [ran] at ended
    cases ended
    exact ⟨planned, c₁, stmts, same, ran, rfl, rfl, finished⟩
  · rw [failed] at ended
    cases ended

theorem exists_planned (placed : Placed t body) {o : Options} {boilerplate verification : Bool}
    {lowered : Lowered} (ended : t.lower o (.build boilerplate verification) = .ok lowered) :
    ∃ planned, modulePlan o boilerplate body = .ok planned ∧
      lowered.tree.Reads lowered.tree.body planned.1 ∧
      lowered.operations = planned.2.operations := by
  obtain ⟨planned, c, stmts, same, -, operations, -, finished⟩ := exists_finished placed ended
  exact ⟨planned, same, ⟨stmts, finished.placed.labels, finished.erased,
    finished.placed.owned.held⟩, operations.trans finished.matched.operations⟩

/-- Lowering a tree that passes validation either refuses it, for a construct without a lowered form
or for a variant that is not there, or gives a tree that passes validation and leaves no allocation
block open; and the check at the end makes no difference. -/
theorem run_build_outcome (kinded : t.WellKinded) (valid : t.validate = .ok ()) (o : Options)
    (boilerplate verification : Bool) :
    (∀ e s, (Pipeline.build boilerplate verification).run ⟨t, .new o⟩ = .error e s →
      (∃ what, e = .unsupported what) ∨ ∃ what, e = .undefinedVariant what) ∧
    (∀ s, (Pipeline.build boilerplate verification).run ⟨t, .new o⟩ = .ok () s →
      s.tree.WellKinded ∧ s.tree.validate = .ok () ∧ s.context.frames = [] ∧
        s.context.tables = []) ∧
    t.lower o (.build boilerplate true) = t.lower o (.build boilerplate false) := by
  obtain ⟨body, placed⟩ := exists_placed kinded valid
  have unverified : t.lower o (.build boilerplate true) = t.lower o (.build boilerplate false) := by
    unfold SyntaxTree.lower
    rw [run_build_verified placed]
  obtain ⟨planned, t₁, c₁, stmts, -, ran', finished⟩ | ⟨reason, s', -, failed'⟩ :=
    run_build_cases placed o boilerplate verification
  · refine ⟨?_, ?_, unverified⟩
    · intro e s failed
      cases ran'.symm.trans failed
    · intro s ran
      cases ran'.symm.trans ran
      have stack := finished.matched.stack
      rw [finished.closed] at stack
      exact ⟨finished.placed.wellKinded, finished.placed.validate, stack.1, stack.2⟩
  · refine ⟨?_, ?_, unverified⟩
    · intro e s failed
      cases failed'.symm.trans failed
      cases reason with
      | unsupported what => exact .inl ⟨what, rfl⟩
      | undefinedVariant what => exact .inr ⟨what, rfl⟩
    · intro s ran
      cases failed'.symm.trans ran

theorem exists_lowered {t : SyntaxTree} {o : Options} {pipeline : Pipeline} {p : Lowered → Bool}
    (holds : (t.lower o pipeline).toOption.any p) :
    ∃ lowered, t.lower o pipeline = .ok lowered ∧ p lowered := by
  cases ended : t.lower o pipeline with
  | error e =>
    rw [ended] at holds
    cases holds
  | ok lowered =>
    rw [ended] at holds
    exact ⟨lowered, rfl, holds⟩

def measuringBlock : StmtTree NodeId :=
  .scoped 15 (.node 2 (.call (.node 0 (.name "allocate")) [.node 1 (.int 1)] []))
    (some (.node 3 (.name "q")))
    [.assign 8 (.node 4 (.name "x"))
      (.node 7 (.call (.node 5 (.name "measure")) [.node 6 (.name "q")] [])),
    .expr 14 (.node 13 (.call (.node 9 (.name "f"))
      [.node 12 (.call (.node 10 (.name "measure")) [.node 11 (.name "q")] [])] []))]

def measuringModule : SyntaxTree :=
  ⟨#[.expr (.name "allocate"), .expr (.int 1), .expr (.call 0 [1] []), .expr (.name "q"),
    .expr (.name "x"), .expr (.name "measure"), .expr (.name "q"), .expr (.call 5 [6] []),
    .stmt (.assign 4 7), .expr (.name "f"), .expr (.name "measure"), .expr (.name "q"),
    .expr (.call 10 [11] []), .expr (.call 9 [12] []), .stmt (.expr 13),
    .stmt (.scoped 2 (some 3) [8, 14])], [15]⟩

theorem measuringModule_placed : Placed measuringModule [measuringBlock] := by
  refine ⟨rfl, ?_, ?_⟩
  · simp [measuringModule, measuringBlock, Expr.map, Expr.children, Holds, StmtTree.label]
  · simp [measuringBlock, Expr.map, Expr.children, StmtTree.label]

theorem run_build_outcome_measuring :
    measuringModule.WellKinded ∧ measuringModule.validate = .ok () ∧
      ∃ s, Pipeline.standard.run ⟨measuringModule, .new .default⟩ = .ok () s ∧
        s.tree.WellKinded ∧ s.tree.validate = .ok () ∧ s.context.frames = [] ∧
        s.context.tables = [] := by
  have kinded := measuringModule_placed.wellKinded
  have valid := measuringModule_placed.validate
  have succeeds : LowerM.succeeds Pipeline.standard.run ⟨measuringModule, .new .default⟩ := by
    decide +kernel
  obtain ⟨_, s, ran⟩ := LowerM.exists_of_succeeds succeeds
  exact ⟨kinded, valid, s, ran, (run_build_outcome kinded valid .default true true).2.1 s ran⟩

end QuantumLowering
