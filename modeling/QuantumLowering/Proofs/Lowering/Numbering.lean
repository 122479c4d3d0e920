import QuantumLowering.Proofs.Lowering.Inference

namespace QuantumLowering

variable {o : Options} {t t' : SyntaxTree} {body : List (StmtTree NodeId)}
  {boilerplate : Bool} {output : List StmtTerm} {p : Progress}

theorem Placed.lower_ok (placed : Placed t body)
    (planned : modulePlan o boilerplate body = .ok (output, p)) (verification : Bool) :
    ∃ lowered, t.lower o (.build boilerplate verification) = .ok lowered ∧
      lowered.tree.Reads lowered.tree.body output ∧ lowered.operations = p.operations ∧
      lowered.stats = p.stats := by
  obtain ⟨_, t₁, c₁, stmts, same, ran, finished⟩ | ⟨reason, s, same, -⟩ :=
    run_build_cases placed o boilerplate verification
  · cases same.symm.trans planned
    have ended : t.lower o (.build boilerplate verification) =
        .ok ⟨t₁, c₁.operations, c₁.stats⟩ := by
      unfold SyntaxTree.lower
      rw [ran]
    exact ⟨_, ended, ⟨stmts, finished.placed.labels, finished.erased, finished.placed.owned.held⟩,
      finished.matched.operations, finished.matched.stats⟩
  · cases same.symm.trans planned

theorem Placed.lower_error {reason : Refusal} (placed : Placed t body)
    (refused : modulePlan o boilerplate body = .error reason) (verification : Bool) :
    t.lower o (.build boilerplate verification) = .error reason.error := by
  obtain ⟨_, _, _, _, same, -, -⟩ | ⟨_, same, failed⟩ :=
    lower_cases placed o boilerplate verification
  · cases same.symm.trans refused
  · cases same.symm.trans refused
    exact failed

theorem modulePlan_congr {body' : List (StmtTree NodeId)}
    (same : body.map StmtTree.erase = body'.map StmtTree.erase) :
    modulePlan o boilerplate body = modulePlan o boilerplate body' := by
  unfold modulePlan
  rw [Progress.start_eq, Progress.start_eq, same]

/-- Two outcomes that differ at most in the numbering of the nodes. -/
inductive SameOutcome : Except LoweringError Lowered → Except LoweringError Lowered → Prop where
  | refused (e : LoweringError) : SameOutcome (.error e) (.error e)
  | lowered {lowered lowered' : Lowered} {output : List StmtTerm}
    (read : lowered.tree.Reads lowered.tree.body output)
    (read' : lowered'.tree.Reads lowered'.tree.body output)
    (operations : lowered.operations = lowered'.operations)
    (stats : lowered.stats = lowered'.stats) : SameOutcome (.ok lowered) (.ok lowered')

/-- Trees whose bodies unfold to the same statements are lowered alike, whatever their ids and
whatever else is in their arenas. -/
theorem lower_numbering {input : List StmtTerm} (kinded : t.WellKinded) (valid : t.validate = .ok ())
    (kinded' : t'.WellKinded) (valid' : t'.validate = .ok ()) (read : t.Reads t.body input)
    (read' : t'.Reads t'.body input) (o : Options) (boilerplate verification : Bool) :
    SameOutcome (t.lower o (.build boilerplate verification))
      (t'.lower o (.build boilerplate verification)) := by
  obtain ⟨body, placed⟩ := exists_placed kinded valid
  obtain ⟨body', placed'⟩ := exists_placed kinded' valid'
  have erased := read.unique ⟨body, placed.labels, rfl, placed.owned.held⟩
  have erased' := read'.unique ⟨body', placed'.labels, rfl, placed'.owned.held⟩
  have plans : modulePlan o boilerplate body = modulePlan o boilerplate body' :=
    modulePlan_congr (erased.symm.trans erased')
  cases planned : modulePlan o boilerplate body with
  | error reason =>
    rw [placed.lower_error planned, placed'.lower_error (plans.symm.trans planned)]
    exact .refused _
  | ok plan =>
    obtain ⟨lowered, ended, written, operations, stats⟩ := placed.lower_ok planned verification
    obtain ⟨lowered', ended', written', operations', stats'⟩ :=
      placed'.lower_ok (plans.symm.trans planned) verification
    rw [ended, ended']
    exact .lowered written written' (operations.trans operations'.symm) (stats.trans stats'.symm)

/-- The nodes of the module with two measurements in the opposite order, after a node that nothing
refers to. That node holds the name of the first measured value. -/
def renumberedModule : SyntaxTree :=
  ⟨#[.expr (.name "_m1")] ++ measuringModule.nodes.reverse.map (Node.map (16 - ·)), [1]⟩

def renumberedBlock : StmtTree NodeId :=
  .scoped 1 (.node 14 (.call (.node 16 (.name "allocate")) [.node 15 (.int 1)] []))
    (some (.node 13 (.name "q")))
    [.assign 8 (.node 12 (.name "x"))
      (.node 9 (.call (.node 11 (.name "measure")) [.node 10 (.name "q")] [])),
    .expr 2 (.node 3 (.call (.node 7 (.name "f"))
      [.node 4 (.call (.node 6 (.name "measure")) [.node 5 (.name "q")] [])] []))]

theorem renumberedModule_placed : Placed renumberedModule [renumberedBlock] := by
  refine ⟨rfl, ?_, ?_⟩
  · simp [renumberedModule, measuringModule, renumberedBlock, Expr.map, Stmt.map, Node.map,
      Expr.children, Holds, StmtTree.label]
  · simp [renumberedBlock, Expr.map, Expr.children, StmtTree.label]

theorem lower_numbering_measuring :
    SameOutcome (measuringModule.lower .default .standard)
        (renumberedModule.lower .default .standard) ∧
      (measuringModule.lower .default .standard).isOk := by
  have placed := measuringModule_placed
  have placed' := renumberedModule_placed
  have erased : [renumberedBlock].map StmtTree.erase = [measuringBlock].map StmtTree.erase := by
    simp [renumberedBlock, measuringBlock, Expr.map]
  have succeeds : (measuringModule.lower .default .standard).isOk = true := by
    decide +kernel
  exact ⟨lower_numbering placed.wellKinded placed.validate placed'.wellKinded placed'.validate
    ⟨_, placed.labels, rfl, placed.owned.held⟩ ⟨_, placed'.labels, erased, placed'.owned.held⟩
    .default true true, succeeds⟩

end QuantumLowering
