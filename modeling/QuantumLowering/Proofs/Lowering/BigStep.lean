import QuantumLowering.Proofs.Lowering.Outcomes

/-!
Lowering as a relation between a block, the progress before it, what the block is lowered to and the
progress after it. A fact about lowering is an induction on the relation, with one case for each kind of
statement.
-/

namespace QuantumLowering

/-- How a block is lowered. The runs on expressions, the variants of a definition, the batch of an
allocation block and the scope of a quantum conditional are those of the plan. -/
inductive Lowers (o : Options) : Progress → List StmtTerm → List StmtTerm → Progress → Prop where
  | nil (p : Progress) : Lowers o p [] [] p
  | append {p p' p'' : Progress} {body body' rs rs' : List StmtTerm} (first : Lowers o p body rs p')
    (second : Lowers o p' body' rs' p'') : Lowers o p (body ++ body') (rs ++ rs') p''
  | standing {p p' : Progress} {body rs : List StmtTerm} (index : Nat)
    (lowers : Lowers o (p.standing index) body rs p') : Lowers o p body rs p'
  | importAs (p : Progress) (module name : String) :
    Lowers o p [.importAs () module name] [.importAs () module name] p
  | wire (p : Progress) (f : GateFunctor) (operation variant : String) :
    Lowers o p [.wire () f operation variant] [.wire () f operation variant] p
  | pass (p : Progress) : Lowers o p [.pass ()] [.pass ()] p
  | expr {p p' : Progress} {value r : ExprTerm} (search : PlanM.hoist o value p = .ok (r, p')) :
    Lowers o p [.expr () value] [.expr () r] p'
  | assign {p p' : Progress} (target : ExprTerm) {value r : ExprTerm}
    (search : PlanM.hoist o value p = .ok (r, p')) :
    Lowers o p [.assign () target value] [.assign () target r] p'
  | define {p q p' : Progress} {d : Definition StmtTerm} {rs variants : List StmtTerm}
    (within : Lowers o { p with batch := none, insideMethod := false } d.body rs q)
    (emits : PlanM.emitVariants o { d with body := rs }
      { q with batch := p.batch, insideMethod := p.insideMethod } = .ok (variants, p')) :
    Lowers o p [.define () d] (.define () { d with body := rs } :: variants) p'
  | classDef {p q : Progress} (name : String) {body rs : List StmtTerm}
    (within : Lowers o { p with insideMethod := true } body rs q) :
    Lowers o p [.classDef () name body] [.classDef () name rs]
      { q with insideMethod := p.insideMethod }
  | allocation {p p₁ p₂ p' : Progress} {context r : ExprTerm} (binding : Option ExprTerm)
    {body rs stmts : List StmtTerm} (allocates : context.isCallTo o.allocateFn)
    (search : PlanM.hoist o context p = .ok (r, p₁))
    (within : Lowers o { p₁ with batch := some ⟨0, []⟩ } body rs p₂)
    (emits : PlanM.emitBatch o (p₂.batch.elim [] Batch.hoisted) rs { p₂ with batch := p₁.batch } =
      .ok (stmts, p')) :
    Lowers o p [.scoped () context binding body] [.scoped () r binding stmts] p'
  | scope {p p₁ p' : Progress} {context r : ExprTerm} (binding : Option ExprTerm)
    {body rs : List StmtTerm} (plain : ¬ context.isCallTo o.allocateFn)
    (search : PlanM.hoist o context p = .ok (r, p₁)) (within : Lowers o p₁ body rs p') :
    Lowers o p [.scoped () context binding body] [.scoped () r binding rs] p'
  | classical {p p₁ p₂ p' : Progress} {test r : ExprTerm} {body orelse rs rs' : List StmtTerm}
    (plain : ¬ test.isCallTo o.conditionFn) (search : PlanM.hoist o test p = .ok (r, p₁))
    (first : Lowers o p₁ body rs p₂) (second : Lowers o p₂ orelse rs' p') :
    Lowers o p [.conditional () test body orelse] [.conditional () r rs rs'] p'
  | quantum {p p₁ p₂ p' : Progress} {test : ExprTerm} {body orelse rs rs' : List StmtTerm}
    {scope : StmtTerm} (marked : test.isCallTo o.conditionFn) (first : Lowers o p body rs p₁)
    (second : Lowers o p₁ orelse rs' p₂)
    (emits : PlanM.lowerConditional o test rs rs' p₂ = .ok (scope, p')) :
    Lowers o p [.conditional () test body orelse] [scope] p'

variable {o : Options} {p p' : Progress} {body rs : List StmtTerm}

theorem Yields.ran {β : Type} {plan : PlanM β} :
    Yields plan p fun b p' => plan p = .ok (b, p') := fun _ _ ended => ended

section Blocks

variable {lower : StmtTerm → PlanM (List StmtTerm)}

theorem mapM_lowers (each : ∀ s ∈ body, ∀ p, Yields (lower s) p (Lowers o p [s])) (p : Progress) :
    Yields (body.mapM lower) p fun rss => Lowers o p body rss.flatten := by
  induction body generalizing p with
  | nil => exact .pure (.nil p)
  | cons s body ih =>
    rw [List.mapM_cons]
    refine (each s (by simp) p).bind fun rs p₁ first => ?_
    refine (ih (fun s inside => each s (by simp [inside])) p₁).bind fun rss p₂ rest => .pure ?_
    rw [List.flatten_cons]
    exact first.append rest

theorem lowerAllocated_lowers (each : ∀ s ∈ body, ∀ p, Yields (lower s) p (Lowers o p [s]))
    (lowered : List StmtTerm) (p : Progress) :
    Yields (PlanM.lowerAllocated lower lowered body) p fun rs p' =>
      ∃ stmts, rs = lowered ++ stmts ∧ Lowers o p body stmts p' := by
  induction body generalizing p lowered with
  | nil => exact .pure ⟨[], by simp, .nil p⟩
  | cons s body ih =>
    unfold PlanM.lowerAllocated PlanM.enterStatement
    rw [Yields.modify_bind]
    refine (each s (by simp) _).bind fun rs p₁ first => ?_
    refine (ih (fun s inside => each s (by simp [inside])) _ p₁).mono ?_
    rintro _ p₂ ⟨stmts, rfl, rest⟩
    exact ⟨rs ++ stmts, by simp, (Lowers.standing lowered.length first).append rest⟩

end Blocks

theorem lowerStmt_lowers (s : StmtTerm) (p : Progress) :
    Yields (PlanM.lowerStmt o s) p (Lowers o p [s]) := by
  induction s using StmtTree.induct generalizing p with
  | step s ih =>
    cases s with
    | importAs _ module name =>
      rw [PlanM.lowerStmt]
      · exact .pure (.importAs p module name)
      all_goals simp
    | wire _ f operation variant =>
      rw [PlanM.lowerStmt]
      · exact .pure (.wire p f operation variant)
      all_goals simp
    | pass _ =>
      rw [PlanM.lowerStmt]
      · exact .pure (.pass p)
      all_goals simp
    | expr _ value =>
      rw [PlanM.lowerStmt_expr]
      exact Yields.ran.bind fun r p₁ search => .pure (.expr search)
    | assign _ target value =>
      rw [PlanM.lowerStmt_assign]
      exact Yields.ran.bind fun r p₁ search => .pure (.assign target search)
    | define _ d =>
      rw [PlanM.lowerStmt_define]
      have lowered : Yields (PlanM.withBatch none
          (PlanM.withMethod false (d.body.mapM (PlanM.lowerStmt o)))) p fun lowered p₁ =>
            ∃ q, Lowers o { p with batch := none, insideMethod := false } d.body lowered.1.flatten q ∧
              p₁ = { q with batch := p.batch, insideMethod := p.insideMethod } :=
        .withBatch (.withMethod ((mapM_lowers ih _).mono fun rss q within => ⟨q, within, rfl⟩))
      refine lowered.bind ?_
      rintro lowered _ ⟨q, within, rfl⟩
      exact Yields.ran.bind fun variants p₂ emits => .pure (.define within emits)
    | classDef _ name body =>
      rw [PlanM.lowerStmt_classDef]
      have lowered : Yields (PlanM.withMethod true (body.mapM (PlanM.lowerStmt o))) p fun lowered p₁ =>
          ∃ q, Lowers o { p with insideMethod := true } body lowered.flatten q ∧
            p₁ = { q with insideMethod := p.insideMethod } :=
        .withMethod ((mapM_lowers ih _).mono fun rss q within => ⟨q, within, rfl⟩)
      refine lowered.bind ?_
      rintro lowered _ ⟨q, within, rfl⟩
      exact .pure (.classDef name within)
    | «scoped» _ context binding body =>
      rw [PlanM.lowerStmt_scoped]
      split
      · rename_i allocates
        refine Yields.ran.bind fun r p₁ search => ?_
        have lowered : Yields (PlanM.withBatch (some ⟨0, []⟩)
            (PlanM.lowerAllocated (PlanM.lowerStmt o) [] body)) p₁ fun lowered p₂ =>
              ∃ q, Lowers o { p₁ with batch := some ⟨0, []⟩ } body lowered.1 q ∧
                lowered.2 = q.batch ∧ p₂ = { q with batch := p₁.batch } := by
          refine .withBatch ((lowerAllocated_lowers ih [] _).mono ?_)
          rintro _ q ⟨stmts, rfl, within⟩
          exact ⟨q, within, rfl, rfl⟩
        refine lowered.bind ?_
        rintro ⟨rs, batch⟩ _ ⟨q, within, rfl, rfl⟩
        exact Yields.ran.bind fun stmts p₃ emits =>
          .pure (.allocation binding allocates search within emits)
      · rename_i plain
        refine Yields.ran.bind fun r p₁ search => ?_
        exact (mapM_lowers ih p₁).bind fun rss p₂ within => .pure (.scope binding plain search within)
    | conditional _ test body orelse =>
      have inBody (p : Progress) : Yields (body.mapM (PlanM.lowerStmt o)) p fun rss =>
          Lowers o p body rss.flatten :=
        mapM_lowers (fun part member => ih part (List.mem_append_left _ member)) p
      have inElse (p : Progress) : Yields (orelse.mapM (PlanM.lowerStmt o)) p fun rss =>
          Lowers o p orelse rss.flatten :=
        mapM_lowers (fun part member => ih part (List.mem_append_right _ member)) p
      rw [PlanM.lowerStmt_conditional]
      split
      · rename_i marked
        refine (inBody p).bind fun rss p₁ first => (inElse p₁).bind fun rss' p₂ second => ?_
        exact Yields.ran.bind fun scope p₃ emits => .pure (.quantum marked first second emits)
      · rename_i plain
        refine Yields.ran.bind fun r p₁ search => ?_
        refine (inBody p₁).bind fun rss p₂ first => (inElse p₂).bind fun rss' p₃ second => ?_
        exact .pure (.classical plain search first second)

theorem lowerStmts_lowers (block : List StmtTerm) (p : Progress) :
    Yields (PlanM.lowerStmts o block) p (Lowers o p block) := by
  have each : Yields (block.mapM (PlanM.lowerStmt o)) p fun rss => Lowers o p block rss.flatten :=
    mapM_lowers (fun s _ => lowerStmt_lowers s) p
  exact each.bind fun rss p₁ lowers => .pure lowers

theorem keepsMethod : SteadyLinks fun p p' => p'.insideMethod = p.insideMethod where
  refl _ := rfl
  trans first second := second.trans first
  fresh _ _ := rfl
  stats _ _ := rfl
  link _ _ _ _ := rfl

theorem keepsMethod_batches : SteadyBatches fun p p' => p'.insideMethod = p.insideMethod where
  toSteady := keepsMethod.toSteady
  batch _ _ := rfl

namespace Lowers

/-- A step that holds of the runs in the plan, of the changes to the open block and of those to the
method flag, holds of a block. -/
theorem steady {R : Progress → Progress → Prop} (links : SteadyLinks R) (batches : SteadyBatches R)
    (method : ∀ p p' : Progress, ∀ inside, R { p with insideMethod := inside } p' →
      R p { p' with insideMethod := p.insideMethod })
    (lowers : Lowers o p body rs p') : R p p' := by
  have closed : ∀ (p q : Progress) (batch : Option Batch), R { p with batch := batch } q →
      R p { q with batch := p.batch } := fun p q batch step =>
    batches.trans (batches.batch p batch) (batches.trans step (batches.batch q p.batch))
  induction lowers with
  | nil p | importAs p | wire p | pass p => exact links.refl p
  | append _ _ ih ih' => exact links.trans ih ih'
  | standing index _ ih => exact links.trans (batches.batch _ _) ih
  | expr search | assign _ search => exact batches.hoist o _ _ _ _ search
  | @define p q _ _ _ _ _ emits ih =>
    have inner := closed _ _ _ (method { p with batch := none } q false ih)
    exact links.trans inner (links.emitVariants o _ _ _ _ emits)
  | classDef _ _ ih => exact method _ _ _ ih
  | allocation _ _ search _ emits ih =>
    have opened := closed _ _ _ ih
    exact links.trans (batches.hoist o _ _ _ _ search)
      (links.trans opened (links.emitBatch o _ _ _ _ _ emits))
  | «scope» _ _ search _ ih => exact links.trans (batches.hoist o _ _ _ _ search) ih
  | classical _ search _ _ ih ih' =>
    exact links.trans (batches.hoist o _ _ _ _ search) (links.trans ih ih')
  | quantum _ _ _ emits ih ih' =>
    exact links.trans ih (links.trans ih' (links.lowerConditional o _ _ _ _ _ _ emits))

theorem grows (lowers : Lowers o p body rs p') : p.Grows p' :=
  lowers.steady Growing.links Growing.batches fun _ _ _ step => ⟨step.operations, step.names⟩

theorem insideMethod_eq (lowers : Lowers o p body rs p') : p'.insideMethod = p.insideMethod :=
  lowers.steady keepsMethod keepsMethod_batches fun _ _ _ _ => rfl

end Lowers

end QuantumLowering
