import Mathlib.Algebra.BigOperators.Group.List.Basic
import Mathlib.Tactic.Abel
import QuantumLowering.Proofs.Lowering.QuantumScopes
import QuantumLowering.Proofs.Lowering.Remaining

namespace QuantumLowering

instance : Zero Stats := ⟨.zero⟩

instance : Add Stats := ⟨fun a b => ⟨a.adjointsDerived + b.adjointsDerived,
  a.controlledDerived + b.controlledDerived, a.blocksHoisted + b.blocksHoisted,
  a.measurementsHoisted + b.measurementsHoisted, a.conditionalsLowered + b.conditionalsLowered⟩⟩

theorem Stats.zero_def : (0 : Stats) = ⟨0, 0, 0, 0, 0⟩ := rfl

theorem Stats.add_def (a b : Stats) : a + b = ⟨a.adjointsDerived + b.adjointsDerived,
    a.controlledDerived + b.controlledDerived, a.blocksHoisted + b.blocksHoisted,
    a.measurementsHoisted + b.measurementsHoisted, a.conditionalsLowered + b.conditionalsLowered⟩ :=
  rfl

instance : AddCommMonoid Stats where
  add_assoc a b c := by simp only [Stats.add_def, add_assoc]
  zero_add a := by simp only [Stats.zero_def, Stats.add_def, zero_add]
  add_zero a := by simp only [Stats.zero_def, Stats.add_def, add_zero]
  add_comm a b := by simp only [Stats.add_def, add_comm]
  nsmul := nsmulRec

variable {o : Options} {p p' p'' : Progress}

/-- The step adds to the counts, and finds no measurement. -/
structure Adds (n : Stats) (p p' : Progress) : Prop where
  stats : p'.stats = p.stats + n
  batch : p'.batch = p.batch

namespace Adds

variable {n m : Stats}

theorem refl (p : Progress) : Adds 0 p p := ⟨(add_zero _).symm, rfl⟩

theorem trans (first : Adds n p p') (second : Adds m p' p'') : Adds (n + m) p p'' :=
  ⟨by rw [second.stats, first.stats, add_assoc], second.batch.trans first.batch⟩

theorem then_none (first : Adds n p p') (second : Adds 0 p' p'') : Adds n p p'' := by
  simpa using first.trans second

theorem none_then (first : Adds 0 p p') (second : Adds n p' p'') : Adds n p p'' := by
  simpa using first.trans second

end Adds

theorem freshName_adds (base : String) : Yields (PlanM.freshName base) p fun _ p' => Adds 0 p p' := by
  intro name p' ended
  cases ended
  exact ⟨(add_zero _).symm, rfl⟩

theorem link_adds (f : GateFunctor) (operation variant : String) :
    Yields (PlanM.link f operation variant) p fun _ p' => Adds 0 p p' := by
  intro s p' ended
  cases ended
  exact ⟨(add_zero _).symm, rfl⟩

theorem deriveAdjoint_adds (d : Definition StmtTerm) :
    Yields (PlanM.deriveAdjoint o d) p fun _ p' => Adds ⟨1, 0, 0, 0, 0⟩ p p' := by
  unfold PlanM.deriveAdjoint
  rw [Yields.get_bind]
  refine .lift_bind fun rs _ => (freshName_adds _).bind fun name p₁ adds => ?_
  rw [PlanM.modifyStats, Yields.modify_bind]
  exact .pure (adds.none_then ⟨rfl, rfl⟩)

theorem deriveControlled_adds (d : Definition StmtTerm) :
    Yields (PlanM.deriveControlled o d) p fun _ p' => Adds ⟨0, 1, 0, 0, 0⟩ p p' := by
  unfold PlanM.deriveControlled
  refine (freshName_adds _).bind fun control p₁ adds => ?_
  rw [Yields.get_bind]
  refine .lift_bind fun rs _ => ?_
  rw [Yields.get_bind]
  refine (freshName_adds _).bind fun name p₂ adds' => ?_
  rw [PlanM.modifyStats, Yields.modify_bind]
  exact .pure ((adds.then_none adds').none_then ⟨rfl, rfl⟩)

theorem emitAdjoint_adds (d : Definition StmtTerm) :
    Yields (PlanM.emitAdjoint o d) p fun _ p' => Adds ⟨1, 0, 0, 0, 0⟩ p p' := by
  unfold PlanM.emitAdjoint
  refine (deriveAdjoint_adds d).bind fun form p₁ adds => ?_
  refine (link_adds _ _ _).bind fun _ p₂ adds₂ => (link_adds _ _ _).bind fun _ p₃ adds₃ => .pure ?_
  exact (adds.then_none adds₂).then_none adds₃

theorem emitControlled_adds (d : Definition StmtTerm) (adjoint : Option String) :
    Yields (PlanM.emitControlled o d adjoint) p fun _ p' =>
      Adds ⟨adjoint.isSome.toNat, 1, 0, 0, 0⟩ p p' := by
  unfold PlanM.emitControlled
  refine (deriveControlled_adds d).bind fun controlled p₁ adds => ?_
  cases adjoint with
  | none =>
    refine (link_adds _ _ _).bind fun _ p₂ adds₂ => (link_adds _ _ _).bind fun _ p₃ adds₃ => .pure ?_
    exact (adds.then_none adds₂).then_none adds₃
  | some name =>
    refine (deriveAdjoint_adds controlled).bind fun form p₂ adds₂ => ?_
    refine (link_adds _ _ _).bind fun _ p₃ adds₃ => (link_adds _ _ _).bind fun _ p₄ adds₄ => ?_
    refine (link_adds _ _ _).bind fun _ p₅ adds₅ => (link_adds _ _ _).bind fun _ p₆ adds₆ => ?_
    refine (link_adds _ _ _).bind fun _ p₇ adds₇ => (link_adds _ _ _).bind fun _ p₈ adds₈ => .pure ?_
    have links := ((((adds₃.trans adds₄).trans adds₅).trans adds₆).trans adds₇).trans adds₈
    exact (adds.trans adds₂).then_none (by simpa using links)

def Markers.work (m : Markers) : Stats :=
  ⟨m.adjoint.toNat + (m.adjoint && m.controlled).toNat, m.controlled.toNat, 0, 0, 0⟩

theorem emitVariants_adds (d : Definition StmtTerm) :
    Yields (PlanM.emitVariants o d) p fun _ p' => Adds d.markers.work p p' := by
  obtain ⟨⟨adjoint, controlled⟩, marked⟩ : ∃ m, d.markers = m := ⟨_, rfl⟩
  have requested : Yields (PlanM.requestedAdjoints o d) p fun result p' =>
      result.2.isSome = adjoint ∧ Adds ⟨adjoint.toNat, 0, 0, 0, 0⟩ p p' := by
    unfold PlanM.requestedAdjoints
    rw [marked]
    cases adjoint with
    | false => exact .pure ⟨rfl, .refl p⟩
    | true => exact (emitAdjoint_adds d).bind fun emitted p₁ adds => .pure ⟨rfl, adds⟩
  unfold PlanM.emitVariants
  refine requested.bind ?_
  rintro ⟨adjoints, name⟩ p₁ ⟨named, adds⟩
  unfold PlanM.requestedControlled
  rw [marked]
  cases controlled with
  | false =>
    dsimp only
    rw [if_neg Bool.false_ne_true, pure_bind]
    exact .pure (by simpa [Markers.work] using adds)
  | true =>
    refine (emitControlled_adds d name).bind fun forms p₂ adds' => .pure ?_
    have both := adds.trans adds'
    rw [show name.isSome = adjoint from named] at both
    simpa [Markers.work, Stats.add_def] using both

theorem lowerConditional_adds (test : ExprTerm) (body orelse : List StmtTerm) :
    Yields (PlanM.lowerConditional o test body orelse) p fun _ p' =>
      Adds ⟨0, 0, 0, 0, 1⟩ p p' := by
  unfold PlanM.lowerConditional
  split
  · refine .lift_bind fun operands _ => (freshName_adds _).bind fun control p₁ adds => ?_
    rw [Yields.get_bind]
    refine .lift_bind fun rs _ => ?_
    rw [PlanM.modifyStats, Yields.modify_bind]
    exact .pure (adds.none_then ⟨rfl, rfl⟩)
  · exact .throw

theorem emitProxies_adds (ordinal : Nat) (entries : List (Hoisted Unit)) :
    Yields (PlanM.emitProxies o ordinal entries) p fun _ p' => Adds 0 p p' := by
  induction entries generalizing ordinal p with
  | nil => exact .pure (.refl p)
  | cons entry entries ih =>
    unfold PlanM.emitProxies
    refine (freshName_adds _).bind fun proxy p₁ adds => ?_
    exact (ih _).bind fun rest p₂ adds' => .pure (adds.then_none adds')

def batchWork (n : Nat) : Stats := ⟨0, 0, if n = 0 then 0 else 1, n, 0⟩

theorem emitBatch_adds (entries : List (Hoisted Unit)) (body : List StmtTerm) :
    Yields (PlanM.emitBatch o entries body) p fun _ p' => Adds (batchWork entries.length) p p' := by
  unfold PlanM.emitBatch
  cases found : (entries.map Hoisted.index).min? with
  | none =>
    have empty : entries = [] := by simpa using found
    rw [empty]
    exact .pure (.refl p)
  | some position =>
    have nonempty : entries.length ≠ 0 := by
      intro none
      rw [List.length_eq_zero_iff.1 none] at found
      cases found
    refine (emitProxies_adds 1 entries).bind fun emitted p₁ adds => ?_
    rw [PlanM.modifyStats, Yields.modify_bind]
    refine .pure (adds.none_then ⟨?_, rfl⟩)
    rw [batchWork, if_neg nonempty]
    rfl

theorem mapM_stats {f : ExprTerm → PlanM ExprTerm} {parts : List ExprTerm}
    (each : ∀ e ∈ parts, ∀ p, Yields (f e) p fun _ p' => p'.stats = p.stats) :
    Yields (parts.mapM f) p fun _ p' => p'.stats = p.stats := by
  induction parts generalizing p with
  | nil => exact .pure rfl
  | cons e parts ih =>
    rw [List.mapM_cons]
    refine (each e (by simp) p).bind fun r p₁ first => ?_
    refine (ih fun e inside => each e (by simp [inside])).bind fun rs p₂ rest => .pure ?_
    exact rest.trans first

theorem hoist_stats (e : ExprTerm) : Yields (PlanM.hoist o e) p fun _ p' => p'.stats = p.stats := by
  induction e using ExprTree.induct generalizing p with
  | step label layer ih =>
    rw [PlanM.hoist_node, Yields.get_bind]
    cases open_ : p.batch with
    | none => exact .pure rfl
    | some b =>
      dsimp only
      split
      · unfold PlanM.record
        refine ((freshName_adds _).bind fun x p₁ adds => ?_).bind fun x p₂ same => .pure same
        rw [Yields.modify_bind]
        exact .pure (by simpa using adds.stats)
      · exact (mapM_stats fun e member p => ih e member).bind fun rs p₁ same => .pure same

namespace StmtTree

def searched (o : Options) : StmtTerm → List ExprTerm
  | .expr _ value => [value]
  | .assign _ _ value => [value]
  | .scoped _ context _ _ => [context]
  | .conditional _ test _ _ => if test.isCallTo o.conditionFn then [] else [test]
  | _ => []

def isAllocation (o : Options) : StmtTerm → Bool
  | .scoped _ context _ _ => context.isCallTo o.allocateFn
  | _ => false

def markers : StmtTerm → Markers
  | .define _ d => d.markers
  | _ => .none

/-- Measurements inside the statement do not belong to the allocation block around it. -/
def closes (o : Options) : StmtTerm → Bool
  | .define .. => true
  | s => s.isAllocation o

/-- The measurements for which the allocation block around the statement is the innermost one. -/
def offered (o : Options) (s : StmtTerm) : List ExprTerm :=
  (s.searched o).flatMap (ExprTree.outermost o.measureFn) ++
    if s.closes o then [] else (s.inner.attach.map fun part => offered o part.1).flatten
termination_by sizeOf s
decreasing_by exact sizeOf_inner part.2

theorem offered_eq (s : StmtTerm) : s.offered o =
    (s.searched o).flatMap (ExprTree.outermost o.measureFn) ++
      if s.closes o then [] else s.inner.flatMap (offered o) := by
  rw [offered, List.attach_map_val (f := offered o), ← List.flatMap_def]

/-- The measurements for which the statement is the innermost allocation block. -/
def gathered (o : Options) (s : StmtTerm) : List ExprTerm :=
  if s.isAllocation o then s.inner.flatMap (offered o) else []

/-- What the statement adds to the counts, the statements inside it left out. -/
def work (o : Options) (s : StmtTerm) : Stats :=
  s.markers.work + batchWork (s.gathered o).length + ⟨0, 0, 0, 0, (s.isQuantum o).toNat⟩

section Kinds

variable {context test : ExprTerm} {binding : Option ExprTerm} {body orelse : List StmtTerm}

theorem offered_expr (value : ExprTerm) :
    (expr () value).offered o = value.outermost o.measureFn := by
  simp [offered_eq, searched, inner]

theorem offered_assign (target value : ExprTerm) :
    (assign () target value).offered o = value.outermost o.measureFn := by
  simp [offered_eq, searched, inner]

theorem offered_define (d : Definition StmtTerm) : (define () d).offered o = [] := by
  simp [offered_eq, searched, closes]

theorem offered_classDef (name : String) (body : List StmtTerm) :
    (classDef () name body).offered o = body.flatMap (offered o) := by
  rw [offered_eq]
  rfl

theorem offered_allocation (allocates : context.isCallTo o.allocateFn) :
    (StmtTree.scoped () context binding body).offered o = context.outermost o.measureFn := by
  simp [offered_eq, searched, closes, isAllocation, allocates]

theorem offered_scoped (plain : ¬ context.isCallTo o.allocateFn) :
    (StmtTree.scoped () context binding body).offered o =
      context.outermost o.measureFn ++ body.flatMap (offered o) := by
  simp [offered_eq (.scoped _ _ _ _), searched, closes, isAllocation, plain, inner]

theorem offered_classical (plain : ¬ test.isCallTo o.conditionFn) :
    (conditional () test body orelse).offered o =
      test.outermost o.measureFn ++ (body ++ orelse).flatMap (offered o) := by
  simp [offered_eq (.conditional _ _ _ _), searched, closes, isAllocation, plain, inner]

theorem offered_quantum (marked : test.isCallTo o.conditionFn) :
    (conditional () test body orelse).offered o = (body ++ orelse).flatMap (offered o) := by
  simp [offered_eq (.conditional _ _ _ _), searched, closes, isAllocation, marked, inner]

theorem work_define (d : Definition StmtTerm) : (define () d).work o = d.markers.work :=
  (add_zero _).trans (add_zero _)

theorem work_allocation (allocates : context.isCallTo o.allocateFn) :
    (StmtTree.scoped () context binding body).work o =
      batchWork (body.flatMap (offered o)).length := by
  rw [work, gathered, isAllocation, if_pos allocates]
  exact (add_zero _).trans (zero_add _)

theorem work_scoped (plain : ¬ context.isCallTo o.allocateFn) :
    (StmtTree.scoped () context binding body).work o = 0 := by
  rw [work, gathered, isAllocation, if_neg plain]
  rfl

theorem work_classical (plain : ¬ test.isCallTo o.conditionFn) :
    (conditional () test body orelse).work o = 0 := by
  rw [work, isQuantum, Bool.eq_false_iff.2 plain]
  rfl

theorem work_quantum (marked : test.isCallTo o.conditionFn) :
    (conditional () test body orelse).work o = ⟨0, 0, 0, 0, 1⟩ := by
  rw [work, isQuantum, marked]
  rfl

end Kinds

end StmtTree

def blockWork (o : Options) (block : List StmtTerm) : Stats :=
  ((block.flatMap StmtTree.statements).map (StmtTree.work o)).sum

theorem blockWork_append (block block' : List StmtTerm) :
    blockWork o (block ++ block') = blockWork o block + blockWork o block' := by
  unfold blockWork
  rw [List.flatMap_append, List.map_append, List.sum_append]

theorem blockWork_singleton (s : StmtTerm) : blockWork o [s] = s.work o + blockWork o s.inner := by
  unfold blockWork
  rw [List.flatMap_singleton, s.statements_eq, List.map_cons, List.sum_cons]

theorem blockWork_of_idle {s : StmtTerm} (idle : s.work o = 0) :
    blockWork o [s] = blockWork o s.inner := by
  rw [blockWork_singleton, idle, zero_add]

namespace Progress.Finds

variable {q q' : Progress} {calls : List ExprTerm}

theorem of_batch_eq (same : p'.batch = p.batch) : p.Finds p' [] := by
  simp [Progress.Finds, same]

theorem congr (finds : p.Finds p' calls) (before : q.batch = p.batch) (after : q'.batch = p'.batch) :
    q.Finds q' calls := by
  unfold Progress.Finds at finds ⊢
  rw [before, after, finds]

theorem of_standing {index : Nat} (finds : (p.standing index).Finds p' calls) : p.Finds p' calls := by
  unfold Progress.Finds at finds ⊢
  rw [finds, Progress.standing, Option.map_map]
  rfl

end Progress.Finds

/-- Every construct of a block is counted once, and the open allocation block is given the measurements
for which it is the innermost one. -/
theorem Lowers.counts {body rs : List StmtTerm} (lowers : Lowers o p body rs p') :
    p'.stats = p.stats + blockWork o body ∧ p.Finds p' (body.flatMap (StmtTree.offered o)) := by
  induction lowers with
  | nil p => exact ⟨(add_zero _).symm, .of_batch_eq rfl⟩
  | append _ _ ih ih' =>
    rw [blockWork_append, List.flatMap_append]
    exact ⟨by rw [ih'.1, ih.1, add_assoc], ih.2.trans ih'.2⟩
  | standing index _ ih => exact ⟨ih.1, ih.2.of_standing⟩
  | importAs p | wire p | pass p =>
    rw [blockWork_of_idle rfl, List.flatMap_singleton, StmtTree.offered_eq]
    exact ⟨(add_zero _).symm, .of_batch_eq rfl⟩
  | expr search =>
    rw [blockWork_of_idle rfl, List.flatMap_singleton, StmtTree.offered_expr]
    exact ⟨(hoist_stats _ _ _ search).trans (add_zero _).symm, hoist_finds _ _ _ search⟩
  | assign _ search =>
    rw [blockWork_of_idle rfl, List.flatMap_singleton, StmtTree.offered_assign]
    exact ⟨(hoist_stats _ _ _ search).trans (add_zero _).symm, hoist_finds _ _ _ search⟩
  | @define p q p' d rs variants within emits ih =>
    have adds := emitVariants_adds _ _ _ emits
    rw [blockWork_singleton, StmtTree.work_define, List.flatMap_singleton, StmtTree.offered_define]
    refine ⟨?_, .of_batch_eq adds.batch⟩
    calc p'.stats = q.stats + d.markers.work := adds.stats
      _ = p.stats + blockWork o d.body + d.markers.work := by rw [ih.1]
      _ = p.stats + (d.markers.work + blockWork o d.body) := by abel
  | classDef name within ih =>
    rw [blockWork_of_idle rfl, List.flatMap_singleton, StmtTree.offered_classDef]
    exact ⟨ih.1, ih.2.congr rfl rfl⟩
  | @allocation p p₁ p₂ p' context r binding body rs stmts allocates searched within emits ih =>
    have adds := emitBatch_adds _ _ _ _ emits
    have found : (p₂.batch.elim [] Batch.hoisted).length = (body.flatMap (StmtTree.offered o)).length := by
      have finds := ih.2
      simp only [Progress.Finds, Option.map_some, List.map_nil, List.nil_append] at finds
      obtain ⟨b, open_, calls⟩ := Option.map_eq_some_iff.1 finds
      rw [open_, ← calls, List.length_map]
      rfl
    rw [found] at adds
    rw [blockWork_singleton, StmtTree.work_allocation allocates, List.flatMap_singleton,
      StmtTree.offered_allocation allocates]
    refine ⟨?_, (hoist_finds _ _ _ searched).congr rfl adds.batch⟩
    have before : p₂.stats = p.stats + blockWork o body := by
      rw [ih.1, ← hoist_stats _ _ _ searched]
    calc p'.stats = p₂.stats + batchWork (body.flatMap (StmtTree.offered o)).length := adds.stats
      _ = p.stats + blockWork o body + batchWork (body.flatMap (StmtTree.offered o)).length := by
          rw [before]
      _ = p.stats + (batchWork (body.flatMap (StmtTree.offered o)).length + blockWork o body) := by abel
  | «scope» binding plain searched within ih =>
    rw [blockWork_of_idle (StmtTree.work_scoped plain), List.flatMap_singleton,
      StmtTree.offered_scoped plain]
    refine ⟨?_, (hoist_finds _ _ _ searched).trans ih.2⟩
    rw [ih.1, hoist_stats _ _ _ searched, StmtTree.inner]
  | classical plain searched first second ih ih' =>
    rw [blockWork_of_idle (StmtTree.work_classical plain), List.flatMap_singleton,
      StmtTree.offered_classical plain, StmtTree.inner, blockWork_append, List.flatMap_append]
    refine ⟨?_, (hoist_finds _ _ _ searched).trans (ih.2.trans ih'.2)⟩
    rw [ih'.1, ih.1, hoist_stats _ _ _ searched, add_assoc]
  | @quantum p p₁ p₂ p' test body orelse rs rs' scope marked first second emits ih ih' =>
    have adds := lowerConditional_adds _ _ _ _ _ emits
    rw [blockWork_singleton, StmtTree.work_quantum marked, List.flatMap_singleton,
      StmtTree.offered_quantum marked, StmtTree.inner, blockWork_append, List.flatMap_append]
    refine ⟨?_, (ih.2.trans ih'.2).congr rfl adds.batch⟩
    calc p'.stats = p₂.stats + ⟨0, 0, 0, 0, 1⟩ := adds.stats
      _ = p.stats + blockWork o body + blockWork o orelse + ⟨0, 0, 0, 0, 1⟩ := by rw [ih'.1, ih.1]
      _ = p.stats + (⟨0, 0, 0, 0, 1⟩ + (blockWork o body + blockWork o orelse)) := by abel

/-- The measurements in a block, with those of allocation blocks inside it and in definitions, are the
ones it is innermost for and those for which some allocation block is. -/
theorem measured_perm {block : List StmtTerm} {inside : Bool}
    (each : ∀ s ∈ block, (s.measured o (fun _ => false) (StmtTree.searched o) inside).Perm
      ((if inside then s.offered o else []) ++ s.statements.flatMap (StmtTree.gathered o))) :
    (block.flatMap (StmtTree.measured o (fun _ => false) (StmtTree.searched o) inside)).Perm
      ((if inside then block.flatMap (StmtTree.offered o) else []) ++
        (block.flatMap StmtTree.statements).flatMap (StmtTree.gathered o)) := by
  have offered : (block.flatMap fun s => if inside then s.offered o else []) =
      if inside then block.flatMap (StmtTree.offered o) else [] := by
    cases inside with
    | false => exact List.flatMap_eq_nil_iff.2 fun _ _ => rfl
    | true => rfl
  rw [List.flatMap_assoc, ← offered]
  exact (List.Perm.flatMap_left block each).trans (List.flatMap_append_perm block _ _).symm

theorem StmtTree.measured_perm (inside : Bool) (s : StmtTerm) :
    (s.measured o (fun _ => false) (StmtTree.searched o) inside).Perm
      ((if inside then s.offered o else []) ++ s.statements.flatMap (StmtTree.gathered o)) := by
  induction s using StmtTree.induct generalizing inside with
  | step s ih =>
    have inner := QuantumLowering.measured_perm fun part member => ih part member (s.opens o inside)
    -- what stands in the statement is offered, or gathered if the statement is an allocation block
    have here : measuredHere o inside (s.searched o) ++
        (if s.opens o inside then s.inner.flatMap (StmtTree.offered o) else []) =
          (if inside then s.offered o else []) ++ s.gathered o := by
      rw [StmtTree.offered_eq, StmtTree.gathered]
      cases s with
      | «scoped» label context binding body =>
        by_cases allocates : context.isCallTo o.allocateFn <;> cases inside <;>
          simp [StmtTree.opens, StmtTree.closes, StmtTree.isAllocation, measuredHere, allocates]
      | _ =>
        cases inside <;>
          simp [StmtTree.opens, StmtTree.closes, StmtTree.isAllocation, StmtTree.searched, measuredHere]
    rw [StmtTree.measured_eq, if_neg Bool.false_ne_true, s.statements_eq, List.flatMap_cons,
      ← List.append_assoc, ← here, List.append_assoc]
    exact inner.append_left _

theorem blockWork_eq (block : List StmtTerm) : blockWork o block =
    ⟨(block.flatMap StmtTree.statements).countP (fun s => s.markers.adjoint) +
        (block.flatMap StmtTree.statements).countP (fun s => s.markers.adjoint && s.markers.controlled),
      (block.flatMap StmtTree.statements).countP (fun s => s.markers.controlled),
      (block.flatMap StmtTree.statements).countP (fun s => !(s.gathered o).isEmpty),
      ((block.flatMap StmtTree.statements).flatMap (StmtTree.gathered o)).length,
      (block.flatMap StmtTree.statements).countP (StmtTree.isQuantum o)⟩ := by
  unfold blockWork
  induction block.flatMap StmtTree.statements with
  | nil => rfl
  | cons s rest ih =>
    have truth : ∀ b : Bool, b.toNat = if b then 1 else 0 := by decide
    have batch : (if (s.gathered o).length = 0 then 0 else 1) =
        if !(s.gathered o).isEmpty then 1 else 0 := by
      cases s.gathered o <;> rfl
    rw [List.map_cons, List.sum_cons, ih]
    simp only [StmtTree.work, Markers.work, batchWork, Stats.add_def, List.countP_cons,
      List.flatMap_cons, List.length_append, truth, batch, Stats.mk.injEq]
    omega

/-- If a module is lowered, its counts say how often each construct occurs in it: definitions with a
controlled form, definitions with an adjoint form and once more those with both, quantum conditionals,
outermost measurements in allocation blocks with no definition in between, and allocation blocks that are
the innermost one for such a measurement. -/
theorem lower_counts {t : SyntaxTree} {input : List StmtTerm} {lowered : Lowered}
    (kinded : t.WellKinded) (valid : t.validate = .ok ()) (reads : t.Reads t.body input)
    {boilerplate verification : Bool}
    (ended : t.lower o (.build boilerplate verification) = .ok lowered) :
    lowered.stats.controlledDerived =
        (input.flatMap StmtTree.statements).countP (fun s => s.markers.controlled) ∧
      lowered.stats.adjointsDerived =
        (input.flatMap StmtTree.statements).countP (fun s => s.markers.adjoint) +
          (input.flatMap StmtTree.statements).countP
            (fun s => s.markers.adjoint && s.markers.controlled) ∧
      lowered.stats.conditionalsLowered =
        (input.flatMap StmtTree.statements).countP (StmtTree.isQuantum o) ∧
      lowered.stats.measurementsHoisted =
        (input.flatMap (StmtTree.measured o (fun _ => false) (StmtTree.searched o) false)).length ∧
      lowered.stats.blocksHoisted =
        (input.flatMap StmtTree.statements).countP (fun s => !(s.gathered o).isEmpty) ∧
      (input.flatMap (StmtTree.measured o (fun _ => false) (StmtTree.searched o) false)).Perm
        ((input.flatMap StmtTree.statements).flatMap (StmtTree.gathered o)) := by
  obtain ⟨body, rest, p, placed, rfl, lowers, -, stats, -⟩ := exists_lowers kinded valid reads ended
  have start : (Progress.start o body).stats = 0 := by
    rw [Progress.start_eq]
    rfl
  have gathered := measured_perm fun s (_ : s ∈ body.map StmtTree.erase) =>
    StmtTree.measured_perm (o := o) false s
  rw [stats, lowers.counts.1, start, zero_add, blockWork_eq]
  exact ⟨rfl, rfl, rfl, gathered.length_eq.symm, rfl, gathered⟩

def countedBlock : StmtTree NodeId :=
  .scoped 29 (.node 2 (.call (.node 0 (.name "allocate")) [.node 1 (.int 1)] []))
    (some (.node 3 (.name "q")))
    [.define 8 ⟨"f", ["r"], [.expr 7 (.node 6 (.call (.node 4 (.name "R1")) [.node 5 (.name "r")] []))],
      some ⟨true, true⟩⟩,
    .conditional 18 (.node 13 (.call (.node 9 (.name "superposition"))
      [.node 12 (.compare (.node 10 (.name "q")) .equal (.node 11 (.int 1)))] []))
      [.expr 17 (.node 16 (.call (.node 14 (.name "X")) [.node 15 (.name "t")] []))] [],
    .scoped 28 (.node 21 (.call (.node 19 (.name "allocate")) [.node 20 (.int 1)] []))
      (some (.node 22 (.name "r")))
      [.assign 27 (.node 23 (.name "x"))
        (.node 26 (.call (.node 24 (.name "measure")) [.node 25 (.name "r")] []))]]

def countedModule : SyntaxTree :=
  ⟨#[.expr (.name "allocate"), .expr (.int 1), .expr (.call 0 [1] []), .expr (.name "q"),
    .expr (.name "R1"), .expr (.name "r"), .expr (.call 4 [5] []), .stmt (.expr 6),
    .stmt (.define ⟨"f", ["r"], [7], some ⟨true, true⟩⟩), .expr (.name "superposition"),
    .expr (.name "q"), .expr (.int 1), .expr (.compare 10 .equal 11), .expr (.call 9 [12] []),
    .expr (.name "X"), .expr (.name "t"), .expr (.call 14 [15] []), .stmt (.expr 16),
    .stmt (.conditional 13 [17] []), .expr (.name "allocate"), .expr (.int 1),
    .expr (.call 19 [20] []), .expr (.name "r"), .expr (.name "x"), .expr (.name "measure"),
    .expr (.name "r"), .expr (.call 24 [25] []), .stmt (.assign 23 26),
    .stmt (.scoped 21 (some 22) [27]), .stmt (.scoped 2 (some 3) [8, 18, 28])], [29]⟩

theorem countedModule_placed : Placed countedModule [countedBlock] := by
  refine ⟨rfl, ?_, ?_⟩
  · simp [countedModule, countedBlock, Expr.map, Expr.children, Holds, StmtTree.label]
  · simp [countedBlock, Expr.map, Expr.children, StmtTree.label]

/-- The two adjoint forms are counted, and of the two blocks only the one that measures. -/
theorem lower_counts_nested :
    ∃ lowered, countedModule.lower .default .standard = .ok lowered ∧
      lowered.stats = ⟨2, 1, 1, 1, 1⟩ := by
  have placed := countedModule_placed
  have succeeds : (countedModule.lower .default .standard).toOption.any fun _ => true := by
    decide +kernel
  obtain ⟨lowered, ended, -⟩ := exists_lowered succeeds
  obtain ⟨controlled, adjoints, conditionals, measurements, blocks, -⟩ :=
    lower_counts placed.wellKinded placed.validate ⟨_, placed.labels, rfl, placed.owned.held⟩
      (show _ = _ from ended)
  refine ⟨lowered, ended, ?_⟩
  calc lowered.stats = ⟨lowered.stats.adjointsDerived, lowered.stats.controlledDerived,
        lowered.stats.blocksHoisted, lowered.stats.measurementsHoisted,
        lowered.stats.conditionalsLowered⟩ := rfl
    _ = ⟨2, 1, 1, 1, 1⟩ := by
        rw [controlled, adjoints, conditionals, measurements, blocks]
        decide +kernel

end QuantumLowering
