import QuantumLowering.Proofs.Lowering.Composition
import QuantumLowering.Proofs.Operation.Linking

namespace QuantumLowering

inductive Declaration where
  | definition (name : String) (operation : Option Markers)
  | wiring (link : Link)
deriving DecidableEq, Repr

namespace StmtTree

variable {α : Type}

def statements (s : StmtTree α) : List (StmtTree α) :=
  s :: (s.inner.attach.map fun part => statements part.1).flatten
termination_by sizeOf s
decreasing_by exact sizeOf_inner part.2

theorem statements_eq (s : StmtTree α) : s.statements = s :: s.inner.flatMap statements := by
  rw [statements, List.attach_map_val (f := statements), ← List.flatMap_def]

def declaration? : StmtTree α → Option Declaration
  | .define _ d => some (.definition d.name d.operation)
  | .wire _ f operation variant => some (.wiring ⟨f, operation, variant⟩)
  | _ => none

def declarations (s : StmtTree α) : List Declaration := s.statements.filterMap declaration?

theorem declarations_eq (s : StmtTree α) :
    s.declarations = s.declaration?.toList ++ s.inner.flatMap declarations := by
  rw [declarations, statements_eq, List.filterMap_cons, List.filterMap_flatMap]
  cases s.declaration? <;> rfl

section Declarations

variable (label : α)

@[simp]
theorem declarations_define (d : Definition (StmtTree α)) :
    (define label d).declarations =
      .definition d.name d.operation :: d.body.flatMap declarations := by
  rw [declarations_eq]
  rfl

@[simp]
theorem declarations_wire (f : GateFunctor) (operation variant : String) :
    (wire label f operation variant).declarations = [.wiring ⟨f, operation, variant⟩] := by
  rw [declarations_eq]
  rfl

@[simp]
theorem declarations_classDef (name : String) (body : List (StmtTree α)) :
    (classDef label name body).declarations = body.flatMap declarations := by
  rw [declarations_eq]
  rfl

@[simp]
theorem declarations_scoped (context : ExprTree α) (binding : Option (ExprTree α))
    (body : List (StmtTree α)) :
    (StmtTree.scoped label context binding body).declarations = body.flatMap declarations := by
  rw [declarations_eq]
  rfl

@[simp]
theorem declarations_conditional (test : ExprTree α) (body orelse : List (StmtTree α)) :
    (conditional label test body orelse).declarations =
      body.flatMap declarations ++ orelse.flatMap declarations := by
  rw [declarations_eq]
  simp [inner, declaration?]

@[simp]
theorem declarations_expr (value : ExprTree α) : (expr label value).declarations = [] := by
  rw [declarations_eq]
  rfl

@[simp]
theorem declarations_assign (target value : ExprTree α) :
    (assign label target value).declarations = [] := by
  rw [declarations_eq]
  rfl

@[simp]
theorem declarations_importAs (module name : String) :
    (importAs label module name).declarations = [] := by
  rw [declarations_eq]
  rfl

@[simp]
theorem declarations_pass : (pass label).declarations = [] := by
  rw [declarations_eq]
  rfl

end Declarations

end StmtTree

/-- Statements that rewriting leaves alone, with everything in them. -/
def StmtTree.sealed {α : Type} : StmtTree α → Bool
  | .importAs .. | .define .. | .classDef .. | .wire .. | .pass _ => true
  | .expr .. | .assign .. | .scoped .. | .conditional .. => false

section Rewrite

variable {rule : CallRule} {reversed : ExprTerm → Bool}

theorem CallRule.rewriteStmt_sealed {s : StmtTerm} (closed : s.sealed) :
    rule.rewriteStmt reversed s = .ok s := by
  cases s with
  | importAs _ _ _ | define _ _ | classDef _ _ _ | wire _ _ _ _ | pass _ =>
    simp only [CallRule.rewriteStmt]
    rfl
  | expr _ _ | assign _ _ _ | «scoped» _ _ _ _ | conditional _ _ _ _ => cases closed

theorem CallRule.rewriteStmt_expr_ok {value : ExprTerm} {r : StmtTerm}
    (ended : rule.rewriteStmt reversed (.expr () value) = .ok r) :
    ∃ value', rule.rewrite value = .ok value' ∧ r = .expr () value' := by
  rw [CallRule.rewriteStmt] at ended
  obtain ⟨value', ran, ended⟩ := Plan.bind_eq_ok.1 ended
  cases ended
  exact ⟨value', ran, rfl⟩

theorem CallRule.rewriteStmt_assign_ok {target value : ExprTerm} {r : StmtTerm}
    (ended : rule.rewriteStmt reversed (.assign () target value) = .ok r) :
    ∃ value', rule.rewrite value = .ok value' ∧ r = .assign () target value' := by
  rw [CallRule.rewriteStmt] at ended
  obtain ⟨value', ran, ended⟩ := Plan.bind_eq_ok.1 ended
  cases ended
  exact ⟨value', ran, rfl⟩

theorem CallRule.rewriteStmt_scoped_ok {context : ExprTerm} {binding : Option ExprTerm}
    {body : List StmtTerm} {r : StmtTerm}
    (ended : rule.rewriteStmt reversed (.scoped () context binding body) = .ok r) :
    ∃ rs, body.mapM (rule.rewriteStmt reversed) = .ok rs ∧
      r = .scoped () context binding (if reversed context then rs.reverse else rs) := by
  rw [CallRule.rewriteStmt_scoped] at ended
  obtain ⟨rs, ran, ended⟩ := Plan.bind_eq_ok.1 ended
  cases ended
  exact ⟨rs, ran, rfl⟩

theorem CallRule.rewriteStmt_conditional_ok {test : ExprTerm} {body orelse : List StmtTerm}
    {r : StmtTerm} (ended : rule.rewriteStmt reversed (.conditional () test body orelse) = .ok r) :
    ∃ rs rs', body.mapM (rule.rewriteStmt reversed) = .ok rs ∧
      orelse.mapM (rule.rewriteStmt reversed) = .ok rs' ∧ r = .conditional () test rs rs' := by
  rw [CallRule.rewriteStmt_conditional] at ended
  obtain ⟨rs, ran, ended⟩ := Plan.bind_eq_ok.1 ended
  obtain ⟨rs', ran', ended⟩ := Plan.bind_eq_ok.1 ended
  cases ended
  exact ⟨rs, rs', ran, ran', rfl⟩

inductive CallRule.Rewritten (rule : CallRule) (reversed : ExprTerm → Bool) :
    StmtTerm → StmtTerm → Prop where
  | kept {s : StmtTerm} (sealed : s.sealed) : Rewritten rule reversed s s
  | expr {value value' : ExprTerm} (ended : rule.rewrite value = .ok value') :
    Rewritten rule reversed (.expr () value) (.expr () value')
  | assign {target value value' : ExprTerm} (ended : rule.rewrite value = .ok value') :
    Rewritten rule reversed (.assign () target value) (.assign () target value')
  | scope {context : ExprTerm} {binding : Option ExprTerm} {body rs : List StmtTerm}
    (ended : body.mapM (rule.rewriteStmt reversed) = .ok rs) :
    Rewritten rule reversed (.scoped () context binding body)
      (.scoped () context binding (if reversed context then rs.reverse else rs))
  | conditional {test : ExprTerm} {body orelse rs rs' : List StmtTerm}
    (ended : body.mapM (rule.rewriteStmt reversed) = .ok rs)
    (ended' : orelse.mapM (rule.rewriteStmt reversed) = .ok rs') :
    Rewritten rule reversed (.conditional () test body orelse) (.conditional () test rs rs')

theorem CallRule.rewritten {s r : StmtTerm} (ended : rule.rewriteStmt reversed s = .ok r) :
    rule.Rewritten reversed s r := by
  cases s with
  | importAs _ module name | wire _ f operation variant | pass _ | define _ d
  | classDef _ name body =>
    rw [CallRule.rewriteStmt_sealed rfl] at ended
    cases ended
    exact .kept rfl
  | expr _ value =>
    obtain ⟨value', ran, rfl⟩ := CallRule.rewriteStmt_expr_ok ended
    exact .expr ran
  | assign _ target value =>
    obtain ⟨value', ran, rfl⟩ := CallRule.rewriteStmt_assign_ok ended
    exact .assign ran
  | «scoped» _ context binding body =>
    obtain ⟨rs, ran, rfl⟩ := CallRule.rewriteStmt_scoped_ok ended
    exact .scope ran
  | conditional _ test body orelse =>
    obtain ⟨rs, rs', ran, ran', rfl⟩ := CallRule.rewriteStmt_conditional_ok ended
    exact .conditional ran ran'

@[elab_as_elim]
theorem CallRule.rewriteStmt_induct {P : StmtTerm → StmtTerm → Prop}
    (kept : ∀ s : StmtTerm, s.sealed → P s s)
    (expr : ∀ value value', rule.rewrite value = .ok value' → P (.expr () value) (.expr () value'))
    (assign : ∀ target value value', rule.rewrite value = .ok value' →
      P (.assign () target value) (.assign () target value'))
    (scope : ∀ context binding body rs, List.Forall₂ P body rs →
      P (.scoped () context binding body)
        (.scoped () context binding (if reversed context then rs.reverse else rs)))
    (conditional : ∀ test body orelse rs rs', List.Forall₂ P body rs → List.Forall₂ P orelse rs' →
      P (.conditional () test body orelse) (.conditional () test rs rs'))
    {s r : StmtTerm} (ended : rule.rewriteStmt reversed s = .ok r) : P s r := by
  induction s using StmtTree.induct generalizing r with
  | step s ih =>
    have block : ∀ body rs : List StmtTerm, (∀ part ∈ body, part ∈ s.inner) →
        body.mapM (rule.rewriteStmt reversed) = .ok rs → List.Forall₂ P body rs :=
      fun body rs inside ended => forall₂_imp_of_mem (Plan.mapM_eq_ok ended)
        fun s member r ended => ih s (inside s member) ended
    cases CallRule.rewritten ended with
    | kept closed => exact kept s closed
    | expr ran => exact expr _ _ ran
    | assign ran => exact assign _ _ _ ran
    | @scope context binding body rs ran =>
      exact scope context binding body rs (block body rs (fun _ member => member) ran)
    | @conditional test body orelse rs rs' ran ran' =>
      exact conditional test body orelse rs rs' (block body rs (by simp +contextual [StmtTree.inner]) ran)
        (block orelse rs' (by simp +contextual [StmtTree.inner]) ran')

def CallRule.Keeps (rule : CallRule) (reversed : ExprTerm → Bool) (s r : StmtTerm) : Prop :=
  r = s ∨ rule.rewriteStmt reversed s = .ok r

/-- The statements inside those after a rewriting are kept ones, in another order. -/
def CallRule.KeepsInside (rule : CallRule) (reversed : ExprTerm → Bool)
    (before after : List StmtTerm) : Prop :=
  ∃ inside : List StmtTerm, inside.Perm after ∧ List.Forall₂ (rule.Keeps reversed) before inside

theorem CallRule.KeepsInside.append {before after before' after' : List StmtTerm}
    (first : rule.KeepsInside reversed before after)
    (second : rule.KeepsInside reversed before' after') :
    rule.KeepsInside reversed (before ++ before') (after ++ after') := by
  obtain ⟨inside, order, kept⟩ := first
  obtain ⟨inside', order', kept'⟩ := second
  exact ⟨inside ++ inside', order.append order', List.rel_append kept kept'⟩

theorem CallRule.keepsInside_mapM {body rs : List StmtTerm}
    (ended : body.mapM (rule.rewriteStmt reversed) = .ok rs)
    (each : ∀ s ∈ body, ∀ r, rule.rewriteStmt reversed s = .ok r →
      rule.KeepsInside reversed s.statements r.statements) :
    rule.KeepsInside reversed (body.flatMap StmtTree.statements)
      (rs.flatMap StmtTree.statements) := by
  have pairs := Plan.mapM_eq_ok ended
  clear ended
  induction pairs with
  | nil => exact ⟨[], .refl _, .nil⟩
  | @cons s r body rs here _ ih =>
    rw [List.flatMap_cons, List.flatMap_cons]
    exact (each s (by simp) r here).append (ih fun s inside => each s (by simp [inside]))

theorem CallRule.keepsInside_rewriteStmt {s r : StmtTerm}
    (ended : rule.rewriteStmt reversed s = .ok r) :
    rule.KeepsInside reversed s.statements r.statements := by
  induction s using StmtTree.induct generalizing r with
  | step s ih =>
    have block : ∀ body rs : List StmtTerm, (∀ part ∈ body, part ∈ s.inner) →
        body.mapM (rule.rewriteStmt reversed) = .ok rs →
        rule.KeepsInside reversed (body.flatMap StmtTree.statements)
          (rs.flatMap StmtTree.statements) :=
      fun body rs inside ended =>
        CallRule.keepsInside_mapM ended fun s member r ended => ih s (inside s member) ended
    have here : ∀ r, rule.rewriteStmt reversed s = .ok r →
        rule.KeepsInside reversed (s.inner.flatMap StmtTree.statements)
          (r.inner.flatMap StmtTree.statements) →
        rule.KeepsInside reversed s.statements r.statements := by
      intro r ended kept
      obtain ⟨inside, order, kept⟩ := kept
      rw [s.statements_eq, r.statements_eq]
      exact ⟨r :: inside, order.cons r, .cons (.inr ended) kept⟩
    cases CallRule.rewritten ended with
    | kept => exact ⟨_, .refl _, List.forall₂_same.2 fun _ _ => .inl rfl⟩
    | expr _ => exact here _ ended ⟨[], .refl _, .nil⟩
    | assign _ => exact here _ ended ⟨[], .refl _, .nil⟩
    | @scope context binding body rs ran =>
      obtain ⟨inside, order, kept⟩ := block body rs (fun _ member => member) ran
      refine here _ ended ⟨inside, order.trans ?_, kept⟩
      rw [StmtTree.inner]
      split
      · exact rs.reverse_perm.symm.flatMap_right _
      · exact .refl _
    | @conditional test body orelse rs rs' ran ran' =>
      have inBody := block body rs (by simp +contextual [StmtTree.inner]) ran
      have inElse := block orelse rs' (by simp +contextual [StmtTree.inner]) ran'
      refine here _ ended ?_
      rw [StmtTree.inner, StmtTree.inner, List.flatMap_append, List.flatMap_append]
      exact inBody.append inElse

theorem CallRule.declaration?_of_keeps {s r : StmtTerm} (kept : rule.Keeps reversed s r) :
    r.declaration? = s.declaration? := by
  rcases kept with rfl | ended
  · rfl
  · cases CallRule.rewritten ended <;> rfl

theorem CallRule.declarations_rewriteStmt {s r : StmtTerm}
    (ended : rule.rewriteStmt reversed s = .ok r) : r.declarations.Perm s.declarations := by
  obtain ⟨inside, order, kept⟩ := CallRule.keepsInside_rewriteStmt ended
  have same : inside.filterMap StmtTree.declaration? = s.statements.filterMap StmtTree.declaration? := by
    clear order ended
    generalize s.statements = all at kept ⊢
    induction kept with
    | nil => rfl
    | cons here _ ih =>
      rw [List.filterMap_cons, List.filterMap_cons, CallRule.declaration?_of_keeps here, ih]
  unfold StmtTree.declarations
  rw [← same]
  exact (order.filterMap _).symm

theorem CallRule.declarations_mapM {body rs : List StmtTerm}
    (ended : body.mapM (rule.rewriteStmt reversed) = .ok rs) :
    (rs.flatMap StmtTree.declarations).Perm (body.flatMap StmtTree.declarations) := by
  have pairs := Plan.mapM_eq_ok ended
  clear ended
  induction pairs with
  | nil => exact .refl _
  | cons here _ ih => exact (CallRule.declarations_rewriteStmt here).append ih

end Rewrite

theorem declarations_controlStmts {known : OperationTable} {control : String}
    {body rs : List StmtTerm} (ended : controlStmts known control body = .ok rs) :
    (rs.flatMap StmtTree.declarations).Perm (body.flatMap StmtTree.declarations) :=
  CallRule.declarations_mapM ended

theorem declarations_adjointStmts {known : OperationTable} {o : Options} {body rs : List StmtTerm}
    (ended : adjointStmts known o body = .ok rs) :
    (rs.flatMap StmtTree.declarations).Perm (body.flatMap StmtTree.declarations) := by
  obtain ⟨rs, ran, ended⟩ := Plan.bind_eq_ok.1 ended
  cases ended
  exact (rs.reverse_perm.flatMap_right _).trans (CallRule.declarations_mapM ran)

end QuantumLowering
