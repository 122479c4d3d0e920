import QuantumLowering.Proofs.Syntax.Substitution

namespace QuantumLowering

def Stmt.identifiers {ι : Type} : Stmt ι → List String
  | .define d => d.name :: d.params
  | .classDef name _ => [name]
  | .importAs _ name => [name]
  | _ => []

/-- What a node binds or uses by itself. -/
def Node.identifiers {ι : Type} : Node ι → List String
  | .expr e => e.name?.toList
  | .stmt s => s.identifiers

namespace StmtTree

variable {α : Type}

def binders : StmtTree α → List String
  | .define _ d => d.name :: d.params
  | .classDef _ name _ => [name]
  | .importAs _ _ name => [name]
  | _ => []

theorem binders_erase (s : StmtTree α) : s.erase.binders = s.binders := by
  cases s <;> simp [binders]

theorem identifiers_stmt (s : StmtTree NodeId) : s.stmt.identifiers = s.binders := by
  cases s <;> rfl

def identifiers (s : StmtTree α) : List String :=
  s.binders ++ s.exprs.flatMap ExprTree.names ++
    (s.inner.attach.map fun part => identifiers part.1).flatten
termination_by sizeOf s
decreasing_by exact sizeOf_inner part.2

theorem identifiers_eq (s : StmtTree α) :
    s.identifiers = s.binders ++ s.exprs.flatMap ExprTree.names ++ s.inner.flatMap identifiers := by
  rw [identifiers, List.attach_map_val (f := identifiers), ← List.flatMap_def]

theorem identifiers_exprs {s : StmtTree α} {e : ExprTree α} (member : e ∈ s.exprs) :
    e.names ⊆ s.identifiers := by
  intro x inside
  rw [identifiers_eq]
  exact List.mem_append_left _ (List.mem_append_right _ (List.mem_flatMap.2 ⟨e, member, inside⟩))

theorem identifiers_inner {s part : StmtTree α} (member : part ∈ s.inner) :
    part.identifiers ⊆ s.identifiers := by
  intro x inside
  rw [identifiers_eq]
  exact List.mem_append_right _ (List.mem_flatMap.2 ⟨part, member, inside⟩)

theorem names_subset_identifiers (s : StmtTree α) : s.names ⊆ s.identifiers := by
  induction s using induct with
  | step s ih =>
    intro x inside
    rw [names_eq] at inside
    rcases List.mem_append.1 inside with inside | inside
    · obtain ⟨e, member, inside⟩ := List.mem_flatMap.1 inside
      exact identifiers_exprs member inside
    · obtain ⟨part, member, inside⟩ := List.mem_flatMap.1 inside
      exact identifiers_inner member (ih part member inside)

theorem identifiers_erase (s : StmtTree α) : s.erase.identifiers = s.identifiers := by
  induction s using induct with
  | step s ih =>
    rw [identifiers_eq, identifiers_eq s, binders_erase, exprs_erase, inner_erase, List.flatMap_map,
      List.flatMap_map]
    have exprs : (s.exprs.flatMap fun e => e.erase.names) = s.exprs.flatMap ExprTree.names :=
      List.flatMap_congr fun e _ => e.names_erase
    have inner : (s.inner.flatMap fun part => part.erase.identifiers) = s.inner.flatMap identifiers :=
      List.flatMap_congr ih
    rw [exprs, inner]

section Identifiers

variable (label : α)

@[simp]
theorem identifiers_importAs (module name : String) :
    (importAs label module name).identifiers = [name] := by
  rw [identifiers_eq]
  rfl

@[simp]
theorem identifiers_expr (value : ExprTree α) : (expr label value).identifiers = value.names := by
  rw [identifiers_eq]
  simp [binders, exprs, inner]

@[simp]
theorem identifiers_assign (target value : ExprTree α) :
    (assign label target value).identifiers = target.names ++ value.names := by
  rw [identifiers_eq]
  simp [binders, exprs, inner]

@[simp]
theorem identifiers_define (d : Definition (StmtTree α)) :
    (define label d).identifiers = d.name :: d.params ++ d.body.flatMap identifiers := by
  rw [identifiers_eq]
  simp [binders, exprs, inner]

@[simp]
theorem identifiers_classDef (name : String) (body : List (StmtTree α)) :
    (classDef label name body).identifiers = name :: body.flatMap identifiers := by
  rw [identifiers_eq]
  rfl

@[simp]
theorem identifiers_scoped (context : ExprTree α) (binding : Option (ExprTree α))
    (body : List (StmtTree α)) :
    (StmtTree.scoped label context binding body).identifiers =
      context.names ++ binding.toList.flatMap ExprTree.names ++ body.flatMap identifiers := by
  rw [identifiers_eq]
  simp [binders, exprs, inner]

@[simp]
theorem identifiers_conditional (test : ExprTree α) (body orelse : List (StmtTree α)) :
    (conditional label test body orelse).identifiers =
      test.names ++ body.flatMap identifiers ++ orelse.flatMap identifiers := by
  rw [identifiers_eq]
  simp [binders, exprs, inner]

@[simp]
theorem identifiers_wire (functor : GateFunctor) (operation variant : String) :
    (wire label functor operation variant).identifiers = [] := by
  rw [identifiers_eq]
  rfl

@[simp]
theorem identifiers_pass : (pass label).identifiers = [] := by
  rw [identifiers_eq]
  rfl

end Identifiers

end StmtTree

theorem ExprTree.identifiers_cells (e : ExprTree NodeId) :
    (e.cells.flatMap fun cell => cell.2.identifiers) = e.names := by
  induction e using ExprTree.induct with
  | step id layer ih =>
    have parts : (layer.children.flatMap ExprTree.cells).flatMap (fun cell => cell.2.identifiers) =
        layer.children.flatMap ExprTree.names := by
      rw [List.flatMap_assoc]
      exact List.flatMap_congr ih
    rw [ExprTree.cells_node, ExprTree.names_node, List.flatMap_cons, parts]
    simp only [Node.identifiers, Expr.name?_map]

theorem StmtTree.identifiers_cells (s : StmtTree NodeId) :
    (s.cells.flatMap fun cell => cell.2.identifiers) = s.identifiers := by
  induction s using StmtTree.induct with
  | step s ih =>
    have exprs : (s.exprs.flatMap ExprTree.cells).flatMap (fun cell => cell.2.identifiers) =
        s.exprs.flatMap ExprTree.names := by
      rw [List.flatMap_assoc]
      exact List.flatMap_congr fun e _ => e.identifiers_cells
    have inner : (s.inner.flatMap StmtTree.cells).flatMap (fun cell => cell.2.identifiers) =
        s.inner.flatMap StmtTree.identifiers := by
      rw [List.flatMap_assoc]
      exact List.flatMap_congr ih
    rw [StmtTree.cells_eq, StmtTree.identifiers_eq, List.flatMap_cons, List.flatMap_append, exprs,
      inner, Node.identifiers, s.identifiers_stmt, List.append_assoc]

theorem identifiers_cells (body : List (StmtTree NodeId)) :
    ((body.flatMap StmtTree.cells).flatMap fun cell => cell.2.identifiers) =
      (body.map StmtTree.erase).flatMap StmtTree.identifiers := by
  rw [List.flatMap_assoc, List.flatMap_map]
  exact List.flatMap_congr fun s _ => s.identifiers_cells.trans s.identifiers_erase.symm

end QuantumLowering
