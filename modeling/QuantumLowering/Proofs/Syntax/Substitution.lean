import QuantumLowering.Proofs.Syntax.Placement

namespace QuantumLowering

/-- What the names stand for. A name without an entry stands for itself. -/
abbrev Substitution := String → Option ExprTerm

variable {α : Type}

namespace Expr

variable {ι : Type}

def name? : Expr ι → Option String
  | .name x => some x
  | _ => none

@[simp]
theorem name?_map {κ : Type} (f : ι → κ) (e : Expr ι) : (e.map f).name? = e.name? := by
  cases e <;> rfl

@[simp]
theorem name?_refill (e : Expr ι) (parts : List ι) : (e.refill parts).name? = e.name? := by
  cases e <;> rfl

theorem eq_name {e : Expr ι} {x : String} (named : e.name? = some x) : e = .name x := by
  cases e <;> cases named
  rfl

end Expr

namespace ExprTree

def names : ExprTree α → List String
  | .node _ layer =>
    layer.name?.toList ++ (layer.children.attach.map fun part => names part.1).flatten
termination_by e => sizeOf e
decreasing_by exact sizeOf_part part.2

@[simp]
theorem names_node (label : α) (layer : Expr (ExprTree α)) :
    (node label layer).names = layer.name?.toList ++ layer.children.flatMap names := by
  rw [names, List.attach_map_val (f := names), ← List.flatMap_def]

def subst (σ : Substitution) : ExprTerm → ExprTerm
  | .node _ layer =>
    (layer.name?.bind σ).getD (.node () (layer.attach.map fun part => subst σ part.1))
termination_by e => sizeOf e
decreasing_by exact sizeOf_part part.2

theorem subst_node (σ : Substitution) (layer : Expr ExprTerm) :
    subst σ (.node () layer) = (layer.name?.bind σ).getD (.node () (layer.map (subst σ))) := by
  rw [subst, layer.attach_map (subst σ)]

theorem names_erase (e : ExprTree α) : e.erase.names = e.names := by
  induction e using induct with
  | step label layer ih =>
    rw [erase_node, names_node, names_node, Expr.name?_map, Expr.children_map, List.flatMap_map]
    simp only [List.flatMap_def]
    rw [List.map_congr_left ih]

theorem subst_eq_self {σ : Substitution} {e : ExprTerm} (outside : ∀ x ∈ e.names, σ x = none) :
    e.subst σ = e := by
  induction e using induct with
  | step label layer ih =>
    rw [names_node] at outside
    have untouched : layer.name?.bind σ = none := by
      cases named : layer.name? with
      | none => rfl
      | some x => exact outside x (by simp [named])
    have parts : layer.map (subst σ) = layer.map fun part => part :=
      Expr.map_congr fun part member => ih part member fun x inside =>
        outside x (List.mem_append_right _ (List.mem_flatMap.2 ⟨part, member, inside⟩))
    rw [subst_node, untouched, parts, Expr.map_id]
    rfl

theorem subst_refill {σ : Substitution} {layer : Expr ExprTerm} {parts : List ExprTerm}
    (outside : layer.name?.bind σ = none) (undone : parts.map (subst σ) = layer.children) :
    subst σ (.node () (layer.refill parts)) = .node () layer := by
  have length : parts.length = layer.children.length := by rw [← undone, List.length_map]
  rw [subst_node, Expr.name?_refill, outside, Expr.map_refill _ length, undone,
    Expr.refill_map _ rfl, Expr.refill_children]
  rfl

end ExprTree

namespace StmtTree

def names (s : StmtTree α) : List String :=
  s.exprs.flatMap ExprTree.names ++ (s.inner.attach.map fun part => names part.1).flatten
termination_by sizeOf s
decreasing_by exact sizeOf_inner part.2

theorem names_eq (s : StmtTree α) :
    s.names = s.exprs.flatMap ExprTree.names ++ s.inner.flatMap names := by
  rw [names, List.attach_map_val (f := names), ← List.flatMap_def]

theorem names_exprs {s : StmtTree α} {e : ExprTree α} (member : e ∈ s.exprs) :
    e.names ⊆ s.names := by
  intro x inside
  rw [names_eq]
  exact List.mem_append_left _ (List.mem_flatMap.2 ⟨e, member, inside⟩)

theorem names_inner {s part : StmtTree α} (member : part ∈ s.inner) : part.names ⊆ s.names := by
  intro x inside
  rw [names_eq s]
  exact List.mem_append_right _ (List.mem_flatMap.2 ⟨part, member, inside⟩)

def mapExprs (f : ExprTerm → ExprTerm) : StmtTerm → StmtTerm
  | .importAs _ module name => .importAs () module name
  | .expr _ value => .expr () (f value)
  | .assign _ target value => .assign () (f target) (f value)
  | .define _ ⟨name, params, body, operation⟩ =>
    .define () ⟨name, params, body.attach.map fun s => mapExprs f s.1, operation⟩
  | .classDef _ name body => .classDef () name (body.attach.map fun s => mapExprs f s.1)
  | .scoped _ context binding body =>
    .scoped () (f context) (binding.map f) (body.attach.map fun s => mapExprs f s.1)
  | .conditional _ test body orelse =>
    .conditional () (f test) (body.attach.map fun s => mapExprs f s.1)
      (orelse.attach.map fun s => mapExprs f s.1)
  | .wire _ functor operation variant => .wire () functor operation variant
  | .pass _ => .pass ()
termination_by s => sizeOf s
decreasing_by all_goals exact sizeOf_inner (by simp [inner, s.2])

section MapExprs

variable (f : ExprTerm → ExprTerm)

theorem mapExprs_eq (s : StmtTerm) : mapExprs f s = s.mapParts (fun _ => ()) f (mapExprs f) := by
  cases s with
  | define label d =>
    cases d
    rw [mapExprs, List.attach_map_val (f := mapExprs f), mapParts]
  | classDef => rw [mapExprs, List.attach_map_val (f := mapExprs f), mapParts]
  | «scoped» => rw [mapExprs, List.attach_map_val (f := mapExprs f), mapParts]
  | conditional =>
    rw [mapExprs, List.attach_map_val (f := mapExprs f), List.attach_map_val (f := mapExprs f),
      mapParts]
  | _ => rw [mapExprs, mapParts]

@[simp]
theorem mapExprs_importAs (module name : String) :
    mapExprs f (.importAs () module name) = .importAs () module name :=
  mapExprs_eq f _

@[simp]
theorem mapExprs_expr (value : ExprTerm) : mapExprs f (.expr () value) = .expr () (f value) :=
  mapExprs_eq f _

@[simp]
theorem mapExprs_assign (target value : ExprTerm) :
    mapExprs f (.assign () target value) = .assign () (f target) (f value) :=
  mapExprs_eq f _

@[simp]
theorem mapExprs_define (d : Definition StmtTerm) : mapExprs f (.define () d) =
    .define () ⟨d.name, d.params, d.body.map (mapExprs f), d.operation⟩ :=
  mapExprs_eq f _

@[simp]
theorem mapExprs_classDef (name : String) (body : List StmtTerm) :
    mapExprs f (.classDef () name body) = .classDef () name (body.map (mapExprs f)) :=
  mapExprs_eq f _

@[simp]
theorem mapExprs_scoped (context : ExprTerm) (binding : Option ExprTerm) (body : List StmtTerm) :
    mapExprs f (.scoped () context binding body) =
      .scoped () (f context) (binding.map f) (body.map (mapExprs f)) :=
  mapExprs_eq f _

@[simp]
theorem mapExprs_conditional (test : ExprTerm) (body orelse : List StmtTerm) :
    mapExprs f (.conditional () test body orelse) =
      .conditional () (f test) (body.map (mapExprs f)) (orelse.map (mapExprs f)) :=
  mapExprs_eq f _

@[simp]
theorem mapExprs_wire (functor : GateFunctor) (operation variant : String) :
    mapExprs f (.wire () functor operation variant) = .wire () functor operation variant :=
  mapExprs_eq f _

@[simp]
theorem mapExprs_pass : mapExprs f (.pass ()) = .pass () :=
  mapExprs_eq f _

end MapExprs

def subst (σ : Substitution) : StmtTerm → StmtTerm := mapExprs (ExprTree.subst σ)

theorem subst_eq_self {σ : Substitution} {s : StmtTerm} (outside : ∀ x ∈ s.names, σ x = none) :
    s.subst σ = s := by
  unfold subst
  induction s using induct with
  | step s ih =>
    have exprs : ∀ e ∈ s.exprs, e.subst σ = e := fun e member =>
      ExprTree.subst_eq_self fun x inside => outside x (names_exprs member inside)
    have block : ∀ body : List StmtTerm, (∀ part ∈ body, part ∈ s.inner) →
        body.map (mapExprs (ExprTree.subst σ)) = body := by
      intro body inside
      conv_rhs => rw [← body.map_id]
      refine List.map_congr_left fun part member => ?_
      exact ih part (inside part member) fun x named =>
        outside x (names_inner (inside part member) named)
    match s with
    | .importAs () .. | .wire () .. | .pass () => simp
    | .expr () value => simp [exprs value (by simp [StmtTree.exprs])]
    | .assign () target value =>
      simp [exprs target (by simp [StmtTree.exprs]), exprs value (by simp [StmtTree.exprs])]
    | .define () d => simp [block d.body fun _ inside => inside]
    | .classDef () name body => simp [block body fun _ inside => inside]
    | .scoped () context none body =>
      simp [exprs context (by simp [StmtTree.exprs]), block body fun _ inside => inside]
    | .scoped () context (some binding) body =>
      simp [exprs context (by simp [StmtTree.exprs]), exprs binding (by simp [StmtTree.exprs]),
        block body fun _ inside => inside]
    | .conditional () test body orelse =>
      simp [exprs test (by simp [StmtTree.exprs]),
        block body fun _ inside => List.mem_append_left _ inside,
        block orelse fun _ inside => List.mem_append_right _ inside]

end StmtTree

end QuantumLowering
