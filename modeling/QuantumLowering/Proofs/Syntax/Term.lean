import QuantumLowering.Proofs.Syntax.Layer
import QuantumLowering.Proofs.Syntax.Unfolding

namespace QuantumLowering

inductive ExprTree (α : Type) where
  | node (label : α) (layer : Expr (ExprTree α))

/-- A statement. Expressions and statements cannot stand in each other's place. -/
inductive StmtTree (α : Type) where
  | importAs (label : α) (module : String) (name : String)
  | expr (label : α) (value : ExprTree α)
  | assign (label : α) (target value : ExprTree α)
  | define (label : α) (definition : Definition (StmtTree α))
  | classDef (label : α) (name : String) (body : List (StmtTree α))
  | scoped (label : α) (context : ExprTree α) (binding : Option (ExprTree α))
    (body : List (StmtTree α))
  | conditional (label : α) (test : ExprTree α) (body orelse : List (StmtTree α))
  | wire (label : α) (functor : GateFunctor) (operation : String) (variant : String)
  | pass (label : α)

abbrev ExprTerm := ExprTree Unit

abbrev StmtTerm := StmtTree Unit

abbrev Cell := NodeId × Node NodeId

variable {α : Type}

namespace ExprTree

instance [Inhabited α] : Inhabited (ExprTree α) := ⟨.node default (.tuple [])⟩

def label : ExprTree α → α
  | .node label _ => label

def layer : ExprTree α → Expr (ExprTree α)
  | .node _ layer => layer

@[simp]
theorem label_node (label : α) (layer : Expr (ExprTree α)) : (node label layer).label = label := rfl

@[simp]
theorem layer_node (label : α) (layer : Expr (ExprTree α)) : (node label layer).layer = layer := rfl

theorem sizeOf_part [SizeOf α] {label : α} {layer : Expr (ExprTree α)} {part : ExprTree α}
    (member : part ∈ layer.children) : sizeOf part < sizeOf (node label layer) := by
  have := Expr.sizeOf_lt_of_mem_children member
  simp only [node.sizeOf_spec]
  omega

theorem induct {P : ExprTree α → Prop}
    (step : ∀ label layer, (∀ part ∈ layer.children, P part) → P (.node label layer))
    (e : ExprTree α) : P e :=
  match e with
  | .node label layer => step label layer fun part _ => induct step part
termination_by sizeOf e
decreasing_by exact sizeOf_part ‹_›

def erase : ExprTree α → ExprTerm
  | .node _ layer => .node () (layer.attach.map fun part => erase part.1)
termination_by e => sizeOf e
decreasing_by exact sizeOf_part part.2

@[simp]
theorem erase_node (label : α) (layer : Expr (ExprTree α)) :
    (node label layer).erase = .node () (layer.map erase) := by
  rw [erase, layer.attach_map erase]

def cells : ExprTree NodeId → List Cell
  | .node id layer =>
    (id, .expr (layer.map label)) :: (layer.children.attach.map fun part => cells part.1).flatten
termination_by e => sizeOf e
decreasing_by exact sizeOf_part part.2

@[simp]
theorem cells_node (id : NodeId) (layer : Expr (ExprTree NodeId)) :
    (node id layer).cells = (id, .expr (layer.map label)) :: layer.children.flatMap cells := by
  rw [cells, List.attach_map_val (f := cells), List.flatMap_def]

def unfolding : ExprTree NodeId → Unfolding
  | .node id layer => .node id (layer.children.attach.map fun part => unfolding part.1)
termination_by e => sizeOf e
decreasing_by exact sizeOf_part part.2

@[simp]
theorem unfolding_node (id : NodeId) (layer : Expr (ExprTree NodeId)) :
    (node id layer).unfolding = .node id (layer.children.map unfolding) := by
  rw [unfolding, List.attach_map_val (f := unfolding)]

def ids (e : ExprTree NodeId) : List NodeId := e.cells.map Prod.fst

@[simp]
theorem ids_node (id : NodeId) (layer : Expr (ExprTree NodeId)) :
    (node id layer).ids = id :: layer.children.flatMap ids := by
  simp only [ids, cells_node, List.map_cons, List.map_flatMap]
  rfl

@[simp]
theorem root_unfolding (e : ExprTree NodeId) : e.unfolding.root = e.label := by
  cases e
  simp [Unfolding.root, label]

theorem ids_unfolding (e : ExprTree NodeId) : e.unfolding.ids = e.ids := by
  induction e using induct with
  | step id layer ih =>
    simp only [unfolding_node, Unfolding.ids, ids_node, List.map_map, List.flatMap_def]
    congr 2
    exact List.map_congr_left ih

theorem exists_of_mem_cells (e : ExprTree NodeId) {cell : Cell} (member : cell ∈ e.cells) :
    ∃ layer, cell.2 = .expr layer := by
  induction e using induct with
  | step id layer ih =>
    rw [cells_node, List.mem_cons] at member
    rcases member with rfl | member
    · exact ⟨_, rfl⟩
    · obtain ⟨part, listed, inside⟩ := List.mem_flatMap.1 member
      exact ih part listed inside

def height (e : ExprTree NodeId) : Nat := e.unfolding.height

theorem height_part {id : NodeId} {layer : Expr (ExprTree NodeId)} {part : ExprTree NodeId}
    (member : part ∈ layer.children) : part.height < (node id layer).height := by
  rw [height, height, unfolding_node]
  exact Unfolding.height_lt (List.mem_map_of_mem member)

theorem height_part_le {id : NodeId} {layer : Expr (ExprTree NodeId)} {part : ExprTree NodeId}
    {depth : Nat} (bound : (node id layer).height ≤ depth + 1) (member : part ∈ layer.children) :
    part.height ≤ depth :=
  Nat.le_of_lt_succ (Nat.lt_of_lt_of_le (height_part member) bound)

theorem height_pos (e : ExprTree NodeId) : 0 < e.height := Unfolding.height_pos _

end ExprTree

namespace StmtTree

instance [Inhabited α] : Inhabited (StmtTree α) := ⟨.pass default⟩

def label : StmtTree α → α
  | .importAs label .. | .expr label .. | .assign label .. | .define label .. | .classDef label ..
  | .scoped label .. | .conditional label .. | .wire label .. | .pass label => label

def inner : StmtTree α → List (StmtTree α)
  | .define _ d => d.body
  | .classDef _ _ body => body
  | .scoped _ _ _ body => body
  | .conditional _ _ body orelse => body ++ orelse
  | _ => []

def exprs : StmtTree α → List (ExprTree α)
  | .expr _ value => [value]
  | .assign _ target value => [target, value]
  | .scoped _ context binding _ => context :: binding.toList
  | .conditional _ test _ _ => [test]
  | _ => []

theorem sizeOf_inner [SizeOf α] {s part : StmtTree α} (member : part ∈ s.inner) :
    sizeOf part < sizeOf s := by
  have smaller := List.sizeOf_lt_of_mem member
  match s with
  | .define label d =>
    have : sizeOf d.body < sizeOf d := by cases d; simp; omega
    simp only [inner, define.sizeOf_spec] at smaller ⊢
    omega
  | .classDef label name body =>
    simp only [inner, classDef.sizeOf_spec] at smaller ⊢
    omega
  | .scoped label context binding body =>
    simp only [inner, scoped.sizeOf_spec] at smaller ⊢
    omega
  | .conditional label test body orelse =>
    simp only [inner, conditional.sizeOf_spec] at member ⊢
    rcases List.mem_append.1 member with member | member
    all_goals
      have := List.sizeOf_lt_of_mem member
      omega

theorem induct {P : StmtTree α → Prop} (step : ∀ s, (∀ part ∈ s.inner, P part) → P s)
    (s : StmtTree α) : P s :=
  step s fun part _ => induct step part
termination_by sizeOf s
decreasing_by exact sizeOf_inner ‹_›

def stmt : StmtTree NodeId → Stmt NodeId
  | .importAs _ module name => .importAs module name
  | .expr _ value => .expr value.label
  | .assign _ target value => .assign target.label value.label
  | .define _ d => .define ⟨d.name, d.params, d.body.map label, d.operation⟩
  | .classDef _ name body => .classDef name (body.map label)
  | .scoped _ context binding body =>
    .scoped context.label (binding.map ExprTree.label) (body.map label)
  | .conditional _ test body orelse => .conditional test.label (body.map label) (orelse.map label)
  | .wire _ functor operation variant => .wire functor operation variant
  | .pass _ => .pass

theorem children_stmt (s : StmtTree NodeId) :
    s.stmt.children = s.exprs.map ExprTree.label ++ s.inner.map label := by
  match s with
  | .scoped id context none body => rfl
  | .scoped id context (some binding) body => rfl
  | .conditional id test body orelse => simp [stmt, Stmt.children, exprs, inner]
  | .importAs .. | .expr .. | .assign .. | .define .. | .classDef .. | .wire .. | .pass _ => rfl

def erase : StmtTree α → StmtTerm
  | .importAs _ module name => .importAs () module name
  | .expr _ value => .expr () value.erase
  | .assign _ target value => .assign () target.erase value.erase
  | .define _ ⟨name, params, body, operation⟩ =>
    .define () ⟨name, params, body.attach.map fun s => erase s.1, operation⟩
  | .classDef _ name body => .classDef () name (body.attach.map fun s => erase s.1)
  | .scoped _ context binding body =>
    .scoped () context.erase (binding.map ExprTree.erase) (body.attach.map fun s => erase s.1)
  | .conditional _ test body orelse =>
    .conditional () test.erase (body.attach.map fun s => erase s.1)
      (orelse.attach.map fun s => erase s.1)
  | .wire _ functor operation variant => .wire () functor operation variant
  | .pass _ => .pass ()
termination_by s => sizeOf s
decreasing_by all_goals exact sizeOf_inner (by simp [inner, s.2])

def mapParts {β : Type} (relabel : α → β) (onExpr : ExprTree α → ExprTree β)
    (onStmt : StmtTree α → StmtTree β) : StmtTree α → StmtTree β
  | .importAs label module name => .importAs (relabel label) module name
  | .expr label value => .expr (relabel label) (onExpr value)
  | .assign label target value => .assign (relabel label) (onExpr target) (onExpr value)
  | .define label d => .define (relabel label) ⟨d.name, d.params, d.body.map onStmt, d.operation⟩
  | .classDef label name body => .classDef (relabel label) name (body.map onStmt)
  | .scoped label context binding body =>
    .scoped (relabel label) (onExpr context) (binding.map onExpr) (body.map onStmt)
  | .conditional label test body orelse =>
    .conditional (relabel label) (onExpr test) (body.map onStmt) (orelse.map onStmt)
  | .wire label functor operation variant => .wire (relabel label) functor operation variant
  | .pass label => .pass (relabel label)

theorem erase_eq (s : StmtTree α) : s.erase = s.mapParts (fun _ => ()) ExprTree.erase erase := by
  cases s with
  | define label d =>
    cases d
    rw [erase, List.attach_map_val (f := erase), mapParts]
  | classDef => rw [erase, List.attach_map_val (f := erase), mapParts]
  | «scoped» => rw [erase, List.attach_map_val (f := erase), mapParts]
  | conditional =>
    rw [erase, List.attach_map_val (f := erase), List.attach_map_val (f := erase), mapParts]
  | _ => rw [erase, mapParts]

section Erase

variable (label : α)

@[simp]
theorem erase_importAs (module name : String) :
    (importAs label module name).erase = .importAs () module name :=
  erase_eq _

@[simp]
theorem erase_expr (value : ExprTree α) : (expr label value).erase = .expr () value.erase :=
  erase_eq _

@[simp]
theorem erase_assign (target value : ExprTree α) :
    (assign label target value).erase = .assign () target.erase value.erase :=
  erase_eq _

@[simp]
theorem erase_define (d : Definition (StmtTree α)) :
    (define label d).erase = .define () ⟨d.name, d.params, d.body.map erase, d.operation⟩ :=
  erase_eq _

@[simp]
theorem erase_classDef (name : String) (body : List (StmtTree α)) :
    (classDef label name body).erase = .classDef () name (body.map erase) :=
  erase_eq _

@[simp]
theorem erase_scoped (context : ExprTree α) (binding : Option (ExprTree α))
    (body : List (StmtTree α)) :
    (StmtTree.scoped label context binding body).erase =
      .scoped () context.erase (binding.map ExprTree.erase) (body.map erase) :=
  erase_eq _

@[simp]
theorem erase_conditional (test : ExprTree α) (body orelse : List (StmtTree α)) :
    (conditional label test body orelse).erase =
      .conditional () test.erase (body.map erase) (orelse.map erase) :=
  erase_eq _

@[simp]
theorem erase_wire (functor : GateFunctor) (operation variant : String) :
    (wire label functor operation variant).erase = .wire () functor operation variant :=
  erase_eq _

@[simp]
theorem erase_pass : (pass label).erase = .pass () :=
  erase_eq _

end Erase

theorem exprs_erase (s : StmtTree α) : s.erase.exprs = s.exprs.map ExprTree.erase := by
  match s with
  | .scoped _ context none body => simp [exprs]
  | .scoped _ context (some binding) body => simp [exprs]
  | .importAs .. | .expr .. | .assign .. | .define .. | .classDef .. | .conditional .. | .wire ..
  | .pass _ => simp [exprs]

theorem inner_erase (s : StmtTree α) : s.erase.inner = s.inner.map erase := by
  cases s <;> simp [inner]

def cells (s : StmtTree NodeId) : List Cell :=
  (s.label, .stmt s.stmt) ::
    (s.exprs.flatMap ExprTree.cells ++ (s.inner.attach.map fun part => cells part.1).flatten)
termination_by sizeOf s
decreasing_by exact sizeOf_inner part.2

theorem cells_eq (s : StmtTree NodeId) :
    s.cells = (s.label, .stmt s.stmt) ::
      (s.exprs.flatMap ExprTree.cells ++ s.inner.flatMap cells) := by
  rw [cells, List.attach_map_val (f := cells), ← List.flatMap_def]

section Cells

variable (id : NodeId)

@[simp]
theorem cells_importAs (module name : String) :
    (importAs id module name).cells = [(id, .stmt (.importAs module name))] := by
  rw [cells_eq]
  rfl

@[simp]
theorem cells_expr (value : ExprTree NodeId) :
    (expr id value).cells = (id, .stmt (.expr value.label)) :: value.cells := by
  rw [cells_eq]
  simp [label, stmt, exprs, inner]

@[simp]
theorem cells_assign (target value : ExprTree NodeId) :
    (assign id target value).cells =
      (id, .stmt (.assign target.label value.label)) :: (target.cells ++ value.cells) := by
  rw [cells_eq]
  simp [label, stmt, exprs, inner]

@[simp]
theorem cells_define (d : Definition (StmtTree NodeId)) :
    (define id d).cells =
      (id, .stmt (.define ⟨d.name, d.params, d.body.map label, d.operation⟩)) ::
        d.body.flatMap cells := by
  rw [cells_eq]
  rfl

@[simp]
theorem cells_classDef (name : String) (body : List (StmtTree NodeId)) :
    (classDef id name body).cells =
      (id, .stmt (.classDef name (body.map label))) :: body.flatMap cells := by
  rw [cells_eq]
  rfl

@[simp]
theorem cells_scoped (context : ExprTree NodeId) (binding : Option (ExprTree NodeId))
    (body : List (StmtTree NodeId)) :
    (StmtTree.scoped id context binding body).cells =
      (id, .stmt (.scoped context.label (binding.map ExprTree.label) (body.map label))) ::
        (context.cells ++ binding.toList.flatMap ExprTree.cells ++ body.flatMap cells) := by
  rw [cells_eq]
  rfl

@[simp]
theorem cells_conditional (test : ExprTree NodeId) (body orelse : List (StmtTree NodeId)) :
    (conditional id test body orelse).cells =
      (id, .stmt (.conditional test.label (body.map label) (orelse.map label))) ::
        (test.cells ++ (body.flatMap cells ++ orelse.flatMap cells)) := by
  rw [cells_eq]
  simp [label, stmt, exprs, inner]

@[simp]
theorem cells_wire (functor : GateFunctor) (operation variant : String) :
    (wire id functor operation variant).cells = [(id, .stmt (.wire functor operation variant))] := by
  rw [cells_eq]
  rfl

@[simp]
theorem cells_pass : (pass id).cells = [(id, .stmt .pass)] := by
  rw [cells_eq]
  rfl

end Cells

def unfolding (s : StmtTree NodeId) : Unfolding :=
  .node s.label
    (s.exprs.map ExprTree.unfolding ++ s.inner.attach.map fun part => unfolding part.1)
termination_by sizeOf s
decreasing_by exact sizeOf_inner part.2

theorem unfolding_eq (s : StmtTree NodeId) :
    s.unfolding = .node s.label (s.exprs.map ExprTree.unfolding ++ s.inner.map unfolding) := by
  rw [unfolding, List.attach_map_val (f := unfolding)]

def ids (s : StmtTree NodeId) : List NodeId := s.cells.map Prod.fst

theorem ids_eq (s : StmtTree NodeId) :
    s.ids = s.label :: (s.exprs.flatMap ExprTree.ids ++ s.inner.flatMap ids) := by
  simp only [ids, cells_eq s, List.map_cons, List.map_append, List.map_flatMap]
  rfl

@[simp]
theorem root_unfolding (s : StmtTree NodeId) : s.unfolding.root = s.label := by
  rw [unfolding_eq]
  rfl

theorem ids_unfolding (s : StmtTree NodeId) : s.unfolding.ids = s.ids := by
  induction s using induct with
  | step s ih =>
    have exprs : s.exprs.map (Unfolding.ids ∘ ExprTree.unfolding) = s.exprs.map ExprTree.ids :=
      List.map_congr_left fun e _ => e.ids_unfolding
    have inner : s.inner.map (Unfolding.ids ∘ unfolding) = s.inner.map ids :=
      List.map_congr_left ih
    rw [unfolding_eq, ids_eq, Unfolding.ids]
    simp only [List.map_append, List.map_map, exprs, inner, List.flatten_append, List.flatMap_def]

def height (s : StmtTree NodeId) : Nat := s.unfolding.height

theorem height_inner {s part : StmtTree NodeId} (member : part ∈ s.inner) :
    part.height < s.height := by
  rw [height, height, unfolding_eq s]
  exact Unfolding.height_lt (List.mem_append_right _ (List.mem_map_of_mem member))

theorem height_exprs {s : StmtTree NodeId} {e : ExprTree NodeId} (member : e ∈ s.exprs) :
    e.height < s.height := by
  rw [height, unfolding_eq s]
  exact Unfolding.height_lt (List.mem_append_left _ (List.mem_map_of_mem member))

theorem height_pos (s : StmtTree NodeId) : 0 < s.height := Unfolding.height_pos _

end StmtTree

end QuantumLowering
