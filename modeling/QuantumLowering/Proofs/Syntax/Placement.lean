import QuantumLowering.Proofs.Syntax.Term

/-!
Placed syntax in an arena that changes. What an arena holds it keeps holding while the nodes in
question stay as they are. Computations reuse ids and add new ones; how often an id is used is
counted, so that no id is used twice in the end if none was in the beginning.
-/

namespace QuantumLowering

def Holds (t : SyntaxTree) (cells : List Cell) : Prop :=
  ∀ cell ∈ cells, t.nodes[cell.1]? = some cell.2

namespace Holds

variable {t t' : SyntaxTree} {cells more : List Cell}

@[simp]
theorem nil : Holds t [] := by
  intro cell member
  cases member

@[simp]
theorem cons_iff {cell : Cell} :
    Holds t (cell :: cells) ↔ t.nodes[cell.1]? = some cell.2 ∧ Holds t cells := by
  simp [Holds]

@[simp]
theorem append_iff : Holds t (cells ++ more) ↔ Holds t cells ∧ Holds t more := by
  simp only [Holds, List.mem_append]
  exact ⟨fun h => ⟨fun c m => h c (.inl m), fun c m => h c (.inr m)⟩,
    fun h c m => m.elim (h.1 c) (h.2 c)⟩

@[simp]
theorem flatMap_iff {β : Type} {xs : List β} {f : β → List Cell} :
    Holds t (xs.flatMap f) ↔ ∀ x ∈ xs, Holds t (f x) := by
  induction xs <;> simp_all

theorem frame (held : Holds t cells)
    (same : ∀ id ∈ cells.map Prod.fst, t'.nodes[id]? = t.nodes[id]?) : Holds t' cells := by
  intro cell member
  rw [same cell.1 (List.mem_map_of_mem member)]
  exact held cell member

theorem lt_size (held : Holds t cells) {id : Nat} (member : id ∈ cells.map Prod.fst) :
    id < t.size := by
  obtain ⟨cell, inside, rfl⟩ := List.mem_map.1 member
  exact (Array.getElem?_eq_some_iff.1 (held cell inside)).1

theorem spans_expr {e : ExprTree NodeId} (held : Holds t e.cells) : Spans t e.unfolding := by
  induction e using ExprTree.induct with
  | step id layer ih =>
    simp only [ExprTree.cells_node, cons_iff, flatMap_iff] at held
    rw [ExprTree.unfolding_node]
    refine .node held.1 ?_ ?_
    · simp [Node.children, Function.comp_def]
    · intro u member
      obtain ⟨part, inside, rfl⟩ := List.mem_map.1 member
      exact ih part inside (held.2 part inside)

theorem spans_stmt {s : StmtTree NodeId} (held : Holds t s.cells) : Spans t s.unfolding := by
  induction s using StmtTree.induct with
  | step s ih =>
    simp only [StmtTree.cells_eq s, cons_iff, append_iff, flatMap_iff] at held
    rw [StmtTree.unfolding_eq]
    refine .node held.1 ?_ ?_
    · simp [Node.children, StmtTree.children_stmt, Function.comp_def]
    · intro u member
      rcases List.mem_append.1 member with member | member
      · obtain ⟨e, inside, rfl⟩ := List.mem_map.1 member
        exact (held.2.1 e inside).spans_expr
      · obtain ⟨part, inside, rfl⟩ := List.mem_map.1 member
        exact ih part inside (held.2.2 part inside)

theorem height_expr {e : ExprTree NodeId} (held : Holds t e.cells) : e.height ≤ t.size :=
  held.spans_expr.height_le_size

theorem height_stmt {s : StmtTree NodeId} (held : Holds t s.cells) : s.height ≤ t.size :=
  held.spans_stmt.height_le_size

theorem subtree_expr {e : ExprTree NodeId} (held : Holds t e.cells) :
    t.subtree e.label = .ok e.ids := by
  have walk := held.spans_expr.subtree_eq
  rwa [ExprTree.root_unfolding, ExprTree.ids_unfolding] at walk

theorem subtree_stmt {s : StmtTree NodeId} (held : Holds t s.cells) :
    t.subtree s.label = .ok s.ids := by
  have walk := held.spans_stmt.subtree_eq
  rwa [StmtTree.root_unfolding, StmtTree.ids_unfolding] at walk

theorem expr_node {id : NodeId} {layer : Expr (ExprTree NodeId)}
    (held : Holds t (ExprTree.node id layer).cells) :
    t.nodes[id]? = some (.expr (layer.map ExprTree.label)) := by
  simp only [ExprTree.cells_node, cons_iff] at held
  exact held.1

theorem part {id : NodeId} {layer : Expr (ExprTree NodeId)} {e : ExprTree NodeId}
    (held : Holds t (ExprTree.node id layer).cells) (member : e ∈ layer.children) :
    Holds t e.cells := by
  simp only [ExprTree.cells_node, cons_iff, flatMap_iff] at held
  exact held.2 e member

theorem stmt_node {s : StmtTree NodeId} (held : Holds t s.cells) :
    t.nodes[s.label]? = some (.stmt s.stmt) := by
  simp only [StmtTree.cells_eq s, cons_iff] at held
  exact held.1

theorem inner {s part : StmtTree NodeId} (held : Holds t s.cells) (member : part ∈ s.inner) :
    Holds t part.cells := by
  simp only [StmtTree.cells_eq s, cons_iff, append_iff, flatMap_iff] at held
  exact held.2.2 part member

theorem exprs {s : StmtTree NodeId} {e : ExprTree NodeId} (held : Holds t s.cells)
    (member : e ∈ s.exprs) : Holds t e.cells := by
  simp only [StmtTree.cells_eq s, cons_iff, append_iff, flatMap_iff] at held
  exact held.2.1 e member

end Holds

/-- The ids lead to the statements of the block. -/
def SyntaxTree.Reads (t : SyntaxTree) (ids : List NodeId) (block : List StmtTerm) : Prop :=
  ∃ stmts : List (StmtTree NodeId), stmts.map StmtTree.label = ids ∧
    stmts.map StmtTree.erase = block ∧ Holds t (stmts.flatMap StmtTree.cells)

theorem Holds.eq_expr {t : SyntaxTree} {e e' : ExprTree NodeId} (held : Holds t e.cells)
    (held' : Holds t e'.cells) (same : e.label = e'.label) : e = e' := by
  induction e using ExprTree.induct generalizing e' with
  | step id layer ih =>
    obtain ⟨id', layer'⟩ := e'
    obtain rfl : id = id' := same
    have found := held'.expr_node
    rw [held.expr_node, Option.some.injEq, Node.expr.injEq] at found
    rw [Expr.eq_of_map_eq found fun part member part' member' labels =>
      ih part member (held.part member) (held'.part member') labels]

theorem Holds.eq_stmt {t : SyntaxTree} {s s' : StmtTree NodeId} (held : Holds t s.cells)
    (held' : Holds t s'.cells) (same : s.label = s'.label) : s = s' := by
  induction s using StmtTree.induct generalizing s' with
  | step s ih =>
    have found := held'.stmt_node
    rw [← same, held.stmt_node, Option.some.injEq, Node.stmt.injEq] at found
    have exprs : ∀ e ∈ s.exprs, ∀ e' ∈ s'.exprs, e.label = e'.label → e = e' :=
      fun e member e' member' => (held.exprs member).eq_expr (held'.exprs member')
    have inner : ∀ part ∈ s.inner, ∀ part' ∈ s'.inner, part.label = part'.label → part = part' :=
      fun part member part' member' => ih part member (held.inner member) (held'.inner member')
    clear ih held held'
    cases s <;> cases s' <;> try (cases found; done)
    all_goals
      simp only [StmtTree.stmt, Stmt.importAs.injEq, Stmt.expr.injEq, Stmt.assign.injEq,
        Stmt.define.injEq, Stmt.classDef.injEq, Stmt.scoped.injEq, Stmt.conditional.injEq,
        Stmt.wire.injEq, Definition.mk.injEq] at found
    case expr.expr id value id' value' =>
      obtain rfl : id = id' := same
      rw [exprs value (by simp [StmtTree.exprs]) value' (by simp [StmtTree.exprs]) found]
    case assign.assign id target value id' target' value' =>
      obtain rfl : id = id' := same
      rw [exprs target (by simp [StmtTree.exprs]) target' (by simp [StmtTree.exprs]) found.1,
        exprs value (by simp [StmtTree.exprs]) value' (by simp [StmtTree.exprs]) found.2]
    case define.define id d id' d' =>
      obtain rfl : id = id' := same
      obtain ⟨names, params, labels, operations⟩ := found
      have bodies : d.body = d'.body := eq_of_map_eq labels inner
      cases d
      cases d'
      simp_all
    case classDef.classDef id name body id' name' body' =>
      obtain rfl : id = id' := same
      obtain ⟨rfl, labels⟩ := found
      rw [eq_of_map_eq labels inner]
    case scoped.scoped id context binding body id' context' binding' body' =>
      obtain rfl : id = id' := same
      obtain ⟨contexts, bindings, labels⟩ := found
      have bound : binding = binding' := by
        cases binding <;> cases binding' <;> simp_all [StmtTree.exprs]
      rw [exprs context (by simp [StmtTree.exprs]) context' (by simp [StmtTree.exprs]) contexts,
        bound, eq_of_map_eq labels inner]
    case conditional.conditional id test body orelse id' test' body' orelse' =>
      obtain rfl : id = id' := same
      obtain ⟨tests, labels, labels'⟩ := found
      rw [exprs test (by simp [StmtTree.exprs]) test' (by simp [StmtTree.exprs]) tests,
        eq_of_map_eq labels fun part member part' member' =>
          inner part (List.mem_append_left _ member) part' (List.mem_append_left _ member'),
        eq_of_map_eq labels' fun part member part' member' =>
          inner part (List.mem_append_right _ member) part' (List.mem_append_right _ member')]
    case importAs.importAs id module name id' module' name' =>
      obtain rfl : id = id' := same
      rw [found.1, found.2]
    case wire.wire id functor operation variant id' functor' operation' variant' =>
      obtain rfl : id = id' := same
      rw [found.1, found.2.1, found.2.2]
    case pass.pass id id' =>
      obtain rfl : id = id' := same
      rfl

theorem SyntaxTree.Reads.unique {t : SyntaxTree} {ids : List NodeId} {block block' : List StmtTerm}
    (reads : t.Reads ids block) (reads' : t.Reads ids block') : block = block' := by
  obtain ⟨stmts, labels, rfl, held⟩ := reads
  obtain ⟨stmts', labels', rfl, held'⟩ := reads'
  rw [Holds.flatMap_iff] at held held'
  rw [eq_of_map_eq (labels.trans labels'.symm) fun s member s' member' same =>
    (held s member).eq_stmt (held' s' member') same]

/-- The arena grows and keeps its old nodes apart from those touched. -/
structure Extends (touched : List NodeId) (t t' : SyntaxTree) : Prop where
  size_le : t.size ≤ t'.size
  body_eq : t'.body = t.body
  same : ∀ id : Nat, id < t.size → id ∉ touched → t'.nodes[id]? = t.nodes[id]?

def added (t t' : SyntaxTree) (id : Nat) : Nat := if t.size ≤ id ∧ id < t'.size then 1 else 0

/-- No id is used more often than before, and no new id more than once. -/
def Reuses (t t' : SyntaxTree) (before after : List NodeId) : Prop :=
  ∀ id : Nat, after.count id ≤ before.count id + added t t' id

namespace Extends

variable {t t' t'' : SyntaxTree} {touched more : List NodeId} {cells : List Cell}

theorem refl (touched : List NodeId) (t : SyntaxTree) : Extends touched t t :=
  ⟨Nat.le_refl _, rfl, fun _ _ _ => rfl⟩

theorem trans (first : Extends touched t t') (second : Extends more t' t'')
    (inside : ∀ id : Nat, id ∈ more → id < t.size → id ∈ touched) : Extends touched t t'' := by
  refine ⟨Nat.le_trans first.size_le second.size_le, second.body_eq.trans first.body_eq, ?_⟩
  intro id bound outside
  have kept := second.same id (Nat.lt_of_lt_of_le bound first.size_le)
    fun member => outside (inside id member bound)
  rw [kept, first.same id bound outside]

theorem widen (ext : Extends touched t t') (inside : ∀ id ∈ touched, id ∈ more) :
    Extends more t t' :=
  ⟨ext.size_le, ext.body_eq, fun id bound outside =>
    ext.same id bound fun member => outside (inside id member)⟩

theorem holds (ext : Extends touched t t') (held : Holds t cells)
    (apart : ∀ id ∈ cells.map Prod.fst, id ∉ touched) : Holds t' cells :=
  held.frame fun id member => ext.same id (held.lt_size member) (apart id member)

theorem found {id : NodeId} {node : Node NodeId} (ext : Extends [] t t')
    (found : t.nodes[id]? = some node) : t'.nodes[id]? = some node :=
  (ext.same id (Array.getElem?_eq_some_iff.1 found).1 List.not_mem_nil).trans found

end Extends

theorem Spans.of_extends {t t' : SyntaxTree} {u : Unfolding} (spans : Spans t u)
    (ext : Extends [] t t') : Spans t' u := by
  induction spans with
  | node found kids _ ih => exact .node (ext.found found) kids ih

namespace Reuses

variable {t t' t'' : SyntaxTree} {before between after : List NodeId}

theorem refl (t : SyntaxTree) (ids : List NodeId) : Reuses t t ids ids := by
  intro id
  omega

theorem added_trans (first : t.size ≤ t'.size) (second : t'.size ≤ t''.size) (id : Nat) :
    added t t' id + added t' t'' id = added t t'' id := by
  unfold added
  split <;> split <;> split <;> omega

theorem trans (first : Reuses t t' before between) (second : Reuses t' t'' between after)
    (size : t.size ≤ t'.size) (size' : t'.size ≤ t''.size) : Reuses t t'' before after := by
  intro id
  have := first id
  have := second id
  have := added_trans size size' id
  omega

theorem nodup (reuses : Reuses t t' before after) (once : before.Nodup)
    (bound : ∀ id : Nat, id ∈ before → id < t.size) : after.Nodup := by
  rw [List.nodup_iff_count_le_one] at once ⊢
  intro id
  have := reuses id
  have := once id
  have new : 0 < before.count id → added t t' id = 0 := by
    intro used
    have := bound id (List.count_pos_iff.1 used)
    unfold added
    split <;> omega
  have most : added t t' id ≤ 1 := by
    unfold added
    split <;> omega
  omega

theorem mem (reuses : Reuses t t' before after) {id : Nat} (member : id ∈ after) :
    id ∈ before ∨ (t.size ≤ id ∧ id < t'.size) := by
  by_cases old : id ∈ before
  · exact .inl old
  · have := reuses id
    have := List.count_pos_iff.2 member
    have := List.count_eq_zero.2 old
    unfold added at *
    split at *
    · exact .inr ‹_›
    · omega

end Reuses

end QuantumLowering
