import QuantumLowering.Proofs.Syntax.Placement

/-!
A tree passes validation exactly when its body unfolds to statements that use no node twice. If
moreover every reference leads to a node of the kind its position asks for, the statements are
placed syntax.
-/

namespace QuantumLowering

namespace SyntaxTree

def IsExpr (t : SyntaxTree) (id : NodeId) : Prop := ∃ e, t.nodes[id]? = some (.expr e)

def IsStmt (t : SyntaxTree) (id : NodeId) : Prop := ∃ s, t.nodes[id]? = some (.stmt s)

end SyntaxTree

def Stmt.exprParts {ι : Type} : Stmt ι → List ι
  | .expr value => [value]
  | .assign target value => [target, value]
  | .scoped context binding _ => context :: binding.toList
  | .conditional test _ _ => [test]
  | _ => []

def Stmt.stmtParts {ι : Type} : Stmt ι → List ι
  | .define d => d.body
  | .classDef _ body => body
  | .scoped _ _ body => body
  | .conditional _ body orelse => body ++ orelse
  | _ => []

theorem Stmt.children_eq_parts {ι : Type} (s : Stmt ι) :
    s.children = s.exprParts ++ s.stmtParts := by
  match s with
  | .scoped context binding body => rfl
  | .conditional .. | .importAs .. | .expr .. | .assign .. | .define .. | .classDef .. | .wire ..
  | .pass => rfl

namespace SyntaxTree

def PartsKinded (t : SyntaxTree) : Node NodeId → Prop
  | .expr e => ∀ part ∈ e.children, t.IsExpr part
  | .stmt s => (∀ part ∈ s.exprParts, t.IsExpr part) ∧ ∀ part ∈ s.stmtParts, t.IsStmt part

/-- The nodes that can be reached from the body. -/
inductive Reachable (t : SyntaxTree) : NodeId → Prop where
  | body {id : NodeId} (member : id ∈ t.body) : Reachable t id
  | part {id part : NodeId} {node : Node NodeId} (above : Reachable t id)
    (found : t.nodes[id]? = some node) (member : part ∈ node.children) : Reachable t part

/-- Expression positions hold expressions and statement positions hold statements, wherever the body
leads. -/
structure WellKinded (t : SyntaxTree) : Prop where
  body : ∀ id ∈ t.body, t.IsStmt id
  parts : ∀ id node, t.Reachable id → t.nodes[id]? = some node → t.PartsKinded node

end SyntaxTree

variable {t : SyntaxTree}

namespace Unfolding

theorem ids_node_append (id : NodeId) (parts rest : List Unfolding) :
    ((node id parts :: rest).flatMap ids) = id :: (parts ++ rest).flatMap ids := by
  simp [ids, List.flatMap_def]

end Unfolding

theorem Spans.reachable {u : Unfolding} (spans : Spans t u)
    (top : t.Reachable u.root) {id : NodeId} (member : id ∈ u.ids) : t.Reachable id := by
  induction spans with
  | @node root parts node found kids below ih =>
    rw [Unfolding.ids, List.mem_cons] at member
    rcases member with rfl | member
    · exact top
    · obtain ⟨listed, from_, inside⟩ := List.mem_flatten.1 member
      obtain ⟨u, under, rfl⟩ := List.mem_map.1 from_
      refine ih u under (.part top found ?_) inside
      rw [kids]
      exact List.mem_map_of_mem under

theorem exists_unfoldings_of_validateFrom {pending seen : List NodeId}
    (valid : t.validateFrom pending seen = .ok ()) :
    ∃ us : List Unfolding, us.map Unfolding.root = pending ∧ (∀ u ∈ us, Spans t u) ∧
      (us.flatMap Unfolding.ids).Nodup ∧ ∀ id ∈ us.flatMap Unfolding.ids, id ∉ seen := by
  fun_induction SyntaxTree.validateFrom t pending seen with
  | case1 => exact ⟨[], rfl, by simp, by simp, by simp⟩
  | case2 => cases valid
  | case3 => cases valid
  | case4 seen id rest kids found again ih =>
    obtain ⟨us, roots, spans, once, apart⟩ := ih valid
    obtain ⟨parts, others, rfl, partRoots, otherRoots⟩ := List.map_eq_append_iff.1 roots
    obtain ⟨node, present, rfl⟩ : ∃ node, t.nodes[id]? = some node ∧ node.children = kids := by
      unfold SyntaxTree.children SyntaxTree.node at found
      cases look : t.nodes[id]? with
      | none => simp [look, Functor.map, Except.map] at found
      | some node =>
        simp only [look, Functor.map, Except.map, Except.ok.injEq] at found
        exact ⟨node, rfl, found⟩
    refine ⟨.node id parts :: others, ?_, ?_, ?_, ?_⟩
    · simp [Unfolding.root, otherRoots]
    · intro u member
      rcases List.mem_cons.1 member with rfl | member
      · exact .node present partRoots.symm fun u inside => spans u (by simp [inside])
      · exact spans u (by simp [member])
    · rw [Unfolding.ids_node_append, List.nodup_cons]
      exact ⟨fun member => apart id member (by simp), once⟩
    · intro other member
      rw [Unfolding.ids_node_append] at member
      rcases List.mem_cons.1 member with rfl | member
      · exact again
      · exact fun inside => apart other member (by simp [inside])

theorem validateFrom_of_unfoldings (us : List Unfolding) (seen : List NodeId)
    (spans : ∀ u ∈ us, Spans t u) (once : (us.flatMap Unfolding.ids).Nodup)
    (apart : ∀ id ∈ us.flatMap Unfolding.ids, id ∉ seen) :
    t.validateFrom (us.map Unfolding.root) seen = .ok () := by
  match us with
  | [] =>
    rw [List.map_nil, SyntaxTree.validateFrom]
  | .node id parts :: rest =>
    have kids := (spans (.node id parts) (by simp)).children_eq
    rw [Unfolding.ids_node_append] at once apart
    obtain ⟨new, once⟩ := List.nodup_cons.1 once
    have notSeen := apart id (by simp)
    have next := validateFrom_of_unfoldings (parts ++ rest) (id :: seen) ?_ once ?_
    · rw [List.map_cons, Unfolding.root, SyntaxTree.validateFrom]
      split
      · rename_i failed
        rw [kids] at failed
        cases failed
      · rename_i found
        rw [kids] at found
        cases found
        simpa [notSeen] using next
    · intro u member
      rcases List.mem_append.1 member with member | member
      · exact (spans (.node id parts) (by simp)).parts_span u member
      · exact spans u (by simp [member])
    · intro other member inside
      rcases List.mem_cons.1 inside with rfl | inside
      · exact new member
      · exact apart other (List.mem_cons_of_mem _ member) inside
termination_by (us.flatMap Unfolding.ids).length
decreasing_by
  rw [Unfolding.ids_node_append]
  simp

theorem exists_choice {β : Type} [Inhabited β] {P : NodeId → β → Prop} {ids : List NodeId}
    (each : ∀ id ∈ ids, ∃ b, P id b) : ∃ pick : NodeId → β, ∀ id ∈ ids, P id (pick id) := by
  classical
  refine ⟨fun id => if h : ∃ b, P id b then h.choose else default, fun id member => ?_⟩
  simp only [each id member, ↓reduceDIte]
  exact (each id member).choose_spec

theorem exists_expr {u : Unfolding} (kinded : t.WellKinded) (spans : Spans t u)
    (top : t.Reachable u.root) (kind : t.IsExpr u.root) :
    ∃ e : ExprTree NodeId, e.label = u.root ∧ Holds t e.cells := by
  induction spans with
  | @node id parts node found kids _ ih =>
    obtain ⟨layer, present⟩ := kind
    cases (Option.some.inj (found.symm.trans present) : node = .expr layer)
    have partKinds := kinded.parts _ _ top found
    have each : ∀ part ∈ layer.children, ∃ e : ExprTree NodeId,
        e.label = part ∧ Holds t e.cells := by
      intro part member
      have member' := member
      rw [show layer.children = parts.map Unfolding.root from kids] at member'
      obtain ⟨u, below, rfl⟩ := List.mem_map.1 member'
      exact ih u below (.part top found member) (partKinds _ member)
    obtain ⟨pick, picked⟩ := exists_choice each
    refine ⟨.node id (layer.map pick), rfl, ?_⟩
    have labels : (layer.map pick).map ExprTree.label = layer := by
      rw [Expr.map_map]
      exact (Expr.map_congr fun part member => (picked part member).1).trans layer.map_id
    simp only [ExprTree.cells_node, Holds.cons_iff, Holds.flatMap_iff, labels, Expr.children_map]
    refine ⟨present, fun e member => ?_⟩
    obtain ⟨part, below, rfl⟩ := List.mem_map.1 member
    exact (picked part below).2

def Stmt.place (pick : NodeId → ExprTree NodeId) (pick' : NodeId → StmtTree NodeId) (id : NodeId) :
    Stmt NodeId → StmtTree NodeId
  | .importAs module name => .importAs id module name
  | .expr value => .expr id (pick value)
  | .assign target value => .assign id (pick target) (pick value)
  | .define d => .define id ⟨d.name, d.params, d.body.map pick', d.operation⟩
  | .classDef name body => .classDef id name (body.map pick')
  | .scoped context binding body =>
    .scoped id (pick context) (binding.map pick) (body.map pick')
  | .conditional test body orelse =>
    .conditional id (pick test) (body.map pick') (orelse.map pick')
  | .wire functor operation variant => .wire id functor operation variant
  | .pass => .pass id

section Place

variable (pick : NodeId → ExprTree NodeId) (pick' : NodeId → StmtTree NodeId) (id : NodeId)

theorem Stmt.label_place (s : Stmt NodeId) : (s.place pick pick' id).label = id := by
  cases s <;> rfl

theorem Stmt.exprs_place (s : Stmt NodeId) :
    (s.place pick pick' id).exprs = s.exprParts.map pick := by
  match s with
  | .scoped context none body | .scoped context (some binding) body => rfl
  | .importAs .. | .expr .. | .assign .. | .define .. | .classDef .. | .conditional .. | .wire ..
  | .pass => rfl

theorem Stmt.inner_place (s : Stmt NodeId) :
    (s.place pick pick' id).inner = s.stmtParts.map pick' := by
  cases s <;> simp [Stmt.place, StmtTree.inner, Stmt.stmtParts]

theorem map_label_pick {β : Type} {label : β → NodeId} {pick : NodeId → β} (ids : List NodeId)
    (labels : ∀ id ∈ ids, label (pick id) = id) : (ids.map pick).map label = ids := by
  rw [List.map_map]
  exact (List.map_congr_left labels).trans (List.map_id ids)

variable {pick pick'}

theorem Stmt.stmt_place {s : Stmt NodeId} (labels : ∀ part ∈ s.exprParts, (pick part).label = part)
    (labels' : ∀ part ∈ s.stmtParts, (pick' part).label = part) :
    (s.place pick pick' id).stmt = s := by
  match s with
  | .importAs .. | .wire .. | .pass => rfl
  | .expr value | .assign target value => simp_all [Stmt.place, StmtTree.stmt, Stmt.exprParts]
  | .define d =>
    simp only [Stmt.place, StmtTree.stmt, map_label_pick d.body labels']
  | .classDef name body =>
    simp only [Stmt.place, StmtTree.stmt, map_label_pick body labels']
  | .scoped context binding body =>
    have bound : (binding.map pick).map ExprTree.label = binding := by
      cases binding with
      | none => rfl
      | some b => simp [labels b (by simp [Stmt.exprParts])]
    simp only [Stmt.place, StmtTree.stmt, map_label_pick body labels', bound,
      labels context (by simp [Stmt.exprParts])]
  | .conditional test body orelse =>
    have first := map_label_pick body fun id member =>
      labels' id (List.mem_append_left _ member)
    have second := map_label_pick orelse fun id member =>
      labels' id (List.mem_append_right _ member)
    simp only [Stmt.place, StmtTree.stmt, first, second, labels test (by simp [Stmt.exprParts])]

end Place

theorem exists_stmt {u : Unfolding} (kinded : t.WellKinded) (spans : Spans t u)
    (top : t.Reachable u.root) (kind : t.IsStmt u.root) :
    ∃ s : StmtTree NodeId, s.label = u.root ∧ Holds t s.cells := by
  induction spans with
  | @node id parts node found kids below ih =>
    obtain ⟨layer, present⟩ := kind
    cases (Option.some.inj (found.symm.trans present) : node = .stmt layer)
    have children : layer.exprParts ++ layer.stmtParts = parts.map Unfolding.root :=
      layer.children_eq_parts.symm.trans kids
    have partKinds := kinded.parts _ _ top found
    have reach : ∀ part ∈ layer.exprParts ++ layer.stmtParts, t.Reachable part :=
      fun part member =>
        .part top found (by rw [Node.children, layer.children_eq_parts]; exact member)
    have eachExpr : ∀ part ∈ layer.exprParts, ∃ e : ExprTree NodeId,
        e.label = part ∧ Holds t e.cells := by
      intro part member
      have member' := List.mem_append_left layer.stmtParts member
      have reached := reach part member'
      rw [children] at member'
      obtain ⟨u, inside, rfl⟩ := List.mem_map.1 member'
      exact exists_expr kinded (below u inside) reached (partKinds.1 _ member)
    have eachStmt : ∀ part ∈ layer.stmtParts, ∃ s : StmtTree NodeId,
        s.label = part ∧ Holds t s.cells := by
      intro part member
      have member' := List.mem_append_right layer.exprParts member
      have reached := reach part member'
      rw [children] at member'
      obtain ⟨u, inside, rfl⟩ := List.mem_map.1 member'
      exact ih u inside reached (partKinds.2 _ member)
    obtain ⟨pick, picked⟩ := exists_choice eachExpr
    obtain ⟨pick', picked'⟩ := exists_choice eachStmt
    refine ⟨layer.place pick pick' id, layer.label_place .., ?_⟩
    rw [StmtTree.cells_eq, Stmt.label_place, Stmt.exprs_place, Stmt.inner_place,
      Stmt.stmt_place id (fun part member => (picked part member).1)
        fun part member => (picked' part member).1]
    simp only [Holds.cons_iff, Holds.append_iff, Holds.flatMap_iff]
    refine ⟨present, fun e member => ?_, fun s member => ?_⟩
    · obtain ⟨part, inside, rfl⟩ := List.mem_map.1 member
      exact (picked part inside).2
    · obtain ⟨part, inside, rfl⟩ := List.mem_map.1 member
      exact (picked' part inside).2

/-- A tree that passes validation and respects kinds holds the statements of its body, and they use
every node once. -/
theorem exists_body (kinded : t.WellKinded) (valid : t.validate = .ok ()) :
    ∃ body : List (StmtTree NodeId), body.map StmtTree.label = t.body ∧
      Holds t (body.flatMap StmtTree.cells) ∧ (body.flatMap StmtTree.ids).Nodup := by
  obtain ⟨us, roots, spans, once, -⟩ := exists_unfoldings_of_validateFrom valid
  have each : ∀ id ∈ t.body, ∃ s : StmtTree NodeId, s.label = id ∧ Holds t s.cells := by
    intro id member
    have top : t.Reachable id := .body member
    have kind := kinded.body id member
    rw [← roots] at member
    obtain ⟨u, inside, rfl⟩ := List.mem_map.1 member
    exact exists_stmt kinded (spans u inside) top kind
  obtain ⟨pick, picked⟩ := exists_choice each
  have labels : (t.body.map pick).map StmtTree.label = t.body :=
    map_label_pick t.body fun id member => (picked id member).1
  have held : ∀ s ∈ t.body.map pick, Holds t s.cells := by
    intro s member
    obtain ⟨id, inside, rfl⟩ := List.mem_map.1 member
    exact (picked id inside).2
  have same : (t.body.map pick).map StmtTree.unfolding = us := by
    apply Spans.eq_of_roots
    · intro u hu v hv
      obtain ⟨s, inside, rfl⟩ := List.mem_map.1 hu
      exact (held s inside).spans_stmt.eq_of_root (spans v hv)
    · rw [roots, List.map_map]
      exact (List.map_congr_left fun s _ => s.root_unfolding).trans labels
  refine ⟨t.body.map pick, labels, Holds.flatMap_iff.2 held, ?_⟩
  rw [← same, List.flatMap_map] at once
  simpa only [StmtTree.ids_unfolding] using once

theorem ExprTree.label_mem_cells (e : ExprTree NodeId) : ∃ node, (e.label, node) ∈ e.cells := by
  cases e
  simp [ExprTree.label]

theorem StmtTree.label_mem_cells (s : StmtTree NodeId) : (s.label, .stmt s.stmt) ∈ s.cells := by
  rw [cells_eq]
  exact List.mem_cons_self

theorem Holds.isExpr {e : ExprTree NodeId} (held : Holds t e.cells) : t.IsExpr e.label := by
  cases e
  exact ⟨_, held.expr_node⟩

theorem Holds.isStmt {s : StmtTree NodeId} (held : Holds t s.cells) : t.IsStmt s.label :=
  ⟨_, held.stmt_node⟩

def Closed (t : SyntaxTree) (cells : List Cell) (cell : Cell) : Prop :=
  t.PartsKinded cell.2 ∧ ∀ part ∈ cell.2.children, ∃ node, (part, node) ∈ cells

theorem Closed.mono {cells more : List Cell} {cell : Cell} (closed : Closed t cells cell)
    (sub : ∀ c ∈ cells, c ∈ more) : Closed t more cell :=
  ⟨closed.1, fun part member =>
    let ⟨node, inside⟩ := closed.2 part member
    ⟨node, sub _ inside⟩⟩

theorem Holds.closed_expr {e : ExprTree NodeId} (held : Holds t e.cells) :
    ∀ cell ∈ e.cells, Closed t e.cells cell := by
  induction e using ExprTree.induct with
  | step id layer ih =>
    have below : ∀ part ∈ layer.children, ∀ c ∈ part.cells, c ∈ (ExprTree.node id layer).cells := by
      intro part member c inside
      rw [ExprTree.cells_node]
      exact List.mem_cons_of_mem _ (List.mem_flatMap.2 ⟨part, member, inside⟩)
    intro cell member
    rw [ExprTree.cells_node] at member
    rcases List.mem_cons.1 member with rfl | member
    · constructor
      · intro part inside
        rw [Expr.children_map] at inside
        obtain ⟨e, listed, rfl⟩ := List.mem_map.1 inside
        exact (held.part listed).isExpr
      · intro part inside
        rw [Node.children, Expr.children_map] at inside
        obtain ⟨e, listed, rfl⟩ := List.mem_map.1 inside
        obtain ⟨node, placed⟩ := e.label_mem_cells
        exact ⟨node, below e listed _ placed⟩
    · obtain ⟨part, inside, member⟩ := List.mem_flatMap.1 member
      exact (ih part inside (held.part inside) cell member).mono (below part inside)

theorem StmtTree.exprParts_stmt (s : StmtTree NodeId) :
    s.stmt.exprParts = s.exprs.map ExprTree.label := by
  match s with
  | .scoped id context none body | .scoped id context (some binding) body => rfl
  | .importAs .. | .expr .. | .assign .. | .define .. | .classDef .. | .conditional .. | .wire ..
  | .pass _ => rfl

theorem StmtTree.stmtParts_stmt (s : StmtTree NodeId) :
    s.stmt.stmtParts = s.inner.map StmtTree.label := by
  cases s <;> simp [StmtTree.stmt, Stmt.stmtParts, StmtTree.inner]

theorem Holds.closed_stmt {s : StmtTree NodeId} (held : Holds t s.cells) :
    ∀ cell ∈ s.cells, Closed t s.cells cell := by
  induction s using StmtTree.induct with
  | step s ih =>
    have exprCells : ∀ e ∈ s.exprs, ∀ c ∈ e.cells, c ∈ s.cells := by
      intro e member c inside
      rw [StmtTree.cells_eq]
      exact List.mem_cons_of_mem _
        (List.mem_append_left _ (List.mem_flatMap.2 ⟨e, member, inside⟩))
    have innerCells : ∀ part ∈ s.inner, ∀ c ∈ part.cells, c ∈ s.cells := by
      intro part member c inside
      rw [StmtTree.cells_eq]
      exact List.mem_cons_of_mem _
        (List.mem_append_right _ (List.mem_flatMap.2 ⟨part, member, inside⟩))
    intro cell member
    rw [StmtTree.cells_eq] at member
    rcases List.mem_cons.1 member with rfl | member
    · refine ⟨⟨?_, ?_⟩, ?_⟩
      · intro part inside
        rw [StmtTree.exprParts_stmt] at inside
        obtain ⟨e, listed, rfl⟩ := List.mem_map.1 inside
        exact (held.exprs listed).isExpr
      · intro part inside
        rw [StmtTree.stmtParts_stmt] at inside
        obtain ⟨s', listed, rfl⟩ := List.mem_map.1 inside
        exact (held.inner listed).isStmt
      · intro part inside
        rw [Node.children, StmtTree.children_stmt] at inside
        rcases List.mem_append.1 inside with inside | inside
        · obtain ⟨e, listed, rfl⟩ := List.mem_map.1 inside
          obtain ⟨node, placed⟩ := e.label_mem_cells
          exact ⟨node, exprCells e listed _ placed⟩
        · obtain ⟨s', listed, rfl⟩ := List.mem_map.1 inside
          exact ⟨_, innerCells s' listed _ s'.label_mem_cells⟩
    · rcases List.mem_append.1 member with member | member
      · obtain ⟨e, inside, member⟩ := List.mem_flatMap.1 member
        exact ((held.exprs inside).closed_expr cell member).mono (exprCells e inside)
      · obtain ⟨part, inside, member⟩ := List.mem_flatMap.1 member
        exact (ih part inside (held.inner inside) cell member).mono (innerCells part inside)

section Body

variable {body : List (StmtTree NodeId)} (labels : body.map StmtTree.label = t.body)
  (held : Holds t (body.flatMap StmtTree.cells))

include held in
theorem closed_body : ∀ cell ∈ body.flatMap StmtTree.cells,
    Closed t (body.flatMap StmtTree.cells) cell := by
  intro cell member
  obtain ⟨s, inside, member⟩ := List.mem_flatMap.1 member
  exact ((Holds.flatMap_iff.1 held s inside).closed_stmt cell member).mono
    fun c placed => List.mem_flatMap.2 ⟨s, inside, placed⟩

include labels held

theorem reachable_placed {id : NodeId} (reach : t.Reachable id) :
    ∃ node, (id, node) ∈ body.flatMap StmtTree.cells := by
  induction reach with
  | body member =>
    rw [← labels] at member
    obtain ⟨s, inside, rfl⟩ := List.mem_map.1 member
    exact ⟨_, List.mem_flatMap.2 ⟨s, inside, s.label_mem_cells⟩⟩
  | part _ found member ih =>
    obtain ⟨node, placed⟩ := ih
    have same := found.symm.trans (held _ placed)
    cases same
    exact (closed_body held _ placed).2 _ member

theorem wellKinded_of_placed : t.WellKinded := by
  constructor
  · intro id member
    rw [← labels] at member
    obtain ⟨s, inside, rfl⟩ := List.mem_map.1 member
    exact (Holds.flatMap_iff.1 held s inside).isStmt
  · intro id node reach found
    obtain ⟨other, placed⟩ := reachable_placed labels held reach
    have same := found.symm.trans (held _ placed)
    cases same
    exact (closed_body held _ placed).1

theorem validate_of_placed (once : (body.flatMap StmtTree.ids).Nodup) : t.validate = .ok () := by
  have roots : (body.map StmtTree.unfolding).map Unfolding.root = t.body := by
    rw [← labels, List.map_map]
    exact List.map_congr_left fun s _ => s.root_unfolding
  have ids : (body.map StmtTree.unfolding).flatMap Unfolding.ids = body.flatMap StmtTree.ids := by
    rw [List.flatMap_map]
    simp only [StmtTree.ids_unfolding]
  rw [SyntaxTree.validate, ← roots]
  apply validateFrom_of_unfoldings
  · intro u member
    obtain ⟨s, inside, rfl⟩ := List.mem_map.1 member
    exact (Holds.flatMap_iff.1 held s inside).spans_stmt
  · rw [ids]
    exact once
  · intro id _ seen
    cases seen

end Body

end QuantumLowering
