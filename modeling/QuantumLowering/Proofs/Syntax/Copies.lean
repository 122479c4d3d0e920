import QuantumLowering.Proofs.Syntax.Ownership
import QuantumLowering.Syntax.Copy

namespace QuantumLowering

open TreeM

section List

variable {β γ : Type} (label : β → NodeId) (cells : β → List Cell) (erase : β → γ)
  (act : NodeId → TreeM NodeId)

theorem exists_mapM_copy {t : SyntaxTree} {bs : List β}
    (each : ∀ b ∈ bs, ∀ t₁, Extends [] t t₁ → ∃ b' t₂,
      act (label b) t₁ = .ok (label b') t₂ ∧ erase b' = erase b ∧ Becomes t₁ t₂ [] (cells b')) :
    ∃ (bs' : List β) (t' : SyntaxTree), (bs.map label).mapM act t = .ok (bs'.map label) t' ∧
      bs'.map erase = bs.map erase ∧ Becomes t t' [] (bs'.flatMap cells) := by
  induction bs generalizing t with
  | nil => exact ⟨[], t, rfl, rfl, .refl .nil⟩
  | cons b bs ih =>
    obtain ⟨b', t₁, first, same, adds⟩ := each b (by simp) t (.refl ..)
    obtain ⟨bs', t₂, rest, sames, more⟩ := ih fun b member t₂ ext =>
      each b (by simp [member]) t₂ (adds.ext.trans ext (by simp))
    refine ⟨b' :: bs', t₂, ?_, by simp [same, sames], adds.append_new more⟩
    rw [List.map_cons, List.mapM_cons, run_bind first, run_bind rest]
    rfl

end List

variable {t : SyntaxTree} {depth : Nat}

theorem copy_expr_within {e : ExprTree NodeId} (held : Holds t e.cells) (bound : e.height ≤ depth) :
    ∃ e' t', TreeM.copyWithin depth e.label t = .ok (ExprTree.label e') t' ∧
      e'.erase = e.erase ∧ Becomes t t' [] e'.cells := by
  induction e using ExprTree.induct generalizing t depth with
  | step id layer ih =>
    obtain ⟨depth, rfl⟩ : ∃ d, depth = d + 1 :=
      ⟨depth - 1, by have := (ExprTree.node id layer).height_pos; omega⟩
    obtain ⟨parts, t', ran, same, adds⟩ := exists_mapM_copy ExprTree.label ExprTree.cells
      ExprTree.erase (TreeM.copyWithin depth) fun part member t₁ ext =>
        ih part member (ext.holds (held.part member) (by simp)) (ExprTree.height_part_le bound member)
    have length : parts.length = layer.children.length := by
      have := congrArg List.length same
      simpa using this
    refine ⟨.node t'.size (layer.refill parts), t'.push (.expr ((layer.refill parts).map ExprTree.label)), ?_, ?_, ?_⟩
    · unfold TreeM.copyWithin
      rw [ExprTree.label, run_bind (run_node held.expr_node)]
      have filled : (Node.expr (layer.map ExprTree.label)).traverse (TreeM.copyWithin depth) t =
          .ok (.expr ((layer.refill parts).map ExprTree.label)) t' := by
        simp only [Node.traverse, Expr.traverse_eq_refill, Expr.children_map]
        rw [run_bind (run_map ran), Expr.map_refill _ length]
        rfl
      rw [run_bind filled]
      rfl
    · rw [ExprTree.erase_node, ExprTree.erase_node, Expr.map_refill _ length, same,
        ← Expr.children_map, Expr.refill_children]
    · rw [ExprTree.cells_node, Expr.children_refill length]
      exact adds.cons_new _

theorem copy_stmt_node {s : StmtTree NodeId} (s' : StmtTree NodeId) {t' : SyntaxTree} (held : Holds t s.cells)
    (label : s'.label = t'.size)
    (ran : s.stmt.traverse (TreeM.copyWithin depth) t = .ok s'.stmt t')
    (adds : Becomes t t' [] (s'.exprs.flatMap ExprTree.cells ++ s'.inner.flatMap StmtTree.cells)) :
    ∃ t'', TreeM.copyWithin (depth + 1) s.label t = .ok s'.label t'' ∧ Becomes t t'' [] s'.cells := by
  refine ⟨t'.push (.stmt s'.stmt), ?_, ?_⟩
  · unfold TreeM.copyWithin
    rw [run_bind (run_node held.stmt_node)]
    have filled : (Node.stmt s.stmt).traverse (TreeM.copyWithin depth) t = .ok (.stmt s'.stmt) t' := by
      rw [Node.traverse, run_bind ran]
      rfl
    rw [run_bind filled, label]
    rfl
  · rw [StmtTree.cells_eq, label]
    exact adds.cons_new _

theorem copy_stmt_within {s : StmtTree NodeId} (held : Holds t s.cells) (bound : s.height ≤ depth) :
    ∃ s' t', TreeM.copyWithin depth s.label t = .ok (StmtTree.label s') t' ∧
      s'.erase = s.erase ∧ Becomes t t' [] s'.cells := by
  induction s using StmtTree.induct generalizing t depth with
  | step s ih =>
    obtain ⟨depth, rfl⟩ : ∃ d, depth = d + 1 := ⟨depth - 1, by have := s.height_pos; omega⟩
    have exprs : ∀ e ∈ s.exprs, ∀ t₁, Extends [] t t₁ → ∃ e' t₂,
        TreeM.copyWithin depth e.label t₁ = .ok (ExprTree.label e') t₂ ∧ e'.erase = e.erase ∧
          Becomes t₁ t₂ [] e'.cells := by
      intro e member t₁ ext
      have := StmtTree.height_exprs member
      exact copy_expr_within (ext.holds (held.exprs member) (by simp)) (by omega)
    have block : ∀ body : List (StmtTree NodeId), (∀ part ∈ body, part ∈ s.inner) →
        ∀ t₁, Extends [] t t₁ → ∃ (body' : List (StmtTree NodeId)) (t₂ : SyntaxTree),
          (body.map StmtTree.label).mapM (TreeM.copyWithin depth) t₁ =
            .ok (body'.map StmtTree.label) t₂ ∧
          body'.map StmtTree.erase = body.map StmtTree.erase ∧
          Becomes t₁ t₂ [] (body'.flatMap StmtTree.cells) := by
      intro body inside t₁ ext
      refine exists_mapM_copy _ _ _ _ fun part member t₂ ext' => ?_
      have := StmtTree.height_inner (inside part member)
      exact ih part (inside part member)
        ((ext.trans ext' (by simp)).holds (held.inner (inside part member)) (by simp)) (by omega)
    match s with
    | .importAs id module name =>
      obtain ⟨t', ran, adds⟩ := copy_stmt_node (.importAs t.size module name) held rfl rfl
        (.refl .nil)
      exact ⟨_, t', ran, by simp, adds⟩
    | .wire id functor operation variant =>
      obtain ⟨t', ran, adds⟩ := copy_stmt_node (.wire t.size functor operation variant)
        held rfl rfl (.refl .nil)
      exact ⟨_, t', ran, by simp, adds⟩
    | .pass id =>
      obtain ⟨t', ran, adds⟩ := copy_stmt_node (.pass t.size) held rfl rfl (.refl .nil)
      exact ⟨_, t', ran, by simp, adds⟩
    | .expr id value =>
      obtain ⟨value', t₁, ran, same, adds⟩ := exprs value (by simp [StmtTree.exprs]) t (.refl ..)
      obtain ⟨t', copied, adds'⟩ := copy_stmt_node (.expr t₁.size value') held rfl
        (by rw [StmtTree.stmt, Stmt.traverse, run_bind ran]; rfl)
        (by simpa [StmtTree.exprs, StmtTree.inner] using adds)
      exact ⟨_, t', copied, by simp [same], adds'⟩
    | .assign id target value =>
      obtain ⟨target', t₁, ran, same, adds⟩ := exprs target (by simp [StmtTree.exprs]) t (.refl ..)
      obtain ⟨value', t₂, ran', same', adds'⟩ := exprs value (by simp [StmtTree.exprs]) t₁ adds.ext
      obtain ⟨t', copied, adds''⟩ := copy_stmt_node (.assign t₂.size target' value') held rfl
        (by rw [StmtTree.stmt, Stmt.traverse, run_bind ran, run_bind ran']; rfl)
        (by simpa [StmtTree.exprs, StmtTree.inner] using adds.append_new adds')
      exact ⟨_, t', copied, by simp [same, same'], adds''⟩
    | .define id d =>
      obtain ⟨body', t₁, ran, same, adds⟩ := block d.body (by simp [StmtTree.inner]) t (.refl ..)
      obtain ⟨t', copied, adds'⟩ := copy_stmt_node
        (.define t₁.size ⟨d.name, d.params, body', d.operation⟩) held rfl
        (by rw [StmtTree.stmt, Stmt.traverse, run_bind ran]; rfl)
        (by simpa [StmtTree.exprs, StmtTree.inner] using adds)
      exact ⟨_, t', copied, by simp [same], adds'⟩
    | .classDef id name body =>
      obtain ⟨body', t₁, ran, same, adds⟩ := block body (by simp [StmtTree.inner]) t (.refl ..)
      obtain ⟨t', copied, adds'⟩ := copy_stmt_node (.classDef t₁.size name body') held rfl
        (by rw [StmtTree.stmt, Stmt.traverse, run_bind ran]; rfl)
        (by simpa [StmtTree.exprs, StmtTree.inner] using adds)
      exact ⟨_, t', copied, by simp [same], adds'⟩
    | .scoped id context none body =>
      obtain ⟨context', t₁, ran, same, adds⟩ :=
        exprs context (by simp [StmtTree.exprs]) t (.refl ..)
      obtain ⟨body', t₂, ran', same', adds'⟩ := block body (by simp [StmtTree.inner]) t₁ adds.ext
      obtain ⟨t', copied, adds''⟩ := copy_stmt_node (.scoped t₂.size context' none body')
        held rfl
        (by rw [StmtTree.stmt, Stmt.traverse, run_bind ran]; exact run_bind ran')
        (by simpa [StmtTree.exprs, StmtTree.inner] using adds.append_new adds')
      exact ⟨_, t', copied, by simp [same, same'], adds''⟩
    | .scoped id context (some binding) body =>
      obtain ⟨context', t₁, ran, same, adds⟩ :=
        exprs context (by simp [StmtTree.exprs]) t (.refl ..)
      obtain ⟨binding', t₂, ran', same', adds'⟩ :=
        exprs binding (by simp [StmtTree.exprs]) t₁ adds.ext
      have both := adds.append_new adds'
      obtain ⟨body', t₃, ran'', same'', adds''⟩ :=
        block body (by simp [StmtTree.inner]) t₂ both.ext
      obtain ⟨t', copied, adds'''⟩ := copy_stmt_node
        (.scoped t₃.size context' (some binding') body') held rfl
        (by rw [StmtTree.stmt, Stmt.traverse, run_bind ran]; exact (run_bind (run_map ran')).trans (run_bind ran''))
        (by simpa [StmtTree.exprs, StmtTree.inner] using both.append_new adds'')
      exact ⟨_, t', copied, by simp [same, same', same''], adds'''⟩
    | .conditional id test body orelse =>
      obtain ⟨test', t₁, ran, same, adds⟩ := exprs test (by simp [StmtTree.exprs]) t (.refl ..)
      obtain ⟨body', t₂, ran', same', adds'⟩ :=
        block body (by simp +contextual [StmtTree.inner]) t₁ adds.ext
      have both := adds.append_new adds'
      obtain ⟨orelse', t₃, ran'', same'', adds''⟩ :=
        block orelse (by simp +contextual [StmtTree.inner]) t₂ both.ext
      obtain ⟨t', copied, adds'''⟩ := copy_stmt_node
        (.conditional t₃.size test' body' orelse') held rfl
        (by rw [StmtTree.stmt, Stmt.traverse, run_bind ran, run_bind ran', run_bind ran'']; rfl)
        (by simpa [StmtTree.exprs, StmtTree.inner] using both.append_new adds'')
      exact ⟨_, t', copied, by simp [same, same', same''], adds'''⟩

theorem copy_stmt {s : StmtTree NodeId} (held : Holds t s.cells) :
    ∃ s' t', TreeM.copy s.label t = .ok (StmtTree.label s') t' ∧ s'.erase = s.erase ∧
      Becomes t t' [] s'.cells :=
  copy_stmt_within held (Nat.le_succ_of_le held.height_stmt)

theorem copyBlock_run {block : List (StmtTree NodeId)}
    (held : Holds t (block.flatMap StmtTree.cells)) :
    ∃ (block' : List (StmtTree NodeId)) (t' : SyntaxTree),
      TreeM.copyBlock (block.map StmtTree.label) t = .ok (block'.map StmtTree.label) t' ∧
      block'.map StmtTree.erase = block.map StmtTree.erase ∧
      Becomes t t' [] (block'.flatMap StmtTree.cells) :=
  exists_mapM_copy _ _ _ _ fun s member _ ext =>
    copy_stmt (ext.holds (Holds.flatMap_iff.1 held s member) (by simp))

end QuantumLowering
