import QuantumLowering.Proofs.Lowering.Chain
import QuantumLowering.Proofs.Lowering.Runs

/-!
Rewriting the calls of an expression. On terms every call is checked before its parts are rewritten
and changed afterwards. In the arena the calls are changed in pre-order, so that a call is changed
while its parts still are what they were; the parts stay where they are, which makes the two agree.
-/

namespace QuantumLowering

/-- What happens to a call: whether it is refused, and what it becomes once its parts have been
rewritten. Both may look at the call as it was. -/
structure CallRule where
  check : Expr ExprTerm → Plan Unit
  finish : Expr ExprTerm → Expr ExprTerm → Expr ExprTerm
  check_other : ∀ layer, layer.isCall = false → check layer = .ok ()
  finish_other : ∀ layer filled, layer.isCall = false → finish layer filled = filled

def CallRule.rewrite (rule : CallRule) : ExprTerm → Plan ExprTerm
  | .node _ layer => do
    rule.check layer
    let parts ← layer.children.attach.mapM fun part => rule.rewrite part.1
    return .node () (rule.finish layer (layer.refill parts))
termination_by e => sizeOf e
decreasing_by exact ExprTree.sizeOf_part part.2

theorem mapM_attach {m : Type → Type} [Monad m] [LawfulMonad m] {β γ : Type} (f : β → m γ)
    (xs : List β) : xs.attach.mapM (fun x => f x.1) = xs.mapM f := by
  have listed := List.mapM_map (f := Subtype.val) (g := f) (l := xs.attach)
  rw [List.attach_map_subtype_val] at listed
  exact listed.symm

theorem CallRule.rewrite_node (rule : CallRule) (layer : Expr ExprTerm) :
    rule.rewrite (.node () layer) = do
      rule.check layer
      let parts ← layer.children.mapM rule.rewrite
      return .node () (rule.finish layer (layer.refill parts)) := by
  rw [CallRule.rewrite, mapM_attach]

namespace ExprTree

variable {α : Type}

/-- The expression down to its calls. Rewriting the calls keeps it. -/
def trunk : ExprTree α → ExprTree α
  | .node label layer =>
    .node label (if layer.isCall then .tuple [] else layer.attach.map fun part => trunk part.1)
termination_by e => sizeOf e
decreasing_by exact sizeOf_part part.2

@[simp]
theorem trunk_node (label : α) (layer : Expr (ExprTree α)) :
    (node label layer).trunk =
      .node label (if layer.isCall then .tuple [] else layer.map trunk) := by
  rw [trunk, layer.attach_map trunk]

@[simp]
theorem label_trunk (e : ExprTree α) : e.trunk.label = e.label := by
  cases e
  rw [trunk_node]
  rfl

@[simp]
theorem chain_trunk (e : ExprTree α) : e.trunk.chain = e.chain := by
  induction e using induct with
  | step label layer ih =>
    rw [trunk_node]
    cases layer with
    | functor f target =>
      simp [Expr.map, Expr.isCall, chain, ih target (by simp [Expr.children])]
    | _ => rfl

@[simp]
theorem base_trunk (e : ExprTree α) : e.trunk.base = e.base.trunk := by
  induction e using induct with
  | step label layer ih =>
    rw [trunk_node]
    cases layer with
    | functor f target =>
      simp [Expr.map, Expr.isCall, base, ih target (by simp [Expr.children])]
    | _ => simp [Expr.map, Expr.isCall, base]

@[simp]
theorem leaves_trunk (e : ExprTree α) : e.trunk.leaves = e.leaves.map trunk := by
  induction e using induct with
  | step label layer ih =>
    cases layer with
    | list items | aggregate items =>
      simp only [trunk_node, Expr.isCall, Expr.map, Bool.false_eq_true, if_false, leaves_list,
        leaves_aggregate, List.flatMap_map, List.map_flatMap]
      exact List.flatMap_congr ih
    | _ =>
      rw [leaves_of_ne, leaves_of_ne]
      · rfl
      all_goals
        simp [layer, Expr.map, Expr.isCall]

variable {d e : ExprTree α}

theorem label_eq_of_trunk (same : d.trunk = e.trunk) : d.label = e.label := by
  rw [← label_trunk, same, label_trunk]

theorem chain_eq_of_trunk (same : d.trunk = e.trunk) : d.chain = e.chain := by
  rw [← chain_trunk, same, chain_trunk]

theorem base_eq_of_trunk (same : d.trunk = e.trunk) : d.base.trunk = e.base.trunk := by
  rw [← base_trunk, same, base_trunk]

theorem leaves_eq_of_trunk (same : d.trunk = e.trunk) :
    d.leaves.map trunk = e.leaves.map trunk := by
  rw [← leaves_trunk, same, leaves_trunk]

theorem map_label_of_trunk {ds es : List (ExprTree α)} (same : ds.map trunk = es.map trunk) :
    ds.map label = es.map label := by
  have labels := congrArg (List.map label) same
  simpa [Function.comp_def] using labels

theorem layer_label_of_trunk {x y : Expr (ExprTree α)} (same : x.map trunk = y.map trunk) :
    x.map label = y.map label := by
  have labels := congrArg (Expr.map label) same
  simpa [Function.comp_def] using labels

theorem trunk_refill {layer : Expr (ExprTree α)} {parts : List (ExprTree α)}
    (same : parts.map trunk = layer.children.map trunk) :
    (layer.refill parts).map trunk = layer.map trunk := by
  have length : parts.length = layer.children.length := by
    simpa using congrArg List.length same
  rw [Expr.map_refill _ length, same, ← Expr.children_map, Expr.refill_children]

end ExprTree

section Each

variable {β γ κ : Type} (cells : β → List Cell) (erase : β → γ) (key : β → κ)

/-- Computations on placed syntax, one item after the other. What each of them keeps of its item is
the key. -/
theorem Runs.each {act : β → LowerM Unit} {plan : β → Plan γ} {c : Context} {t : SyntaxTree}
    {items : List β} (owned : Owns t (items.flatMap cells))
    (step : ∀ b ∈ items, ∀ t, Owns t (cells b) → Runs (act b) t c (plan b) fun g _ t₁ c₁ =>
      c₁ = c ∧ ∃ b', erase b' = g ∧ key b' = key b ∧
        Becomes t t₁ (cells b) (cells b')) :
    Runs (items.forM act) t c (items.mapM plan) fun gs _ t₁ c₁ =>
      c₁ = c ∧ ∃ items' : List β, items'.map erase = gs ∧ items'.map key = items.map key ∧
        Becomes t t₁ (items.flatMap cells) (items'.flatMap cells) := by
  induction items generalizing t with
  | nil => exact .pure ⟨rfl, [], rfl, rfl, .refl .nil⟩
  | cons b items ih =>
    rw [List.flatMap_cons] at owned
    rw [List.forM, List.mapM_cons]
    refine (step b (by simp) t owned.left).bind ?_
    rintro g ⟨⟩ t₁ c₁ ⟨same, b', erased, kept, first⟩
    cases same
    have framed := first.frame_owned owned
    have rest := ih (framed.owns owned).right fun b member => step b (by simp [member])
    rw [bind_pure_comp]
    refine rest.map ?_
    rintro gs ⟨⟩ t₂ c₂ ⟨same, items', eraseds, kepts, later⟩
    refine ⟨same, b' :: items', by simp [erased, eraseds], by simp [kept, kepts], ?_⟩
    exact first.append later owned

end Each

/-- The action changes one call in the arena as the rule says, as long as its parts are those of the
call; and it says so for whatever the parts become in place. -/
def CallRule.Follows (rule : CallRule) (act : NodeId → LowerM Unit) (c : Context) : Prop :=
  ∀ (t : SyntaxTree) (id : NodeId) (layer : Expr (ExprTree NodeId)), layer.isCall →
    Owns t (ExprTree.node id layer).cells →
    Runs (act id) t c (rule.check (layer.map ExprTree.erase)) fun _ _ t₁ c₁ =>
      c₁ = c ∧ ∃ head, Becomes t t₁ [(id, .expr (layer.map ExprTree.label))] head ∧
        ∀ filled : Expr (ExprTree NodeId), filled.map ExprTree.trunk = layer.map ExprTree.trunk →
          ∃ layer' : Expr (ExprTree NodeId), layer'.isCall ∧
            layer'.map ExprTree.erase =
              rule.finish (layer.map ExprTree.erase) (filled.map ExprTree.erase) ∧
            (ExprTree.node id layer').cells.Subperm
              (head ++ filled.children.flatMap ExprTree.cells)

theorem Expr.eq_call {ι : Type} {e : Expr ι} (call : e.isCall) :
    ∃ func args keywords, e = .call func args keywords := by
  cases e with
  | call func args keywords => exact ⟨func, args, keywords, rfl⟩
  | _ => cases call

theorem ExprTree.exists_filled {filled : Expr (ExprTree NodeId)} {func : ExprTree NodeId}
    {args : List (ExprTree NodeId)} {keywords : List (Keyword (ExprTree NodeId))}
    (same : filled.map trunk = (Expr.call func args keywords).map trunk) :
    ∃ func' args' keywords', filled = .call func' args' keywords' ∧ func'.trunk = func.trunk ∧
      args'.map trunk = args.map trunk ∧
      keywords'.map (Keyword.map label) = keywords.map (Keyword.map label) := by
  have labels := layer_label_of_trunk same
  cases filled with
  | call func' args' keywords' =>
    simp only [Expr.map, Expr.call.injEq] at same labels
    exact ⟨func', args', keywords', rfl, same.1, same.2.1, labels.2.2⟩
  | _ => simp [Expr.map] at same

theorem CallRule.unchanged {finish : Expr ExprTerm → Expr ExprTerm → Expr ExprTerm}
    {t : SyntaxTree} {id : NodeId} {layer : Expr (ExprTree NodeId)} (call : layer.isCall)
    (held : Holds t (ExprTree.node id layer).cells)
    (same : ∀ filled, finish (layer.map ExprTree.erase) filled = filled) :
    ∃ head, Becomes t t [(id, .expr (layer.map ExprTree.label))] head ∧
      ∀ filled : Expr (ExprTree NodeId), filled.map ExprTree.trunk = layer.map ExprTree.trunk →
        ∃ layer' : Expr (ExprTree NodeId), layer'.isCall ∧
          layer'.map ExprTree.erase =
            finish (layer.map ExprTree.erase) (filled.map ExprTree.erase) ∧
          (ExprTree.node id layer').cells.Subperm
            (head ++ filled.children.flatMap ExprTree.cells) := by
  refine ⟨_, .refl (by simpa using held.expr_node), fun filled trunk => ⟨filled, ?_, ?_, ?_⟩⟩
  · rw [← Expr.isCall_map ExprTree.trunk, trunk, Expr.isCall_map, call]
  · rw [same]
  · rw [ExprTree.cells_node, ExprTree.layer_label_of_trunk trunk]
    exact .refl _

theorem forM_flatMap {β γ : Type} (f : β → List γ) (act : γ → LowerM Unit) (xs : List β) :
    (xs.flatMap f).forM act = xs.forM fun x => (f x).forM act := by
  induction xs with
  | nil => rfl
  | cons x xs ih =>
    simp only [List.forM_eq_forM] at ih ⊢
    rw [List.flatMap_cons, List.forM_append, ih, List.forM_cons]

theorem Holds.callee_eq {t : SyntaxTree} {id : NodeId} {func : ExprTree NodeId}
    {args : List (ExprTree NodeId)} {keywords : List (Keyword (ExprTree NodeId))}
    (held : Holds t (ExprTree.node id (.call func args keywords)).cells) :
    t.callee id = .ok func.label := by
  have look := held.expr_eq
  simp only [ExprTree.label, ExprTree.layer, Expr.map] at look
  simp only [SyntaxTree.callee, look, Bind.bind, Except.bind]
  rfl

section SetCall

variable {t : SyntaxTree} {id func : NodeId} {args : List NodeId} {keywords : List (Keyword NodeId)}

theorem run_setCallee (found : t.nodes[id]? = some (.expr (.call func args keywords)))
    (func' : NodeId) :
    TreeM.setCallee id func' t = .ok () (t.put id (.expr (.call func' args keywords))) := by
  unfold TreeM.setCallee
  rw [TreeM.run_bind (TreeM.run_expr found)]
  exact TreeM.run_setExpr found

theorem run_modifyArgs (found : t.nodes[id]? = some (.expr (.call func args keywords)))
    (f : List NodeId → List NodeId) :
    TreeM.modifyArgs id f t = .ok () (t.put id (.expr (.call func (f args) keywords))) := by
  unfold TreeM.modifyArgs
  rw [TreeM.run_bind (TreeM.run_expr found)]
  exact TreeM.run_setExpr found

end SetCall

theorem CallRule.rewrite_runs {rule : CallRule} {act : NodeId → LowerM Unit} {c : Context}
    (follows : rule.Follows act c) {t : SyntaxTree} (e : ExprTree NodeId) (owned : Owns t e.cells) :
    Runs (e.calls.forM act) t c (rule.rewrite e.erase) fun r _ t₁ c₁ =>
      c₁ = c ∧ ∃ d : ExprTree NodeId, d.erase = r ∧ d.trunk = e.trunk ∧
        Becomes t t₁ e.cells d.cells := by
  induction e using ExprTree.induct generalizing t with
  | step id layer ih =>
    have parts : ∀ t', Owns t' (layer.children.flatMap ExprTree.cells) →
        Runs ((layer.children.flatMap ExprTree.calls).forM act) t' c
          ((layer.map ExprTree.erase).children.mapM rule.rewrite) fun rs _ t₁ c₁ =>
            c₁ = c ∧ ∃ ds : List (ExprTree NodeId), ds.map ExprTree.erase = rs ∧
              ds.map ExprTree.trunk = layer.children.map ExprTree.trunk ∧
              Becomes t' t₁ (layer.children.flatMap ExprTree.cells)
                (ds.flatMap ExprTree.cells) := by
      intro t' owned'
      rw [forM_flatMap, Expr.children_map, List.mapM_map]
      exact Runs.each ExprTree.cells ExprTree.erase ExprTree.trunk owned' fun part inside t' own =>
        ih part inside own
    rw [ExprTree.cells_node] at owned
    rw [ExprTree.erase_node, CallRule.rewrite_node, ExprTree.calls_node]
    cases call : layer.isCall with
    | false =>
      rw [if_neg (by simp), List.nil_append, rule.check_other _ (by simp [call]), bind_pure_comp]
      refine (parts t owned.tail).map ?_
      rintro rs ⟨⟩ t₁ c₁ ⟨same, ds, rfl, trunks, becomes⟩
      have length : ds.length = layer.children.length := by
        simpa using congrArg List.length trunks
      have filled := ExprTree.trunk_refill trunks
      have filledCall : (layer.refill ds).isCall = false := by
        rw [← Expr.isCall_map ExprTree.trunk, filled, Expr.isCall_map, call]
      refine ⟨same, .node id (layer.refill ds), ?_, ?_, ?_⟩
      · rw [ExprTree.erase_node, rule.finish_other _ _ (by simp [call]),
          Expr.map_refill _ length]
      · rw [ExprTree.trunk_node, ExprTree.trunk_node, filled, call, filledCall]
      · rw [ExprTree.cells_node, ExprTree.cells_node, Expr.children_refill length,
          ExprTree.layer_label_of_trunk filled]
        exact becomes.cons_owned owned
    | true =>
      rw [if_pos rfl]
      refine Runs.bind (follows t id layer call (by rwa [ExprTree.cells_node])) ?_
      rintro ⟨⟩ ⟨⟩ t₁ c₁ ⟨same, head, first, finished⟩
      cases same
      have framed := first.frame_owned owned
      rw [bind_pure_comp]
      refine (parts t₁ (framed.owns owned).right).map ?_
      rintro rs ⟨⟩ t₂ c₂ ⟨same, ds, rfl, trunks, becomes⟩
      have length : ds.length = layer.children.length := by
        simpa using congrArg List.length trunks
      obtain ⟨layer', call', erased, fewer⟩ := finished _ (ExprTree.trunk_refill trunks)
      refine ⟨same, .node id layer', ?_, ?_, ?_⟩
      · rw [ExprTree.erase_node, erased, Expr.map_refill _ length]
      · rw [ExprTree.trunk_node, ExprTree.trunk_node, call, call']
        rfl
      · rw [ExprTree.cells_node]
        rw [Expr.children_refill length] at fewer
        exact (first.append becomes owned).giveUp fewer

end QuantumLowering
