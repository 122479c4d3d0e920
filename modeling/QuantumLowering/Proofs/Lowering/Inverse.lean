import Mathlib.Algebra.BigOperators.Group.List.Basic
import Mathlib.Algebra.Group.TypeTags.Basic
import Mathlib.Tactic.Group
import QuantumLowering.Proofs.Lowering.Variants

/-!
The adjoint form of a body is its inverse. Blocks are read in a group: a call of a known operation is
an element or its inverse, by the number of adjoints around the callee; a control scope conjugates
what is inside it; a block is the product of its statements in order.
-/

namespace QuantumLowering

namespace GateFunctor

def withoutAdjoints (chain : List GateFunctor) : List GateFunctor := chain.filter (· != .adjoint)

theorem withoutAdjoints_reduceChain (chain : List GateFunctor) :
    withoutAdjoints (reduceChain chain) = withoutAdjoints chain := by
  induction chain with
  | nil => rfl
  | cons f chain ih =>
    rw [reduceChain, List.foldr_cons, ← reduceChain]
    have composed : ∀ chain, withoutAdjoints (compose f chain) = withoutAdjoints (f :: chain) := by
      intro chain
      unfold compose
      split <;> rfl
    rw [composed]
    unfold withoutAdjoints at ih ⊢
    rw [List.filter_cons, List.filter_cons, ih]

def inverts (chain : List GateFunctor) : Bool := chain.count .adjoint % 2 == 1

theorem inverts_adjoint (chain : List GateFunctor) :
    inverts (.adjoint :: chain) = !inverts chain := by
  unfold inverts
  rw [List.count_cons_self]
  rcases Nat.mod_two_eq_zero_or_one (chain.count .adjoint) with even | odd
  · rw [Nat.add_mod, even]
    rfl
  · rw [Nat.add_mod, odd]
    rfl

theorem inverts_reduceChain (chain : List GateFunctor) :
    inverts (reduceChain chain) = inverts chain := by
  induction chain with
  | nil => rfl
  | cons f chain ih =>
    rw [reduceChain, List.foldr_cons, ← reduceChain]
    have composed : ∀ chain, inverts (compose f chain) = inverts (f :: chain) := by
      intro chain
      unfold compose
      split
      · rw [inverts_adjoint, inverts_adjoint, Bool.not_not]
      · rfl
    rw [composed]
    cases f with
    | adjoint => rw [inverts_adjoint, inverts_adjoint, ih]
    | controlled => simpa [inverts] using ih

end GateFunctor

namespace ExprTree

variable {known : OperationTable}

def isOperationCall (known : OperationTable) : Expr ExprTerm → Bool
  | .call func _ _ => (func.operation? known).isSome
  | _ => false

def operationCalls (known : OperationTable) : ExprTerm → List ExprTerm
  | .node _ layer =>
    (if isOperationCall known layer then [.node () layer] else []) ++
      (layer.children.attach.map fun part => operationCalls known part.1).flatten
termination_by e => sizeOf e
decreasing_by exact sizeOf_part part.2

theorem operationCalls_node (layer : Expr ExprTerm) :
    operationCalls known (.node () layer) =
      (if isOperationCall known layer then [.node () layer] else []) ++
        layer.children.flatMap (operationCalls known) := by
  rw [operationCalls, List.attach_map_val (f := operationCalls known), ← List.flatMap_def]

theorem operationCalls_wrap (chain : List GateFunctor) (e : ExprTerm) :
    operationCalls known (wrap chain e) = operationCalls known e := by
  induction chain with
  | nil => rfl
  | cons f chain ih =>
    rw [wrap, List.foldr_cons, ← wrap, operationCalls_node]
    simp [isOperationCall, Expr.children, ih]

theorem operationCalls_base (e : ExprTerm) :
    operationCalls known e.base = operationCalls known e := by
  rw [← operationCalls_wrap e.chain e.base, wrap_chain_base]

theorem base_base {α : Type} (e : ExprTree α) : e.base.base = e.base := by
  induction e using induct with
  | step label layer ih =>
    cases layer with
    | functor f target => exact ih target (by simp [Expr.children])
    | _ => rfl

theorem base_wrap (chain : List GateFunctor) (e : ExprTerm) : (wrap chain e).base = e.base := by
  induction chain with
  | nil => rfl
  | cons f chain ih => exact ih

theorem operationName_trunk {α : Type} (e : ExprTree α) : e.trunk.operationName = e.operationName := by
  unfold operationName
  rw [base_trunk]
  cases e.base with
  | node label layer =>
    rw [trunk_node]
    cases layer <;> rfl

theorem operation?_eq_of_trunk {d e : ExprTerm} (same : d.trunk = e.trunk) :
    d.operation? known = e.operation? known := by
  unfold operation?
  rw [← operationName_trunk d, same, operationName_trunk]

end ExprTree

section Rewrite

variable {known : OperationTable}

theorem CallRule.rewrite_eq_ok {rule : CallRule} {layer : Expr ExprTerm} {r : ExprTerm}
    (ended : rule.rewrite (.node () layer) = .ok r) :
    ∃ parts, List.Forall₂ (fun e d => rule.rewrite e = .ok d) layer.children parts ∧
      r = .node () (rule.finish layer (layer.refill parts)) := by
  rw [CallRule.rewrite_node] at ended
  obtain ⟨⟨⟩, -, ended⟩ := Plan.bind_eq_ok.1 ended
  obtain ⟨parts, ran, ended⟩ := Plan.bind_eq_ok.1 ended
  cases ended
  exact ⟨parts, Plan.mapM_eq_ok ran, rfl⟩

theorem map_eq_of_forall₂ {α β : Type} {γ : Type*} {R : α → β → Prop} {f : β → γ} {g : α → γ} {xs : List α}
    {ys : List β} (pairs : List.Forall₂ R xs ys) (same : ∀ x ∈ xs, ∀ y, R x y → f y = g x) :
    ys.map f = xs.map g := by
  induction pairs with
  | nil => rfl
  | cons here _ ih =>
    rw [List.map_cons, List.map_cons, same _ (by simp) _ here,
      ih fun x inside => same x (by simp [inside])]

theorem adjointFinish_other {layer : Expr ExprTerm} (filled : Expr ExprTerm)
    (other : ExprTree.isOperationCall known layer = false) :
    adjointFinish known layer filled = filled := by
  match layer, filled with
  | .call func _ _, .call .. =>
    have unknown : func.operation? known = none := by
      simpa [ExprTree.isOperationCall] using other
    simp [adjointFinish, unknown]
  | .call .., .name _ | .call .., .int _ | .call .., .float _ | .call .., .bool _
  | .call .., .str _ | .call .., .attribute .. | .call .., .functor .. | .call .., .aggregate _
  | .call .., .list _ | .call .., .tuple _ | .call .., .compare .. => rfl
  | .name _, _ | .int _, _ | .float _, _ | .bool _, _ | .str _, _ | .attribute .., _
  | .functor .., _ | .aggregate _, _ | .list _, _ | .tuple _, _ | .compare .., _ => rfl

theorem adjointFinish_call {func func' : ExprTerm} {args args' : List ExprTerm}
    {keywords keywords' : List (Keyword ExprTerm)}
    (operation : ExprTree.isOperationCall known (.call func args keywords)) :
    adjointFinish known (.call func args keywords) (.call func' args' keywords') =
      .call (.wrap (GateFunctor.reduceChain (.adjoint :: func.chain)) func'.base) args' keywords' := by
  obtain ⟨name, called⟩ := Option.isSome_iff_exists.1 operation
  simp [adjointFinish, called]

theorem isCall_adjointFinish (layer filled : Expr ExprTerm) :
    (adjointFinish known layer filled).isCall = filled.isCall := by
  unfold adjointFinish
  split
  · split <;> rfl
  · rfl

theorem CallRule.trunk_rewrite {rule : CallRule}
    (calls : ∀ layer filled, (rule.finish layer filled).isCall = filled.isCall) {e r : ExprTerm}
    (ended : rule.rewrite e = .ok r) : r.trunk = e.trunk := by
  induction e using ExprTree.induct generalizing r with
  | step label layer ih =>
    obtain ⟨parts, rewritten, rfl⟩ := CallRule.rewrite_eq_ok ended
    have trunks : parts.map ExprTree.trunk = layer.children.map ExprTree.trunk :=
      map_eq_of_forall₂ rewritten fun part inside r ended => ih part inside ended
    have filled := ExprTree.trunk_refill trunks
    have filledCall : (layer.refill parts).isCall = layer.isCall := by
      rw [← Expr.isCall_map ExprTree.trunk, filled, Expr.isCall_map]
    have finished := (calls layer (layer.refill parts)).trans filledCall
    cases call : layer.isCall with
    | false =>
      rw [rule.finish_other _ _ call, ExprTree.trunk_node, ExprTree.trunk_node, filled, filledCall]
    | true =>
      rw [ExprTree.trunk_node, ExprTree.trunk_node, finished, call]
      rfl

theorem trunk_adjoint {e r : ExprTerm} (ended : (adjointRule known).rewrite e = .ok r) :
    r.trunk = e.trunk :=
  CallRule.trunk_rewrite isCall_adjointFinish ended

theorem CallRule.rewrite_eq_self {rule : CallRule}
    (others : ∀ layer filled, ExprTree.isOperationCall known layer = false →
      rule.finish layer filled = filled)
    {e r : ExprTerm} (without : ExprTree.operationCalls known e = [])
    (ended : rule.rewrite e = .ok r) : r = e := by
  induction e using ExprTree.induct generalizing r with
  | step label layer ih =>
    obtain ⟨parts, rewritten, rfl⟩ := CallRule.rewrite_eq_ok ended
    rw [ExprTree.operationCalls_node, List.append_eq_nil_iff, List.flatMap_eq_nil_iff] at without
    have other : ExprTree.isOperationCall known layer = false := by
      simpa using without.1
    have same : parts.map id = layer.children.map id :=
      map_eq_of_forall₂ rewritten fun part inside r ended => ih part inside (without.2 part inside) ended
    rw [List.map_id, List.map_id] at same
    rw [same, Expr.refill_children]
    exact congrArg _ (others layer layer other)

theorem adjoint_eq_self {e r : ExprTerm} (without : ExprTree.operationCalls known e = [])
    (ended : (adjointRule known).rewrite e = .ok r) : r = e :=
  CallRule.rewrite_eq_self (fun _ filled other => adjointFinish_other filled other) without ended

end Rewrite

/-- What calls and scopes are read as. -/
structure Reading (G : Type*) where
  known : OperationTable
  call : ExprTerm → G
  scope : ExprTerm → G

def ExprTree.withoutAdjoints : ExprTerm → ExprTerm
  | .node _ (.call func args keywords) =>
    .node () (.call (.wrap (GateFunctor.withoutAdjoints func.chain) func.base) args keywords)
  | e => e

def ExprTree.inverts : ExprTerm → Bool
  | .node _ (.call func _ _) => GateFunctor.inverts func.chain
  | _ => false

namespace Reading

variable {G : Type*} [Group G] (R : Reading G)

/-- A call of a known operation is an element, or its inverse. -/
def operation (e : ExprTerm) : G :=
  if e.inverts then (R.call e.withoutAdjoints)⁻¹ else R.call e.withoutAdjoints

def expr (e : ExprTerm) : G := ((e.operationCalls R.known).map R.operation).prod

/-- A scope conjugates what is inside it. -/
def stmt : StmtTerm → G
  | .expr _ value => R.expr value
  | .scoped _ context _ body =>
    R.scope context * (body.attach.map fun s => stmt s.1).prod * (R.scope context)⁻¹
  | _ => 1
termination_by s => sizeOf s
decreasing_by exact StmtTree.sizeOf_inner (by simp [StmtTree.inner, s.2])

def block (body : List StmtTerm) : G := (body.map R.stmt).prod

theorem stmt_scoped (context : ExprTerm) (binding : Option ExprTerm) (body : List StmtTerm) :
    R.stmt (.scoped () context binding body) =
      R.scope context * R.block body * (R.scope context)⁻¹ := by
  rw [stmt, List.attach_map_val (f := R.stmt), block]

theorem operation_adjoint {func : ExprTerm} {args : List ExprTerm}
    {keywords : List (Keyword ExprTerm)} :
    R.operation (.node () (.call (.wrap (GateFunctor.reduceChain (.adjoint :: func.chain)) func.base)
      args keywords)) = (R.operation (.node () (.call func args keywords)))⁻¹ := by
  have chain : (ExprTree.wrap (GateFunctor.reduceChain (.adjoint :: func.chain)) func.base).chain =
      GateFunctor.reduceChain (.adjoint :: func.chain) := by
    rw [ExprTree.chain_wrap, ExprTree.chain_base, List.append_nil]
  have stripped : GateFunctor.withoutAdjoints (.adjoint :: func.chain) =
      GateFunctor.withoutAdjoints func.chain := rfl
  simp only [operation, ExprTree.inverts, ExprTree.withoutAdjoints, chain, ExprTree.base_wrap,
    ExprTree.base_base, GateFunctor.inverts_reduceChain, GateFunctor.inverts_adjoint,
    GateFunctor.withoutAdjoints_reduceChain, stripped]
  by_cases inverse : GateFunctor.inverts func.chain <;> simp [inverse]

theorem expr_node (layer : Expr ExprTerm) :
    R.expr (.node () layer) =
      (if ExprTree.isOperationCall R.known layer then R.operation (.node () layer) else 1) *
        (layer.children.map R.expr).prod := by
  have parts : ((layer.children.flatMap (ExprTree.operationCalls R.known)).map R.operation).prod =
      (layer.children.map R.expr).prod := by
    rw [List.map_flatMap, List.flatMap_def, List.prod_flatten, List.map_map]
    rfl
  rw [expr, ExprTree.operationCalls_node, List.map_append, List.prod_append, parts]
  split <;> simp

theorem expr_eq_one {e : ExprTerm} (without : e.operationCalls R.known = []) : R.expr e = 1 := by
  rw [expr, without]
  rfl

theorem parts_adjoint {es ds : List ExprTerm}
    (pairs : List.Forall₂ (fun e d => (adjointRule R.known).rewrite e = .ok d) es ds)
    (few : (es.flatMap (ExprTree.operationCalls R.known)).length ≤ 1)
    (each : ∀ e ∈ es, ∀ d, (e.operationCalls R.known).length ≤ 1 →
      (adjointRule R.known).rewrite e = .ok d → R.expr d = (R.expr e)⁻¹) :
    (ds.map R.expr).prod = ((es.map R.expr).prod)⁻¹ := by
  induction pairs with
  | nil => simp
  | @cons e d es ds here rest ih =>
    rw [List.flatMap_cons, List.length_append] at few
    have ih := ih (by omega) fun e inside => each e (by simp [inside])
    have first := each e (by simp) d (by omega) here
    rw [List.map_cons, List.map_cons, List.prod_cons, List.prod_cons, ih, first]
    by_cases without : e.operationCalls R.known = []
    · rw [R.expr_eq_one without]
      simp
    · have some : 0 < (e.operationCalls R.known).length := List.length_pos_iff.2 without
      have others : (es.map R.expr).prod = 1 := by
        refine List.prod_eq_one fun x member => ?_
        obtain ⟨e', inside, rfl⟩ := List.mem_map.1 member
        have empty := List.length_eq_zero_iff.1
          (show (es.flatMap (ExprTree.operationCalls R.known)).length = 0 by omega)
        exact R.expr_eq_one (List.flatMap_eq_nil_iff.1 empty e' inside)
      rw [others]
      simp

theorem isOperationCall_refill {known : OperationTable} {layer : Expr ExprTerm}
    {parts : List ExprTerm} (trunks : parts.map ExprTree.trunk = layer.children.map ExprTree.trunk) :
    ExprTree.isOperationCall known (layer.refill parts) = ExprTree.isOperationCall known layer := by
  have length : parts.length = layer.children.length := by
    simpa using congrArg List.length trunks
  cases layer with
  | call func args keywords =>
    cases parts with
    | nil => simp [Expr.children] at length
    | cons func' parts =>
      have same : func'.trunk = func.trunk := by
        rw [Expr.children, List.map_cons, List.map_cons] at trunks
        exact (List.cons.inj trunks).1
      exact congrArg Option.isSome (ExprTree.operation?_eq_of_trunk same)
  | _ => rfl

theorem expr_adjoint {e r : ExprTerm} (few : (e.operationCalls R.known).length ≤ 1)
    (ended : (adjointRule R.known).rewrite e = .ok r) : R.expr r = (R.expr e)⁻¹ := by
  induction e using ExprTree.induct generalizing r with
  | step label layer ih =>
    obtain ⟨parts, rewritten, rfl⟩ := CallRule.rewrite_eq_ok ended
    rw [ExprTree.operationCalls_node, List.length_append] at few
    cases operation : ExprTree.isOperationCall R.known layer with
    | true =>
      -- the call is the only one, so its parts stay
      rw [operation, if_pos rfl, List.length_singleton] at few
      have without := List.flatMap_eq_nil_iff.1 (List.length_eq_zero_iff.1
        (show (layer.children.flatMap (ExprTree.operationCalls R.known)).length = 0 by omega))
      have same : parts.map id = layer.children.map id :=
        map_eq_of_forall₂ rewritten fun part inside r ended =>
          adjoint_eq_self (without part inside) ended
      have ones : (layer.children.map R.expr).prod = 1 := by
        refine List.prod_eq_one fun x member => ?_
        obtain ⟨e, inside, rfl⟩ := List.mem_map.1 member
        exact R.expr_eq_one (without e inside)
      rw [List.map_id, List.map_id] at same
      rw [same, Expr.refill_children]
      match layer with
      | .call func args keywords =>
        have finished : (adjointRule R.known).finish (.call func args keywords)
            (.call func args keywords) = .call (.wrap (GateFunctor.reduceChain
              (.adjoint :: func.chain)) func.base) args keywords := adjointFinish_call operation
        have operation' : ExprTree.isOperationCall R.known (.call (.wrap (GateFunctor.reduceChain
            (.adjoint :: func.chain)) func.base) args keywords) = true := by
          rw [← operation]
          simp only [ExprTree.isOperationCall, ExprTree.operation?, ExprTree.operationName,
            ExprTree.base_wrap, ExprTree.base_base]
        have callee : R.expr (.wrap (GateFunctor.reduceChain (.adjoint :: func.chain)) func.base) =
            R.expr func := by
          simp only [expr, ExprTree.operationCalls_wrap, ExprTree.operationCalls_base]
        rw [finished, R.expr_node, R.expr_node, operation, operation', if_pos rfl, if_pos rfl, ones,
          R.operation_adjoint]
        simp only [Expr.children, List.map_cons, List.prod_cons, callee] at ones ⊢
        rw [ones, mul_one, mul_one]
    | false =>
      have trunks : parts.map ExprTree.trunk = layer.children.map ExprTree.trunk :=
        map_eq_of_forall₂ rewritten fun _ _ _ ended => trunk_adjoint ended
      have finished : (adjointRule R.known).finish layer (layer.refill parts) = layer.refill parts :=
        adjointFinish_other _ operation
      rw [operation, if_neg Bool.false_ne_true, List.length_nil, Nat.zero_add] at few
      rw [finished, R.expr_node, R.expr_node, isOperationCall_refill trunks, operation,
        Expr.children_refill rewritten.length_eq.symm,
        R.parts_adjoint rewritten few fun e inside d few ended => ih e inside few ended]
      simp

theorem block_reverse {body rs : List StmtTerm} (pairs : List.Forall₂ (fun s r =>
      R.stmt r = (R.stmt s)⁻¹) body rs) : R.block rs.reverse = (R.block body)⁻¹ := by
  have inverses : rs.map R.stmt = body.map fun s => (R.stmt s)⁻¹ :=
    map_eq_of_forall₂ pairs fun _ _ _ inverse => inverse
  rw [block, block, List.prod_inv_reverse, List.map_reverse, inverses, List.map_map]
  rfl

end Reading

/-- Expression statements with at most one call of a known operation, and control scopes of such
statements. -/
inductive Reversible (known : OperationTable) (o : Options) : StmtTerm → Prop where
  | expr {value : ExprTerm} (few : (value.operationCalls known).length ≤ 1) :
    Reversible known o (.expr () value)
  | scope {context : ExprTerm} {binding : Option ExprTerm} {body : List StmtTerm}
    (called : context.isControlScope o) (inner : ∀ s ∈ body, Reversible known o s) :
    Reversible known o (.scoped () context binding body)

theorem Plan.forall₂_of_mapM {α β : Type} {f : α → Plan β} {xs : List α} {ys : List β}
    {R : α → β → Prop} (ended : xs.mapM f = .ok ys) (each : ∀ x ∈ xs, ∀ y, f x = .ok y → R x y) :
    List.Forall₂ R xs ys :=
  forall₂_imp_of_mem (Plan.mapM_eq_ok ended) each

namespace Reading

variable {G : Type*} [Group G] (R : Reading G) {o : Options}

theorem stmt_adjoint {s r : StmtTerm} (reversible : Reversible R.known o s)
    (ended : adjointStmt R.known o s = .ok r) : R.stmt r = (R.stmt s)⁻¹ := by
  induction reversible generalizing r with
  | expr few =>
    rw [adjointStmt, CallRule.rewriteStmt] at ended
    obtain ⟨value', rewritten, ended⟩ := Plan.bind_eq_ok.1 ended
    cases ended
    rw [stmt, stmt]
    exact R.expr_adjoint few rewritten
  | @scope context binding body called inner ih =>
    rw [adjointStmt, CallRule.rewriteStmt_scoped] at ended
    obtain ⟨rs, rewritten, ended⟩ := Plan.bind_eq_ok.1 ended
    cases ended
    have inverse := R.block_reverse (Plan.forall₂_of_mapM rewritten fun s inside r ended =>
      ih s inside ended)
    rw [if_pos called, stmt_scoped, stmt_scoped, inverse]
    group

theorem block_adjoint {body rs : List StmtTerm} (reversible : ∀ s ∈ body, Reversible R.known o s)
    (ended : adjointStmts R.known o body = .ok rs) : R.block rs = (R.block body)⁻¹ := by
  obtain ⟨rs, rewritten, ended⟩ := Plan.bind_eq_ok.1 ended
  cases ended
  exact R.block_reverse (Plan.forall₂_of_mapM rewritten fun s inside r ended =>
    R.stmt_adjoint (reversible s inside) ended)

end Reading

/-- The adjoint form of a definition has the inverse of its body, which stays as it was. -/
theorem deriveAdjoint_inverse {G : Type*} [Group G] (R : Reading G) {t : SyntaxTree} {c : Context}
    {d derived : Definition NodeId} {body : List StmtTerm} {s : LoweringState}
    (known : R.known = c.operations) (read : t.Reads d.body body)
    (reversible : ∀ stmt ∈ body, Reversible c.operations c.options stmt)
    (ran : LowerM.deriveAdjoint d ⟨t, c⟩ = .ok derived s) :
    s.tree.Reads d.body body ∧
      ∃ body', s.tree.Reads derived.body body' ∧ R.block body' = (R.block body)⁻¹ := by
  obtain ⟨stmts, labels, erased, held⟩ := read
  obtain ⟨copies, t₁, copied, same, first⟩ := copyBlock_run held
  rw [labels] at copied
  have run : Runs (LowerM.deriveAdjoint d) t c (adjointStmts c.operations c.options body)
      fun body' derived t' _ => ∃ stmts' : List (StmtTree NodeId),
        stmts'.map StmtTree.label = derived.body ∧
        stmts'.map StmtTree.erase = body' ∧ Becomes t t' [] (stmts'.flatMap StmtTree.cells) := by
    unfold LowerM.deriveAdjoint
    rw [Runs.treeM_bind copied, ← erased, ← same,
      ← bind_pure (adjointStmts c.operations c.options (copies.map StmtTree.erase))]
    refine (adjointBlock_runs copies (first.owns .nil)).bind ?_
    rintro _ _ t₂ c₂ ⟨rfl, stmts', rfl, rfl, second⟩
    rw [Runs.contextM_bind (ContextM.run_freshName _),
      Runs.contextM_bind (ContextM.run_modifyStats _)]
    exact .pure ⟨stmts', rfl, rfl, first.trans second⟩
  cases ended : adjointStmts c.operations c.options body with
  | error reason =>
    rw [ended] at run
    obtain ⟨s', failed⟩ := run
    cases failed.symm.trans ran
  | ok body' =>
    rw [ended] at run
    obtain ⟨_, t', c', ran', stmts', labels', erased', becomes⟩ := run
    cases ran'.symm.trans ran
    refine ⟨⟨stmts, labels, erased, becomes.ext.holds held (by simp)⟩, body',
      ⟨stmts', labels', erased', becomes.held⟩, ?_⟩
    rw [← known] at reversible ended
    exact R.block_adjoint reversible ended

/-- A call, and a scope with another call in it, read in the integers. -/
theorem deriveAdjoint_inverse_two_calls :
    let R : Reading (Multiplicative Int) :=
      ⟨.preamble, fun _ => .ofAdd 1, fun _ => .ofAdd 2⟩
    let call : String → ExprTerm := fun gate =>
      .node () (.call (.node () (.name gate)) [.node () (.name "q")] [])
    let body : List StmtTerm := [.expr () (call "X"), .scoped () (.node () (.call (.node ()
      (.attribute (.node () (.name "bp")) "control_scope")) [] [])) none [.expr () (call "R1")]]
    let t : SyntaxTree := ⟨#[.expr (.name "X"), .expr (.name "q"), .expr (.call 0 [1] []),
      .stmt (.expr 2), .expr (.name "bp"), .expr (.attribute 4 "control_scope"),
      .expr (.call 5 [] []), .expr (.name "R1"), .expr (.name "q"), .expr (.call 7 [8] []),
      .stmt (.expr 9), .stmt (.scoped 6 none [10])], []⟩
    ∃ derived s, LowerM.deriveAdjoint ⟨"f", ["q"], [3, 11], none⟩ ⟨t, .new .default⟩ =
      .ok derived s ∧ ∃ body', s.tree.Reads derived.body body' ∧ R.block body' = (R.block body)⁻¹ := by
  intro R call body t
  have read : t.Reads [3, 11] body := by
    refine ⟨[.expr 3 (.node 2 (.call (.node 0 (.name "X")) [.node 1 (.name "q")] [])),
      .scoped 11 (.node 6 (.call (.node 5 (.attribute (.node 4 (.name "bp")) "control_scope")) [] []))
        none [.expr 10 (.node 9 (.call (.node 7 (.name "R1")) [.node 8 (.name "q")] []))]],
      rfl, ?_, ?_⟩
    · simp [body, call, Expr.map]
    · simp [t, Expr.map, Expr.children, Holds, StmtTree.label]
  have single : ∀ gate, Reversible Options.default.operations .default (.expr () (call gate)) := by
    intro gate
    refine .expr ?_
    simp only [call, ExprTree.operationCalls_node, Expr.children, List.map_nil, List.append_nil,
      List.flatMap_cons, List.flatMap_nil]
    split <;> simp [ExprTree.isOperationCall]
  have reversible : ∀ s ∈ body, Reversible Options.default.operations .default s := by
    intro s member
    simp only [body, List.mem_cons, List.not_mem_nil, or_false] at member
    rcases member with rfl | rfl
    · exact single "X"
    · exact .scope rfl (by simpa using single "R1")
  have succeeds : LowerM.succeeds (LowerM.deriveAdjoint ⟨"f", ["q"], [3, 11], none⟩)
      ⟨t, .new .default⟩ := by decide +kernel
  obtain ⟨derived, s, ran⟩ := LowerM.exists_of_succeeds succeeds
  exact ⟨derived, s, ran, (deriveAdjoint_inverse R rfl read reversible ran).2⟩

end QuantumLowering
