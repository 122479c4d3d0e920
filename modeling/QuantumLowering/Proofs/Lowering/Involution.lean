import Mathlib.Logic.Relation
import QuantumLowering.Proofs.Lowering.DerivedCalls

namespace QuantumLowering

namespace GateFunctor

/-- Takes out two adjoints side by side. -/
inductive CancelsPair : List GateFunctor → List GateFunctor → Prop where
  | pair (front back : List GateFunctor) :
    CancelsPair (front ++ .adjoint :: .adjoint :: back) (front ++ back)

def Irreducible (chain : List GateFunctor) : Prop := ¬ [.adjoint, .adjoint] <:+: chain

/-- What is left of a chain when pairs of adjoints are taken out until there are none. -/
def Cancelled (chain chain' : List GateFunctor) : Prop :=
  Relation.ReflTransGen CancelsPair chain chain' ∧ Irreducible chain'

theorem reduceChain_cons (f : GateFunctor) (chain : List GateFunctor) :
    reduceChain (f :: chain) = compose f (reduceChain chain) := rfl

theorem compose_cases (f : GateFunctor) (chain : List GateFunctor) :
    (∃ back, f = .adjoint ∧ chain = .adjoint :: back ∧ compose f chain = back) ∨
      compose f chain = f :: chain ∧ ¬ [.adjoint, .adjoint] <+: f :: chain := by
  cases f with
  | controlled => exact .inr ⟨by cases chain <;> rfl, by simp⟩
  | adjoint =>
    cases chain with
    | nil => exact .inr ⟨rfl, by simp⟩
    | cons g back =>
      cases g with
      | adjoint => exact .inl ⟨back, rfl, rfl, rfl⟩
      | controlled => exact .inr ⟨rfl, by simp⟩

theorem irreducible_cons {f : GateFunctor} {chain : List GateFunctor} :
    Irreducible (f :: chain) ↔ ¬ [.adjoint, .adjoint] <+: f :: chain ∧ Irreducible chain := by
  unfold Irreducible
  rw [List.infix_cons_iff, not_or]

theorem Irreducible.compose {chain : List GateFunctor} (irreducible : Irreducible chain)
    (f : GateFunctor) : Irreducible (compose f chain) := by
  rcases compose_cases f chain with ⟨back, rfl, rfl, same⟩ | ⟨same, apart⟩
  · rw [same]
    exact (irreducible_cons.1 irreducible).2
  · rw [same]
    exact irreducible_cons.2 ⟨apart, irreducible⟩

theorem irreducible_reduceChain (chain : List GateFunctor) : Irreducible (reduceChain chain) := by
  induction chain with
  | nil => simp [reduceChain, Irreducible]
  | cons f chain ih => exact ih.compose f

theorem compose_adjoint_twice {chain : List GateFunctor} (irreducible : Irreducible chain) :
    compose .adjoint (compose .adjoint chain) = chain := by
  rcases compose_cases .adjoint chain with ⟨back, -, rfl, same⟩ | ⟨same, -⟩
  · rw [same]
    rcases compose_cases .adjoint back with ⟨back', -, rfl, -⟩ | ⟨same', -⟩
    · have apart := (irreducible_cons.1 irreducible).1
      exact absurd (List.prefix_append [.adjoint, .adjoint] back') apart
    · exact same'
  · rw [same]
    rfl

theorem CancelsPair.reduceChain_eq {chain chain' : List GateFunctor}
    (cancels : CancelsPair chain chain') : reduceChain chain' = reduceChain chain := by
  obtain ⟨front, back⟩ := cancels
  induction front with
  | nil => exact (compose_adjoint_twice (irreducible_reduceChain back)).symm
  | cons f front ih => exact congrArg (compose f) ih

theorem CancelsPair.cons {chain chain' : List GateFunctor} (cancels : CancelsPair chain chain')
    (f : GateFunctor) : CancelsPair (f :: chain) (f :: chain') := by
  obtain ⟨front, back⟩ := cancels
  exact .pair (f :: front) back

theorem cancels_reduceChain (chain : List GateFunctor) :
    Relation.ReflTransGen CancelsPair chain (reduceChain chain) := by
  induction chain with
  | nil => exact .refl
  | cons f chain ih =>
    have inside : Relation.ReflTransGen CancelsPair (f :: chain) (f :: reduceChain chain) :=
      ih.lift (f :: ·) fun _ _ cancels => cancels.cons f
    rw [reduceChain_cons]
    rcases compose_cases f (reduceChain chain) with ⟨back, rfl, shape, same⟩ | ⟨same, -⟩
    · rw [shape] at inside
      rw [same]
      exact inside.tail (.pair [] back)
    · rw [same]
      exact inside

theorem Irreducible.reduceChain_eq {chain : List GateFunctor} (irreducible : Irreducible chain) :
    reduceChain chain = chain := by
  induction chain with
  | nil => rfl
  | cons f chain ih =>
    obtain ⟨apart, rest⟩ := irreducible_cons.1 irreducible
    rw [reduceChain_cons, ih rest]
    rcases compose_cases f chain with ⟨back, rfl, rfl, -⟩ | ⟨same, -⟩
    · exact absurd (List.prefix_append [.adjoint, .adjoint] back) apart
    · exact same

theorem cancelled_iff {chain chain' : List GateFunctor} :
    Cancelled chain chain' ↔ chain' = reduceChain chain := by
  constructor
  · rintro ⟨cancels, irreducible⟩
    have same : reduceChain chain' = reduceChain chain := by
      clear irreducible
      induction cancels with
      | refl => rfl
      | tail _ step ih => exact step.reduceChain_eq.trans ih
    rw [← same, irreducible.reduceChain_eq]
  · rintro rfl
    exact ⟨cancels_reduceChain chain, irreducible_reduceChain chain⟩

theorem reduceChain_adjoint_twice (chain : List GateFunctor) :
    reduceChain (.adjoint :: reduceChain (.adjoint :: chain)) = reduceChain chain := by
  have irreducible := irreducible_reduceChain chain
  rw [reduceChain_cons, (irreducible_reduceChain _).reduceChain_eq, reduceChain_cons,
    compose_adjoint_twice irreducible]

end GateFunctor

section Expressions

variable {known : OperationTable} {cancel : List GateFunctor → List GateFunctor} {e d r : ExprTerm}

theorem CallRule.rewrite_wrap {rule : CallRule} (chain : List GateFunctor)
    (ended : rule.rewrite e = .ok r) : rule.rewrite (.wrap chain e) = .ok (.wrap chain r) := by
  induction chain with
  | nil => exact ended
  | cons f chain ih =>
    rw [ExprTree.wrap, List.foldr_cons, ← ExprTree.wrap, CallRule.rewrite_node,
      rule.check_other _ rfl]
    simp only [Expr.children, List.mapM_cons, List.mapM_nil, ih]
    exact congrArg Except.ok (congrArg _ (rule.finish_other _ _ rfl))

theorem eq_map_of_twice {α : Type} {R : α → α → Prop} {h : α → α} {xs ys zs : List α}
    (first : List.Forall₂ R xs ys) (second : List.Forall₂ R ys zs)
    (each : ∀ x ∈ xs, ∀ y z, R x y → R y z → z = h x) : zs = xs.map h := by
  induction first generalizing zs with
  | nil =>
    cases second
    rfl
  | cons here _ ih =>
    cases second with | cons next second
    rw [List.map_cons, each _ List.mem_cons_self _ _ here next,
      ih second fun x inside => each x (List.mem_cons_of_mem _ inside)]

section Call

variable {func : ExprTerm} {args : List ExprTerm} {keywords : List (Keyword ExprTerm)}

theorem forall₂_zipWith_keyword {R : ExprTerm → ExprTerm → Prop} {values : List ExprTerm}
    (pairs : List.Forall₂ (fun k value => R (Keyword.value k) value) keywords values) :
    List.Forall₂ (fun k k' : Keyword ExprTerm => k'.name = k.name ∧ R k.value k'.value) keywords
      (List.zipWith (fun k value => ⟨k.name, value⟩) keywords values) := by
  induction pairs with
  | nil => exact .nil
  | cons here _ ih => exact .cons ⟨rfl, here⟩ ih

theorem CallRule.rewrite_call_parts {rule : CallRule}
    (ended : rule.rewrite (.node () (.call func args keywords)) = .ok r) :
    ∃ func' args' keywords', rule.rewrite func = .ok func' ∧
      List.Forall₂ (fun x y => rule.rewrite x = .ok y) args args' ∧
      List.Forall₂ (fun k k' : Keyword ExprTerm => k'.name = k.name ∧
        rule.rewrite k.value = .ok k'.value) keywords keywords' ∧
      r = .node () (rule.finish (.call func args keywords) (.call func' args' keywords')) := by
  obtain ⟨parts, rewritten, rfl⟩ := CallRule.rewrite_eq_ok ended
  obtain ⟨func', rest, ran, others, rfl⟩ := List.forall₂_cons_left_iff.1 rewritten
  have inArgs := List.forall₂_take args.length others
  have inKeywords := List.forall₂_drop args.length others
  rw [List.take_left] at inArgs
  rw [List.drop_left, List.forall₂_map_left_iff] at inKeywords
  have named := forall₂_zipWith_keyword (R := fun x y => rule.rewrite x = .ok y) inKeywords
  exact ⟨func', _, _, ran, inArgs, named, rfl⟩

theorem adjoint_twice_call
    (operation : ExprTree.isOperationCall known (.call func args keywords))
    (parts : ∀ part ∈ (Expr.call func args keywords).children, ∀ d r,
      (adjointRule known).rewrite part = .ok d → (adjointRule known).rewrite d = .ok r →
        r = part.mapChains known GateFunctor.reduceChain)
    (first : (adjointRule known).rewrite (.node () (.call func args keywords)) = .ok d)
    (second : (adjointRule known).rewrite d = .ok r) :
    r = ExprTree.mapChains known GateFunctor.reduceChain (.node () (.call func args keywords)) := by
  obtain ⟨func', args', keywords', callee, inArgs, inKeywords, rfl⟩ :=
    CallRule.rewrite_call_parts first
  have once : (adjointRule known).finish (.call func args keywords) (.call func' args' keywords') =
      .call (.wrap (GateFunctor.reduceChain (.adjoint :: func.chain)) func'.base) args' keywords' :=
    adjointFinish_call operation
  rw [once] at second
  obtain ⟨func'', args'', keywords'', callee', inArgs', inKeywords', rfl⟩ :=
    CallRule.rewrite_call_parts second
  have twice : (adjointRule known).finish (.call (.wrap (GateFunctor.reduceChain
      (.adjoint :: func.chain)) func'.base) args' keywords') (.call func'' args'' keywords'') =
      .call (.wrap (GateFunctor.reduceChain func.chain) func''.base) args'' keywords'' := by
    have operation' : ExprTree.isOperationCall known (.call (.wrap (GateFunctor.reduceChain
        (.adjoint :: func.chain)) func'.base) args' keywords') :=
      isOperationCall_wrap _ (ExprTree.base_eq_of_trunk (trunk_adjoint callee)) operation
    refine (adjointFinish_call operation').trans ?_
    rw [ExprTree.chain_wrap, ExprTree.chain_base, List.append_nil,
      GateFunctor.reduceChain_adjoint_twice]
  -- the second step saw another chain around the base than the first left
  have base : func''.base = func.base.mapChains known GateFunctor.reduceChain := by
    have inner := CallRule.rewrite_base isCall_adjointFinish callee'
    rw [ExprTree.base_wrap, ExprTree.base_base] at inner
    have outer := CallRule.rewrite_wrap func'.chain inner
    rw [ExprTree.wrap_chain_base] at outer
    have same := congrArg ExprTree.base (parts func List.mem_cons_self _ _ callee outer)
    rwa [ExprTree.base_wrap, ExprTree.base_base, ExprTree.base_mapChains] at same
  have sameArgs : args'' = args.map (ExprTree.mapChains known GateFunctor.reduceChain) := by
    refine eq_map_of_twice inArgs inArgs' fun arg inside => parts arg ?_
    exact List.mem_cons_of_mem _ (List.mem_append_left _ inside)
  have sameKeywords : keywords'' =
      keywords.map (Keyword.map (ExprTree.mapChains known GateFunctor.reduceChain)) := by
    refine eq_map_of_twice inKeywords inKeywords' fun k inside k' k'' here next => ?_
    have member : k.value ∈ (Expr.call func args keywords).children :=
      List.mem_cons_of_mem _ (List.mem_append_right _ (List.mem_map_of_mem inside))
    have value := parts k.value member _ _ here.2 next.2
    cases k''
    rw [Keyword.map, ← value]
    exact congrArg (Keyword.mk · _) (next.1.trans here.1)
  rw [twice, base, sameArgs, sameKeywords, ExprTree.mapChains_call operation]

end Call

theorem adjoint_twice (first : (adjointRule known).rewrite e = .ok d)
    (second : (adjointRule known).rewrite d = .ok r) :
    r = e.mapChains known GateFunctor.reduceChain := by
  induction e using ExprTree.induct generalizing d r with
  | step label layer ih =>
    have parts : ∀ part ∈ layer.children, ∀ d r, (adjointRule known).rewrite part = .ok d →
        (adjointRule known).rewrite d = .ok r →
          r = part.mapChains known GateFunctor.reduceChain :=
      fun part inside d r first second => ih part inside first second
    cases operation : ExprTree.isOperationCall known layer with
    | true =>
      cases layer with
      | call func args keywords => exact adjoint_twice_call operation parts first second
      | _ => cases operation
    | false =>
      have others : ∀ layer filled, ExprTree.isOperationCall known layer = false →
          (adjointRule known).finish layer filled = filled :=
        fun _ filled other => adjointFinish_other filled other
      obtain ⟨_, _, rewritten, rewritten', rfl⟩ :=
        CallRule.rewrite_twice isCall_adjointFinish others others operation first second
      rw [ExprTree.mapChains_other operation, Expr.map_eq_refill,
        eq_map_of_twice rewritten rewritten' parts]

theorem mapChains_eq_self (same : ∀ u ∈ e.uses known, cancel u.chain = u.chain) :
    e.mapChains known cancel = e := by
  induction e using ExprTree.induct with
  | step label layer ih =>
    have inner : layer.map (ExprTree.mapChains known cancel) = layer := by
      refine (Expr.map_congr fun part inside => ih part inside fun u member => ?_).trans
        (Expr.map_id layer)
      exact same u (ExprTree.mem_uses_node.2 (.inr ⟨part, inside, member⟩))
    rw [ExprTree.mapChains_node, inner]
    cases layer with
    | call func args keywords =>
      rw [ExprTree.changeCallee]
      split
      · obtain ⟨name, named⟩ := Option.isSome_iff_exists.1 ‹_›
        have used : ExprTree.use? known (.call func args keywords) = some ⟨name, func.chain⟩ := by
          rw [ExprTree.use?, named, Option.map_some]
        rw [same _ (ExprTree.mem_uses_node.2 (.inl used)), ExprTree.wrap_chain_base]
      · rfl
    | _ => rfl

end Expressions

namespace StmtTree

def mapValues (f : ExprTerm → ExprTerm) : StmtTerm → StmtTerm
  | .expr _ value => .expr () (f value)
  | .assign _ target value => .assign () target (f value)
  | .scoped _ context binding body =>
    .scoped () context binding (body.attach.map fun s => mapValues f s.1)
  | .conditional _ test body orelse =>
    .conditional () test (body.attach.map fun s => mapValues f s.1)
      (orelse.attach.map fun s => mapValues f s.1)
  | s => s
termination_by s => sizeOf s
decreasing_by all_goals exact sizeOf_inner (by simp [inner, s.2])

variable {f : ExprTerm → ExprTerm}

theorem mapValues_scoped (context : ExprTerm) (binding : Option ExprTerm) (body : List StmtTerm) :
    mapValues f (.scoped () context binding body) =
      .scoped () context binding (body.map (mapValues f)) := by
  rw [mapValues, List.attach_map_val (f := mapValues f)]

theorem mapValues_conditional (test : ExprTerm) (body orelse : List StmtTerm) :
    mapValues f (.conditional () test body orelse) =
      .conditional () test (body.map (mapValues f)) (orelse.map (mapValues f)) := by
  rw [mapValues, List.attach_map_val (f := mapValues f), List.attach_map_val (f := mapValues f)]

theorem mapValues_sealed {s : StmtTerm} (closed : s.sealed) : s.mapValues f = s := by
  cases s with
  | importAs _ _ _ | define _ _ | classDef _ _ _ | wire _ _ _ _ | pass _ => simp only [mapValues]
  | expr _ _ | assign _ _ _ | «scoped» _ _ _ _ | conditional _ _ _ _ => cases closed

theorem mapValues_eq_self {s : StmtTerm} (same : ∀ value ∈ s.values, f value = value) :
    s.mapValues f = s := by
  induction s using induct with
  | step s ih =>
    have block : ∀ body : List StmtTerm, (∀ part ∈ body, part ∈ s.inner) →
        (∀ value ∈ body.flatMap values, f value = value) → body.map (mapValues f) = body := by
      intro body inside same
      refine (List.map_congr_left fun part member => ?_).trans body.map_id
      exact ih part (inside part member) fun value listed =>
        same value (List.mem_flatMap.2 ⟨part, member, listed⟩)
    cases s with
    | importAs _ _ _ | define _ _ | classDef _ _ _ | wire _ _ _ _ | pass _ =>
      exact mapValues_sealed rfl
    | expr _ value =>
      rw [values_expr] at same
      rw [mapValues, same value (List.mem_singleton_self value)]
    | assign _ target value =>
      rw [values_assign] at same
      rw [mapValues, same value (List.mem_singleton_self value)]
    | «scoped» _ context binding body =>
      rw [values_scoped] at same
      rw [mapValues_scoped, block body (fun _ member => member) same]
    | conditional _ test body orelse =>
      rw [values_conditional] at same
      rw [mapValues_conditional,
        block body (by simp +contextual [inner]) fun value member => same value (by simp [member]),
        block orelse (by simp +contextual [inner]) fun value member => same value (by simp [member])]

end StmtTree

section Blocks

variable {rule : CallRule} {reversed : ExprTerm → Bool} {f : ExprTerm → ExprTerm}

theorem CallRule.mapM_twice {body rs rs' : List StmtTerm} (turned : Bool)
    (each : ∀ s ∈ body, ∀ s₁ r, rule.rewriteStmt reversed s = .ok s₁ →
      rule.rewriteStmt reversed s₁ = .ok r → r = s.mapValues f)
    (first : body.mapM (rule.rewriteStmt reversed) = .ok rs)
    (second : (if turned then rs.reverse else rs).mapM (rule.rewriteStmt reversed) = .ok rs') :
    (if turned then rs'.reverse else rs') = body.map (StmtTree.mapValues f) := by
  have once := Plan.mapM_eq_ok first
  have twice := Plan.mapM_eq_ok second
  cases turned with
  | false => exact eq_map_of_twice once twice each
  | true =>
    rw [if_pos rfl, ← rs'.reverse_reverse, List.forall₂_reverse_iff] at twice
    exact eq_map_of_twice once twice each

theorem CallRule.rewriteStmt_twice
    (each : ∀ e d r, rule.rewrite e = .ok d → rule.rewrite d = .ok r → r = f e) {s s₁ r : StmtTerm}
    (first : rule.rewriteStmt reversed s = .ok s₁)
    (second : rule.rewriteStmt reversed s₁ = .ok r) : r = s.mapValues f := by
  induction s using StmtTree.induct generalizing s₁ r with
  | step s ih =>
    have block : ∀ body : List StmtTerm, (∀ part ∈ body, part ∈ s.inner) → ∀ part ∈ body,
        ∀ s₁ r, rule.rewriteStmt reversed part = .ok s₁ → rule.rewriteStmt reversed s₁ = .ok r →
          r = part.mapValues f :=
      fun body inside part member s₁ r first second => ih part (inside part member) first second
    cases CallRule.rewritten first with
    | kept closed =>
      rw [CallRule.rewriteStmt_sealed closed] at second
      cases second
      exact (StmtTree.mapValues_sealed closed).symm
    | expr ran =>
      obtain ⟨_, ran', rfl⟩ := CallRule.rewriteStmt_expr_ok second
      rw [StmtTree.mapValues, each _ _ _ ran ran']
    | assign ran =>
      obtain ⟨_, ran', rfl⟩ := CallRule.rewriteStmt_assign_ok second
      rw [StmtTree.mapValues, each _ _ _ ran ran']
    | @scope context binding body rs ran =>
      obtain ⟨rs', ran', rfl⟩ := CallRule.rewriteStmt_scoped_ok second
      rw [StmtTree.mapValues_scoped, CallRule.mapM_twice (reversed context)
        (block body fun _ member => member) ran ran']
    | @conditional test body orelse rs rs' ran ranElse =>
      obtain ⟨_, _, ran', ranElse', rfl⟩ := CallRule.rewriteStmt_conditional_ok second
      have inBody := CallRule.mapM_twice false
        (block body (by simp +contextual [StmtTree.inner])) ran ran'
      have inElse := CallRule.mapM_twice false
        (block orelse (by simp +contextual [StmtTree.inner])) ranElse ranElse'
      rw [if_neg Bool.false_ne_true] at inBody inElse
      rw [StmtTree.mapValues_conditional, inBody, inElse]

theorem adjointStmts_twice {known : OperationTable} {o : Options} {body rs rs' : List StmtTerm}
    (first : adjointStmts known o body = .ok rs) (second : adjointStmts known o rs = .ok rs') :
    rs' = body.map (StmtTree.mapValues (ExprTree.mapChains known GateFunctor.reduceChain)) := by
  obtain ⟨_, ran, ended⟩ := Plan.bind_eq_ok.1 first
  cases ended
  obtain ⟨_, ran', ended⟩ := Plan.bind_eq_ok.1 second
  cases ended
  exact CallRule.mapM_twice true (fun s _ s₁ r a b =>
    CallRule.rewriteStmt_twice (fun _ _ _ => adjoint_twice) a b) ran ran'

end Blocks

/-- A copy of the block, replaced by its adjoint and then by the adjoint of that. -/
def LowerM.adjointTwice (block : List NodeId) : LowerM (List NodeId) := do
  let copy ← TreeM.copyBlock block
  let once ← adjointBlock copy
  adjointBlock once

section Arena

variable {t : SyntaxTree} {c : Context} {block : List NodeId} {body : List StmtTerm}

theorem adjointTwice_runs (read : t.Reads block body) :
    Runs (LowerM.adjointTwice block) t c
      (do let rs ← adjointStmts c.operations c.options body
          adjointStmts c.operations c.options rs)
      fun rs ids t' _ => t'.Reads block body ∧ t'.Reads ids rs := by
  obtain ⟨stmts, rfl, rfl, held⟩ := read
  obtain ⟨copies, t₁, copied, same, becomes⟩ := copyBlock_run held
  have owned := becomes.owns .nil
  unfold LowerM.adjointTwice
  rw [Runs.treeM_bind copied, ← same]
  refine (adjointBlock_runs copies owned).bind ?_
  rintro _ _ t₂ _ ⟨rfl, once, rfl, rfl, changed⟩
  refine (adjointBlock_runs once (changed.owns owned)).mono ?_
  rintro _ ids t₃ _ ⟨-, twice, rfl, rfl, changed'⟩
  have all := becomes.trans (changed.trans changed')
  exact ⟨⟨stmts, rfl, same.symm, all.ext.holds held (by simp)⟩, twice, rfl, rfl, all.held⟩

/-- The adjoint of the adjoint of a block is the block with the adjacent adjoints around its callees
cancelled, in whatever order. It is the block itself if there are none, and the block stays. -/
theorem adjointTwice_cancels {ids : List NodeId} {s : LoweringState} (read : t.Reads block body)
    (ran : LowerM.adjointTwice block ⟨t, c⟩ = .ok ids s) :
    s.tree.Reads block body ∧
      (∀ cancel : List GateFunctor → List GateFunctor,
        (∀ chain, GateFunctor.Cancelled chain (cancel chain)) →
        s.tree.Reads ids (body.map (StmtTree.mapValues (ExprTree.mapChains c.operations cancel)))) ∧
      ((∀ u ∈ usesIn c.operations body, GateFunctor.Irreducible u.chain) → s.tree.Reads ids body) := by
  obtain ⟨rs', ended, kept, read'⟩ := (adjointTwice_runs read).exists_of_ok ran
  obtain ⟨rs, first, second⟩ := Plan.bind_eq_ok.1 ended
  have twice := adjointStmts_twice first second
  refine ⟨kept, fun cancel cancels => ?_, fun irreducible => ?_⟩
  · have same : cancel = GateFunctor.reduceChain :=
      funext fun chain => GateFunctor.cancelled_iff.1 (cancels chain)
    rwa [same, ← twice]
  · have unchanged : body.map (StmtTree.mapValues
        (ExprTree.mapChains c.operations GateFunctor.reduceChain)) = body := by
      refine (List.map_congr_left fun stmt listed => ?_).trans body.map_id
      refine StmtTree.mapValues_eq_self fun value inside => ?_
      refine mapChains_eq_self fun u member => ?_
      have value := List.mem_flatMap.2 ⟨stmt, listed, inside⟩
      exact (irreducible u (List.mem_flatMap.2 ⟨_, value, member⟩)).reduceChain_eq
    rwa [twice, unchanged] at read'

def twoCallScope : StmtTree NodeId :=
  .scoped 18 (.node 8 (.call (.node 7 (.attribute (.node 6 (.name "bp")) "control_scope")) [] [])) none
    [.expr 12 (.node 11 (.call (.node 9 (.name "X")) [.node 10 (.name "q")] [])),
      .expr 17 (.node 16 (.call (.node 14 (.functor .adjoint (.node 13 (.name "R1"))))
        [.node 15 (.name "q")] []))]

/-- The scope comes back in its order, and the two adjoints before it are gone. -/
theorem adjointTwice_cancels_scope :
    let t : SyntaxTree := ⟨#[.expr (.name "R1"), .expr (.functor .adjoint 0),
      .expr (.functor .adjoint 1), .expr (.name "q"), .expr (.call 2 [3] []), .stmt (.expr 4),
      .expr (.name "bp"), .expr (.attribute 6 "control_scope"), .expr (.call 7 [] []),
      .expr (.name "X"), .expr (.name "q"), .expr (.call 9 [10] []), .stmt (.expr 11),
      .expr (.name "R1"), .expr (.functor .adjoint 13), .expr (.name "q"), .expr (.call 14 [15] []),
      .stmt (.expr 16), .stmt (.scoped 8 none [12, 17])], []⟩
    (∃ ids s, LowerM.adjointTwice [18] ⟨t, .new .default⟩ = .ok ids s ∧
      s.tree.Reads ids [twoCallScope.erase]) ∧
    ∃ ids s, LowerM.adjointTwice [5, 18] ⟨t, .new .default⟩ = .ok ids s ∧ s.tree.Reads ids
      [.expr () (.node () (.call (nameTerm "R1") [nameTerm "q"] [])), twoCallScope.erase] := by
  intro t
  let first : StmtTree NodeId := .expr 5 (.node 4 (.call (.node 2 (.functor .adjoint (.node 1
    (.functor .adjoint (.node 0 (.name "R1")))))) [.node 3 (.name "q")] []))
  have held : Holds t twoCallScope.cells := by
    simp [t, twoCallScope, Expr.map, Expr.children, Holds, StmtTree.label]
  have heldFirst : Holds t first.cells := by
    simp [t, first, Expr.map, Expr.children, Holds]
  have read : t.Reads [18] [twoCallScope.erase] := ⟨[twoCallScope], rfl, rfl, by simpa using held⟩
  have readBoth : t.Reads [5, 18] [first.erase, twoCallScope.erase] := by
    refine ⟨[first, twoCallScope], rfl, rfl, fun cell member => ?_⟩
    obtain ⟨s, listed, inside⟩ := List.mem_flatMap.1 member
    rcases List.mem_pair.1 listed with rfl | rfl
    · exact heldFirst cell inside
    · exact held cell inside
  have gates : (nameTerm "X").operation? .preamble = some "X" ∧
      (ExprTree.node () (.functor .adjoint (nameTerm "R1"))).operation? .preamble = some "R1" := by
    decide +kernel
  have uses : usesIn .preamble [twoCallScope.erase] = [⟨"X", []⟩, ⟨"R1", [.adjoint]⟩] := by
    rw [nameTerm, nameTerm] at gates
    simp [usesIn, twoCallScope, ExprTree.uses_node, ExprTree.use?, Expr.map, Expr.children,
      ExprTree.chain, gates]
  have irreducible : ∀ u ∈ usesIn .preamble [twoCallScope.erase],
      GateFunctor.Irreducible u.chain := by
    rw [uses]
    intro u member
    unfold GateFunctor.Irreducible
    rcases List.mem_pair.1 member with rfl | rfl <;> decide
  have succeeds : LowerM.succeeds (LowerM.adjointTwice [18]) ⟨t, .new .default⟩ := by decide +kernel
  have succeeds' : LowerM.succeeds (LowerM.adjointTwice [5, 18]) ⟨t, .new .default⟩ := by
    decide +kernel
  obtain ⟨ids, s, ran⟩ := LowerM.exists_of_succeeds succeeds
  obtain ⟨ids', s', ran'⟩ := LowerM.exists_of_succeeds succeeds'
  obtain ⟨-, cancels, unchanged⟩ := adjointTwice_cancels read ran
  obtain ⟨-, cancels', -⟩ := adjointTwice_cancels readBoth ran'
  have cancelled : ∀ chain, GateFunctor.Cancelled chain (GateFunctor.reduceChain chain) :=
    fun chain => GateFunctor.cancelled_iff.2 rfl
  have scope := (cancels _ cancelled).unique (unchanged irreducible)
  refine ⟨⟨ids, s, ran, unchanged irreducible⟩, ids', s', ran', ?_⟩
  have both := cancels' _ cancelled
  rw [List.map_cons, scope] at both
  have call : first.erase.mapValues (ExprTree.mapChains .preamble GateFunctor.reduceChain) =
      .expr () (.node () (.call (nameTerm "R1") [nameTerm "q"] [])) := by
    have operation : ExprTree.isOperationCall .preamble (.call (.node () (.functor .adjoint
        (.node () (.functor .adjoint (nameTerm "R1"))))) [nameTerm "q"] []) := by decide +kernel
    have named : ∀ name, (nameTerm name).mapChains .preamble GateFunctor.reduceChain =
        nameTerm name := fun name => ExprTree.mapChains_node _
    have erased : first.erase = .expr () (.node () (.call (.node () (.functor .adjoint
        (.node () (.functor .adjoint (nameTerm "R1"))))) [nameTerm "q"] [])) := by
      simp [first, nameTerm, Expr.map]
    have base : (ExprTree.node () (.functor .adjoint (.node () (.functor .adjoint
      (nameTerm "R1"))))).base = nameTerm "R1" := rfl
    rw [erased, StmtTree.mapValues, ExprTree.mapChains_call operation, List.map_singleton, base,
      named, named]
    rfl
  rwa [← call]

end Arena

end QuantumLowering
