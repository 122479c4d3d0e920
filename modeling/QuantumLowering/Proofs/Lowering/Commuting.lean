import QuantumLowering.Proofs.Lowering.Guards

namespace QuantumLowering

namespace GateFunctor

/-- One adjoint or none, and then the other functors. -/
def normalChain (chain : List GateFunctor) : List GateFunctor :=
  (if inverts chain then [.adjoint] else []) ++ withoutAdjoints chain

theorem withoutAdjoints_eq_replicate (chain : List GateFunctor) :
    withoutAdjoints chain = List.replicate (chain.count .controlled) .controlled := by
  induction chain with
  | nil => rfl
  | cons f chain ih =>
    unfold withoutAdjoints at ih ⊢
    cases f with
    | adjoint => simpa using ih
    | controlled => simpa [List.replicate_succ] using ih

theorem normalChain_eq_iff {chain chain' : List GateFunctor} :
    normalChain chain = normalChain chain' ↔
      chain.count .controlled = chain'.count .controlled ∧
        chain.count .adjoint % 2 = chain'.count .adjoint % 2 := by
  have controls : ∀ chain, (normalChain chain).count .controlled = chain.count .controlled := by
    intro chain
    rw [normalChain, withoutAdjoints_eq_replicate, List.count_append, List.count_replicate_self]
    split <;> simp
  have adjoints : ∀ chain, (normalChain chain).count .adjoint = chain.count .adjoint % 2 := by
    intro chain
    rw [normalChain, withoutAdjoints_eq_replicate, List.count_append, inverts]
    rcases Nat.mod_two_eq_zero_or_one (chain.count .adjoint) with even | odd
    · simp [even, List.count_replicate]
    · simp [odd, List.count_replicate]
  constructor
  · intro same
    exact ⟨by rw [← controls, same, controls], by rw [← adjoints, same, adjoints]⟩
  · rintro ⟨sameControls, sameParity⟩
    rw [normalChain, normalChain, inverts, inverts, withoutAdjoints_eq_replicate,
      withoutAdjoints_eq_replicate, sameControls, sameParity]

theorem normalChain_reduceChain (chain : List GateFunctor) :
    normalChain (reduceChain chain) = normalChain chain := by
  rw [normalChain, normalChain, inverts_reduceChain, withoutAdjoints_reduceChain]

/-- Adjoints may cancel before the control is put between them, or be kept apart by it. -/
theorem normalChain_orders (chain : List GateFunctor) :
    normalChain (reduceChain (.adjoint :: controlChain chain)) =
      normalChain (controlChain (reduceChain (.adjoint :: chain))) := by
  by_cases listed : .controlled ∈ chain
  · have there : .controlled ∈ reduceChain (.adjoint :: chain) :=
      (controlled_mem_reduceChain _).2 (List.mem_cons_of_mem _ listed)
    rw [controlChain, controlChain, if_pos listed, if_pos there]
  · have absent : .controlled ∉ reduceChain (.adjoint :: chain) := by
      simpa [controlled_mem_reduceChain] using listed
    obtain ⟨controls, adjoints⟩ :=
      normalChain_eq_iff.1 (normalChain_reduceChain (.adjoint :: chain))
    rw [controlChain, controlChain, if_neg listed, if_neg absent, normalChain_reduceChain,
      normalChain_eq_iff]
    simp only [List.count_cons, reduceCtorEq, beq_iff_eq] at controls adjoints ⊢
    omega

end GateFunctor

namespace ExprTree

def mapCalls (change : Expr ExprTerm → Expr ExprTerm) : ExprTerm → ExprTerm
  | .node _ layer => .node () (change (layer.attach.map fun part => mapCalls change part.1))
termination_by e => sizeOf e
decreasing_by exact sizeOf_part part.2

section MapCalls

variable {known : OperationTable} {change : Expr ExprTerm → Expr ExprTerm}

theorem mapCalls_node (layer : Expr ExprTerm) :
    mapCalls change (.node () layer) = .node () (change (layer.map (mapCalls change))) := by
  rw [mapCalls, layer.attach_map (mapCalls change)]

theorem exists_mapCalls_call (calls : ∀ layer, layer.isCall → (change layer).isCall)
    (func : ExprTerm) (args : List ExprTerm) (keywords : List (Keyword ExprTerm)) :
    ∃ func' args' keywords', mapCalls change (.node () (.call func args keywords)) =
      .node () (.call func' args' keywords') := by
  obtain ⟨func', args', keywords', same⟩ := Expr.eq_call
    (calls ((Expr.call func args keywords).map (mapCalls change)) (by rw [Expr.isCall_map]; rfl))
  exact ⟨func', args', keywords', by rw [mapCalls_node, same]⟩

variable (others : ∀ layer, layer.isCall = false → change layer = layer)

include others

theorem mapCalls_other {layer : Expr ExprTerm} (other : layer.isCall = false) :
    mapCalls change (.node () layer) = .node () (layer.map (mapCalls change)) := by
  rw [mapCalls_node, others _ (by rw [Expr.isCall_map, other])]

theorem mapCalls_functor (g : GateFunctor) (target : ExprTerm) :
    mapCalls change (.node () (.functor g target)) = .node () (.functor g (mapCalls change target)) :=
  mapCalls_other others rfl

variable (calls : ∀ layer, layer.isCall → (change layer).isCall)

include calls

theorem chain_mapCalls (e : ExprTerm) : (mapCalls change e).chain = e.chain := by
  induction e using induct with
  | step label layer ih =>
    cases layer with
    | functor g target =>
      rw [mapCalls_functor others, chain, chain, ih target (by simp [Expr.children])]
    | call func args keywords =>
      obtain ⟨func', args', keywords', same⟩ := exists_mapCalls_call calls func args keywords
      rw [same]
      rfl
    | _ =>
      rw [mapCalls_other others rfl]
      rfl

theorem base_mapCalls (e : ExprTerm) : (mapCalls change e).base = mapCalls change e.base := by
  induction e using induct with
  | step label layer ih =>
    cases layer with
    | functor g target =>
      rw [mapCalls_functor others, base, base, ih target (by simp [Expr.children])]
    | call func args keywords =>
      obtain ⟨func', args', keywords', same⟩ := exists_mapCalls_call calls func args keywords
      have itself : (node label (.call func args keywords)).base =
        .node () (.call func args keywords) := rfl
      rw [itself, same]
      rfl
    | _ =>
      change (mapCalls change (.node () _)).base = mapCalls change (.node () _)
      rw [mapCalls_other others rfl]
      rfl

theorem operation?_mapCalls (e : ExprTerm) :
    (mapCalls change e).operation? known = e.operation? known := by
  have named : (mapCalls change e).operationName = e.operationName := by
    unfold operationName
    rw [base_mapCalls others calls]
    obtain ⟨_, layer⟩ := e.base
    cases layer with
    | call func args keywords =>
      obtain ⟨func', args', keywords', same⟩ := exists_mapCalls_call calls func args keywords
      rw [same]
      rfl
    | _ =>
      rw [mapCalls_other others rfl]
      rfl
  rw [operation?, operation?, named]

end MapCalls

def changeCallee (known : OperationTable) (f : List GateFunctor → List GateFunctor) :
    Expr ExprTerm → Expr ExprTerm
  | .call func args keywords =>
    if (func.operation? known).isSome then .call (.wrap (f func.chain) func.base) args keywords
    else .call func args keywords
  | layer => layer

def mapChains (known : OperationTable) (f : List GateFunctor → List GateFunctor) :
    ExprTerm → ExprTerm
  | .node _ layer =>
    .node () (changeCallee known f (layer.attach.map fun part => mapChains known f part.1))
termination_by e => sizeOf e
decreasing_by exact sizeOf_part part.2

def normalCallee (known : OperationTable) : Expr ExprTerm → Expr ExprTerm
  | .call func args keywords =>
    if (func.operation? known).isSome then
      .call (.wrap (GateFunctor.normalChain func.chain) func.base) args keywords
    else .call func args keywords
  | layer => layer

/-- The expression with the chains of all calls of known operations in normal form. -/
def canonical (known : OperationTable) : ExprTerm → ExprTerm
  | .node _ layer =>
    .node () (normalCallee known (layer.attach.map fun part => canonical known part.1))
termination_by e => sizeOf e
decreasing_by exact sizeOf_part part.2

section MapChains

variable {known : OperationTable} {f : List GateFunctor → List GateFunctor}

theorem mapChains_node (layer : Expr ExprTerm) : mapChains known f (.node () layer) =
    .node () (changeCallee known f (layer.map (mapChains known f))) := by
  rw [mapChains, layer.attach_map (mapChains known f)]

theorem mapChains_eq_mapCalls : mapChains known f = mapCalls (changeCallee known f) := by
  funext e
  induction e using induct with
  | step label layer ih => rw [mapChains_node, mapCalls_node, Expr.map_congr ih]

theorem changeCallee_other {layer : Expr ExprTerm} (other : layer.isCall = false) :
    changeCallee known f layer = layer := by
  cases layer with
  | call func args keywords => cases other
  | _ => rfl

theorem isCall_changeCallee {layer : Expr ExprTerm} (call : layer.isCall) :
    (changeCallee known f layer).isCall := by
  obtain ⟨func, args, keywords, rfl⟩ := Expr.eq_call call
  rw [changeCallee]
  split <;> rfl

theorem chain_mapChains (e : ExprTerm) : (mapChains known f e).chain = e.chain := by
  rw [mapChains_eq_mapCalls]
  exact chain_mapCalls (fun _ => changeCallee_other) (fun _ => isCall_changeCallee) e

theorem base_mapChains (e : ExprTerm) : (mapChains known f e).base = mapChains known f e.base := by
  rw [mapChains_eq_mapCalls]
  exact base_mapCalls (fun _ => changeCallee_other) (fun _ => isCall_changeCallee) e

theorem operation?_mapChains (e : ExprTerm) :
    (mapChains known f e).operation? known = e.operation? known := by
  rw [mapChains_eq_mapCalls]
  exact operation?_mapCalls (fun _ => changeCallee_other) (fun _ => isCall_changeCallee) e

theorem mapChains_call {func : ExprTerm} {args : List ExprTerm} {keywords : List (Keyword ExprTerm)}
    (operation : isOperationCall known (.call func args keywords)) :
    mapChains known f (.node () (.call func args keywords)) =
      .node () (.call (.wrap (f func.chain) (mapChains known f func.base))
        (args.map (mapChains known f)) (keywords.map (Keyword.map (mapChains known f)))) := by
  have known : (func.operation? known).isSome := operation
  rw [mapChains_node, Expr.map, changeCallee, operation?_mapChains, if_pos known, chain_mapChains,
    base_mapChains]

theorem mapChains_other {layer : Expr ExprTerm} (other : isOperationCall known layer = false) :
    mapChains known f (.node () layer) = .node () (layer.map (mapChains known f)) := by
  rw [mapChains_node]
  cases layer with
  | call func args keywords =>
    have unknown : ¬ (func.operation? known).isSome := by simpa [isOperationCall] using other
    rw [Expr.map, changeCallee, operation?_mapChains, if_neg unknown]
  | _ => rfl

end MapChains

variable {known : OperationTable}

theorem canonical_node (layer : Expr ExprTerm) : canonical known (.node () layer) =
    .node () (normalCallee known (layer.map (canonical known))) := by
  rw [canonical, layer.attach_map (canonical known)]

theorem canonical_eq_mapChains : canonical known = mapChains known GateFunctor.normalChain := by
  have callee : normalCallee known = changeCallee known GateFunctor.normalChain := by
    funext layer
    cases layer <;> rfl
  funext e
  induction e using induct with
  | step label layer ih => rw [canonical_node, mapChains_node, callee, Expr.map_congr ih]

theorem canonical_call {func : ExprTerm} {args : List ExprTerm} {keywords : List (Keyword ExprTerm)}
    (operation : isOperationCall known (.call func args keywords)) :
    canonical known (.node () (.call func args keywords)) =
      .node () (.call (.wrap (GateFunctor.normalChain func.chain) (canonical known func.base))
        (args.map (canonical known)) (keywords.map (Keyword.map (canonical known)))) := by
  rw [canonical_eq_mapChains]
  exact mapChains_call operation

end ExprTree

def ExprTree.arguments : ExprTerm → List ExprTerm
  | .node _ (.call _ args keywords) => args ++ keywords.map Keyword.value
  | _ => []

/-- No call of a known operation stands in the arguments of another. -/
def ExprTree.Unnested (known : OperationTable) (e : ExprTerm) : Prop :=
  ∀ call ∈ e.operationCalls known, ∀ arg ∈ call.arguments, arg.operationCalls known = []

section Calls

variable {known : OperationTable} {control : String} {func : ExprTerm} {args : List ExprTerm}
  {keywords : List (Keyword ExprTerm)}

theorem CallRule.rewrite_base {rule : CallRule}
    (calls : ∀ layer filled, (rule.finish layer filled).isCall = filled.isCall) {e r : ExprTerm}
    (ended : rule.rewrite e = .ok r) : rule.rewrite e.base = .ok r.base := by
  induction e using ExprTree.induct generalizing r with
  | step label layer ih =>
    cases layer with
    | functor f target =>
      obtain ⟨parts, rewritten, rfl⟩ := CallRule.rewrite_eq_ok ended
      obtain ⟨target', rest, ran, -, rfl⟩ := List.forall₂_cons_left_iff.1 rewritten
      rw [rule.finish_other _ _ rfl]
      have inner := ih target (by simp [Expr.children]) ran
      exact inner
    | _ =>
      have chain := ExprTree.chain_eq_of_trunk (CallRule.trunk_rewrite calls ended)
      have itself := r.wrap_chain_base
      rw [chain] at itself
      rw [← itself] at ended
      exact ended

theorem CallRule.rewrite_call {rule : CallRule} {r : ExprTerm}
    (plain : ∀ arg ∈ args ++ keywords.map Keyword.value, ∀ r, rule.rewrite arg = .ok r → r = arg)
    (ended : rule.rewrite (.node () (.call func args keywords)) = .ok r) :
    ∃ func', rule.rewrite func = .ok func' ∧
      r = .node () (rule.finish (.call func args keywords) (.call func' args keywords)) := by
  obtain ⟨parts, rewritten, rfl⟩ := CallRule.rewrite_eq_ok ended
  obtain ⟨func', rest, ran, others, rfl⟩ := List.forall₂_cons_left_iff.1 rewritten
  have same : rest.map id = (args ++ keywords.map Keyword.value).map id :=
    map_eq_of_forall₂ others fun part inside r ended => plain part inside r ended
  rw [List.map_id, List.map_id] at same
  rw [same]
  have filled : (Expr.call func args keywords).refill
      (func' :: (args ++ keywords.map Keyword.value)) = .call func' args keywords :=
    Expr.refill_children (.call func' args keywords)
  exact ⟨func', ran, by rw [filled]⟩

theorem control_eq_self {e r : ExprTerm} (without : ExprTree.operationCalls known e = [])
    (ended : (controlRule known control).rewrite e = .ok r) : r = e :=
  CallRule.rewrite_eq_self (fun _ filled other => controlFinish_other filled other) without ended

def controlArgs (control : String) : Signature → List ExprTerm → List ExprTerm
  | .identity, args => nameTerm control :: args
  | .controlled, [] => []
  | .controlled, existing :: args =>
    .node () (.aggregate (mergedControls (nameTerm control) existing existing)) :: args

theorem controlArgs_plain {signature : Signature}
    (plain : ∀ arg ∈ args, arg.operationCalls known = []) :
    ∀ arg ∈ controlArgs control signature args, arg.operationCalls known = [] := by
  have named := ExprTree.operationCalls_nameTerm known control
  cases signature with
  | identity =>
    intro arg member
    rcases List.mem_cons.1 member with rfl | member
    · exact named
    · exact plain arg member
  | controlled =>
    cases args with
    | nil => exact plain
    | cons existing args =>
      intro arg member
      rcases List.mem_cons.1 member with rfl | member
      · rw [ExprTree.operationCalls_node]
        refine List.flatMap_eq_nil_iff.2 fun leaf inside => ?_
        rcases List.mem_cons.1 ((mergedControls_sublist rfl).subset inside) with rfl | inside
        · exact named
        · have subset : leaf.operationCalls known ⊆ _ :=
            ExprTree.operationCalls_subset_of_mem_leaves inside
          rw [plain existing List.mem_cons_self] at subset
          exact List.subset_nil.1 subset
      · exact plain arg (List.mem_cons_of_mem _ member)

theorem control_call {r : ExprTerm}
    (operation : ExprTree.isOperationCall known (.call func args keywords))
    (plain : ∀ arg ∈ args ++ keywords.map Keyword.value, arg.operationCalls known = [])
    (ended : (controlRule known control).rewrite (.node () (.call func args keywords)) = .ok r) :
    ∃ func' : ExprTerm, (controlRule known control).rewrite func.base = .ok func'.base ∧
      r = .node () (.call (.wrap (GateFunctor.controlChain func.chain) func'.base)
        (controlArgs control func.signature args) keywords) := by
  obtain ⟨func', ran, rfl⟩ := CallRule.rewrite_call
    (fun arg member r ended => control_eq_self (plain arg member) ended) ended
  refine ⟨func', CallRule.rewrite_base isCall_controlFinish ran, congrArg _ ?_⟩
  have trunk := trunk_control ran
  have callee := func'.wrap_chain_base
  rw [ExprTree.chain_eq_of_trunk trunk] at callee
  have controls : ControlsCall control (.call func args keywords) (.call func' args keywords)
      ((controlRule known control).finish (.call func args keywords) (.call func' args keywords)) :=
    controls_of_check operation (CallRule.check_of_rewrite ended) (by simp [Expr.map, trunk])
  generalize (controlRule known control).finish (.call func args keywords)
    (.call func' args keywords) = finished at controls
  cases controls with
  | plain signature _ =>
    rw [controlChain_of_identity signature, signature, ExprTree.wrap, List.foldr_cons,
      ← ExprTree.wrap, callee]
    rfl
  | merged signature _ _ =>
    rw [controlChain_of_controlled signature, signature, callee]
    rfl

theorem adjoint_call {r : ExprTerm}
    (operation : ExprTree.isOperationCall known (.call func args keywords))
    (plain : ∀ arg ∈ args ++ keywords.map Keyword.value, arg.operationCalls known = [])
    (ended : (adjointRule known).rewrite (.node () (.call func args keywords)) = .ok r) :
    ∃ func' : ExprTerm, (adjointRule known).rewrite func.base = .ok func'.base ∧
      r = .node () (.call (.wrap (GateFunctor.reduceChain (.adjoint :: func.chain)) func'.base)
        args keywords) := by
  obtain ⟨func', ran, rfl⟩ := CallRule.rewrite_call
    (fun arg member r ended => adjoint_eq_self (plain arg member) ended) ended
  exact ⟨func', CallRule.rewrite_base isCall_adjointFinish ran,
    congrArg _ (adjointFinish_call operation)⟩

end Calls

theorem map_eq_of_orders {α β : Type} {f g : α → Plan α} {h : α → β} {xs ys zs ys' zs' : List α}
    (first : List.Forall₂ (fun x y => f x = .ok y) xs ys)
    (second : List.Forall₂ (fun y z => g y = .ok z) ys zs)
    (first' : List.Forall₂ (fun x y => g x = .ok y) xs ys')
    (second' : List.Forall₂ (fun y z => f y = .ok z) ys' zs')
    (each : ∀ x ∈ xs, ∀ y z y' z', f x = .ok y → g y = .ok z → g x = .ok y' → f y' = .ok z' →
      h z = h z') : zs.map h = zs'.map h := by
  induction first generalizing zs ys' zs' with
  | nil =>
    cases second
    cases first'
    cases second'
    rfl
  | cons here _ ih =>
    cases second with | cons next second
    cases first' with | cons here' first'
    cases second' with | cons next' second'
    rw [List.map_cons, List.map_cons, each _ (by simp) _ _ _ _ here next here' next',
      ih second first' second' fun x inside => each x (by simp [inside])]

section Orders

variable {known : OperationTable} {control : String}

/-- Whichever functor comes first, the results are the same up to chains. -/
def ExprTree.Agrees (known : OperationTable) (control : String) (e : ExprTerm) : Prop :=
  ∀ e₁ r e₂ r', (controlRule known control).rewrite e = .ok e₁ →
    (adjointRule known).rewrite e₁ = .ok r → (adjointRule known).rewrite e = .ok e₂ →
    (controlRule known control).rewrite e₂ = .ok r' → canonical known r = canonical known r'

theorem isOperationCall_wrap {func func' : ExprTerm} {args args' : List ExprTerm}
    {keywords keywords' : List (Keyword ExprTerm)} (chain : List GateFunctor)
    (trunk : func'.base.trunk = func.base.trunk)
    (operation : ExprTree.isOperationCall known (.call func args keywords)) :
    ExprTree.isOperationCall known (.call (.wrap chain func'.base) args' keywords') := by
  have same : func'.base.operation? known = _ := ExprTree.operation?_eq_of_trunk trunk
  simp only [ExprTree.isOperationCall, ExprTree.operation?, ExprTree.operationName,
    ExprTree.base_wrap, ExprTree.base_base] at same operation ⊢
  rw [same]
  exact operation

theorem agrees_call {func : ExprTerm} {args : List ExprTerm} {keywords : List (Keyword ExprTerm)}
    (operation : ExprTree.isOperationCall known (.call func args keywords))
    (plain : ∀ arg ∈ args ++ keywords.map Keyword.value, arg.operationCalls known = [])
    (callee : func.base.Agrees known control) :
    ExprTree.Agrees known control (.node () (.call func args keywords)) := by
  intro e₁ r e₂ r' controlled adjoint' adjoint controlled'
  obtain ⟨func₁, base₁, rfl⟩ := control_call operation plain controlled
  obtain ⟨func₂, base₂, rfl⟩ := adjoint_call operation plain adjoint
  have operation₁ : ExprTree.isOperationCall known (.call
      (.wrap (GateFunctor.controlChain func.chain) func₁.base)
      (controlArgs control func.signature args) keywords) :=
    isOperationCall_wrap _ (trunk_control base₁) operation
  have operation₂ : ExprTree.isOperationCall known (.call
      (.wrap (GateFunctor.reduceChain (.adjoint :: func.chain)) func₂.base) args keywords) :=
    isOperationCall_wrap _ (trunk_adjoint base₂) operation
  have plain₁ : ∀ arg ∈ controlArgs control func.signature args ++ keywords.map Keyword.value,
      arg.operationCalls known = [] := by
    intro arg member
    rcases List.mem_append.1 member with member | member
    · refine controlArgs_plain (fun arg inside => ?_) arg member
      exact plain arg (List.mem_append_left _ inside)
    · exact plain arg (List.mem_append_right _ member)
  obtain ⟨func₁', base₁', rfl⟩ := adjoint_call operation₁ plain₁ adjoint'
  obtain ⟨func₂', base₂', rfl⟩ := control_call operation₂ plain controlled'
  rw [ExprTree.base_wrap, ExprTree.base_base] at base₁' base₂'
  simp only [ExprTree.chain_wrap, ExprTree.chain_base, List.append_nil, ExprTree.signature_adjoint]
  have bases := callee _ _ _ _ base₁ base₁' base₂ base₂'
  have trunk := (trunk_adjoint base₁').trans (trunk_control base₁)
  have trunk' := (trunk_control base₂').trans (trunk_adjoint base₂)
  rw [ExprTree.canonical_call (isOperationCall_wrap _ trunk operation),
    ExprTree.canonical_call (isOperationCall_wrap _ trunk' operation)]
  simp only [ExprTree.chain_wrap, ExprTree.chain_base, List.append_nil, ExprTree.base_wrap,
    ExprTree.base_base, GateFunctor.normalChain_orders, bases]

theorem ExprTree.refill_refill {layer : Expr ExprTerm} {parts parts' : List ExprTerm}
    (trunks : parts.map trunk = layer.children.map trunk)
    (length : parts'.length = layer.children.length) :
    (layer.refill parts).refill parts' = layer.refill parts' := by
  have length₁ : parts.length = layer.children.length := by simpa using congrArg List.length trunks
  have length₂ : parts'.length = (layer.refill parts).children.length := by
    rw [Expr.children_refill length₁, length, length₁]
  rw [← Expr.refill_map trunk length₂, trunk_refill trunks, Expr.refill_map _ length]

theorem CallRule.rewrite_twice {rule rule' : CallRule} {layer : Expr ExprTerm} {e r : ExprTerm}
    (calls : ∀ layer filled, (rule.finish layer filled).isCall = filled.isCall)
    (others : ∀ layer filled, ExprTree.isOperationCall known layer = false →
      rule.finish layer filled = filled)
    (others' : ∀ layer filled, ExprTree.isOperationCall known layer = false →
      rule'.finish layer filled = filled)
    (other : ExprTree.isOperationCall known layer = false)
    (first : rule.rewrite (.node () layer) = .ok e) (second : rule'.rewrite e = .ok r) :
    ∃ parts parts', List.Forall₂ (fun x y => rule.rewrite x = .ok y) layer.children parts ∧
      List.Forall₂ (fun x y => rule'.rewrite x = .ok y) parts parts' ∧
      r = .node () (layer.refill parts') := by
  obtain ⟨parts, rewritten, rfl⟩ := CallRule.rewrite_eq_ok first
  have trunks : parts.map ExprTree.trunk = layer.children.map ExprTree.trunk :=
    map_eq_of_forall₂ rewritten fun _ _ _ ended => CallRule.trunk_rewrite calls ended
  rw [others _ _ other] at second
  obtain ⟨parts', rewritten', rfl⟩ := CallRule.rewrite_eq_ok second
  rw [Expr.children_refill rewritten.length_eq.symm] at rewritten'
  have length : parts'.length = layer.children.length :=
    (rewritten.length_eq.trans rewritten'.length_eq).symm
  refine ⟨parts, parts', rewritten, rewritten', ?_⟩
  rw [others' _ _ ((Reading.isOperationCall_refill trunks).trans other),
    ExprTree.refill_refill trunks length]

theorem agrees_other {layer : Expr ExprTerm} (other : ExprTree.isOperationCall known layer = false)
    (parts : ∀ part ∈ layer.children, part.Agrees known control) :
    ExprTree.Agrees known control (.node () layer) := by
  intro e₁ r e₂ r' controlled adjoint' adjoint controlled'
  have controlOthers : ∀ layer filled, ExprTree.isOperationCall known layer = false →
      (controlRule known control).finish layer filled = filled :=
    fun _ filled other => controlFinish_other filled other
  have adjointOthers : ∀ layer filled, ExprTree.isOperationCall known layer = false →
      (adjointRule known).finish layer filled = filled :=
    fun _ filled other => adjointFinish_other filled other
  obtain ⟨parts₁, parts₁', first, second, rfl⟩ := CallRule.rewrite_twice isCall_controlFinish
    controlOthers adjointOthers other controlled adjoint'
  obtain ⟨parts₂, parts₂', first', second', rfl⟩ := CallRule.rewrite_twice isCall_adjointFinish
    adjointOthers controlOthers other adjoint controlled'
  have same := map_eq_of_orders first second first' second' fun part inside _ _ _ _ a b c d =>
    parts part inside _ _ _ _ a b c d
  rw [ExprTree.canonical_node, ExprTree.canonical_node,
    Expr.map_refill _ (first.length_eq.trans second.length_eq).symm,
    Expr.map_refill _ (first'.length_eq.trans second'.length_eq).symm, same]

theorem agrees_of_unnested {e : ExprTerm} (unnested : e.Unnested known) :
    e.Agrees known control := by
  -- a call goes on with the base of its callee, which is not among its parts
  have both : e.Agrees known control ∧ e.base.Agrees known control := by
    induction e using ExprTree.induct with
    | step label layer ih =>
      obtain ⟨here, parts⟩ := ExprTree.forall_operationCalls_node.1 unnested
      have agrees : ExprTree.Agrees known control (.node () layer) := by
        cases operation : ExprTree.isOperationCall known layer with
        | false =>
          refine agrees_other operation fun part inside => ?_
          exact (ih part inside (parts part inside)).1
        | true =>
          cases layer with
          | call func args keywords =>
            have inside : func ∈ (Expr.call func args keywords).children := List.mem_cons_self
            exact agrees_call operation (here operation) (ih func inside (parts func inside)).2
          | _ => cases operation
      refine ⟨agrees, ?_⟩
      cases layer with
      | functor f target =>
        have inside : target ∈ (Expr.functor f target).children := List.mem_cons_self
        exact (ih target inside (parts target inside)).2
      | _ => exact agrees
  exact both.1

end Orders

namespace StmtTree

def canonical (known : OperationTable) : StmtTerm → StmtTerm
  | .expr _ value => .expr () (value.canonical known)
  | .assign _ target value => .assign () target (value.canonical known)
  | .scoped _ context binding body =>
    .scoped () context binding (body.attach.map fun s => canonical known s.1)
  | .conditional _ test body orelse =>
    .conditional () test (body.attach.map fun s => canonical known s.1)
      (orelse.attach.map fun s => canonical known s.1)
  | s => s
termination_by s => sizeOf s
decreasing_by all_goals exact sizeOf_inner (by simp [inner, s.2])

variable (known : OperationTable)

theorem canonical_scoped (context : ExprTerm) (binding : Option ExprTerm) (body : List StmtTerm) :
    canonical known (.scoped () context binding body) =
      .scoped () context binding (body.map (canonical known)) := by
  rw [canonical, List.attach_map_val (f := canonical known)]

theorem canonical_conditional (test : ExprTerm) (body orelse : List StmtTerm) :
    canonical known (.conditional () test body orelse) =
      .conditional () test (body.map (canonical known)) (orelse.map (canonical known)) := by
  rw [canonical, List.attach_map_val (f := canonical known),
    List.attach_map_val (f := canonical known)]

end StmtTree

section Blocks

variable {known : OperationTable} {o : Options} {control : String}

theorem map_canonical_orders {body rs rs₁ rs' rs₁' : List StmtTerm}
    (each : ∀ s ∈ body, ∀ s₁ r s₂ r', controlStmt known control s = .ok s₁ →
      adjointStmt known o s₁ = .ok r → adjointStmt known o s = .ok s₂ →
      controlStmt known control s₂ = .ok r' → r.canonical known = r'.canonical known)
    (reversed : Bool) (controlled : body.mapM (controlStmt known control) = .ok rs)
    (adjoint' : rs.mapM (adjointStmt known o) = .ok rs₁)
    (adjoint : body.mapM (adjointStmt known o) = .ok rs')
    (controlled' : (if reversed then rs'.reverse else rs').mapM (controlStmt known control) =
      .ok rs₁') :
    (if reversed then rs₁.reverse else rs₁).map (StmtTree.canonical known) =
      rs₁'.map (StmtTree.canonical known) := by
  have first := Plan.mapM_eq_ok controlled
  have second := Plan.mapM_eq_ok adjoint'
  have first' := Plan.mapM_eq_ok adjoint
  have second' := Plan.mapM_eq_ok controlled'
  -- the second order reverses before it gives the control, the first one after
  cases reversed with
  | false => exact map_eq_of_orders first second first' second' each
  | true =>
    rw [if_pos rfl, ← rs₁'.reverse_reverse, List.forall₂_reverse_iff] at second'
    have same := map_eq_of_orders first second first' second' each
    rw [if_pos rfl, List.map_reverse, same, ← List.map_reverse, List.reverse_reverse]

theorem canonical_orders {s s₁ r s₂ r' : StmtTerm}
    (unnested : ∀ value ∈ s.values, value.Unnested known)
    (controlled : controlStmt known control s = .ok s₁) (adjoint' : adjointStmt known o s₁ = .ok r)
    (adjoint : adjointStmt known o s = .ok s₂)
    (controlled' : controlStmt known control s₂ = .ok r') :
    r.canonical known = r'.canonical known := by
  induction s using StmtTree.induct generalizing s₁ r s₂ r' with
  | step s ih =>
    have block : ∀ body : List StmtTerm, (∀ part ∈ body, part ∈ s.inner) →
        (∀ value ∈ body.flatMap StmtTree.values, value.Unnested known) → ∀ part ∈ body,
        ∀ s₁ r s₂ r', controlStmt known control part = .ok s₁ → adjointStmt known o s₁ = .ok r →
          adjointStmt known o part = .ok s₂ → controlStmt known control s₂ = .ok r' →
          r.canonical known = r'.canonical known := by
      intro body inside unnested part member s₁ r s₂ r' a b c d
      exact ih part (inside part member)
        (fun value listed => unnested value (List.mem_flatMap.2 ⟨part, member, listed⟩)) a b c d
    cases CallRule.rewritten controlled with
    | kept closed =>
      rw [adjointStmt, CallRule.rewriteStmt_sealed closed] at adjoint adjoint'
      cases adjoint
      cases adjoint'
      rw [controlStmt, CallRule.rewriteStmt_sealed closed] at controlled'
      cases controlled'
      rfl
    | @expr value _ ran =>
      obtain ⟨_, ran', rfl⟩ := CallRule.rewriteStmt_expr_ok adjoint'
      obtain ⟨_, ran₂, rfl⟩ := CallRule.rewriteStmt_expr_ok adjoint
      obtain ⟨_, ran₂', rfl⟩ := CallRule.rewriteStmt_expr_ok controlled'
      have same := agrees_of_unnested (unnested value (by simp)) _ _ _ _ ran ran' ran₂ ran₂'
      simp only [StmtTree.canonical, same]
    | @assign target value _ ran =>
      obtain ⟨_, ran', rfl⟩ := CallRule.rewriteStmt_assign_ok adjoint'
      obtain ⟨_, ran₂, rfl⟩ := CallRule.rewriteStmt_assign_ok adjoint
      obtain ⟨_, ran₂', rfl⟩ := CallRule.rewriteStmt_assign_ok controlled'
      have same := agrees_of_unnested (unnested value (by simp)) _ _ _ _ ran ran' ran₂ ran₂'
      simp only [StmtTree.canonical, same]
    | @scope context binding body rs ran =>
      rw [StmtTree.values_scoped] at unnested
      obtain ⟨_, ran', rfl⟩ := CallRule.rewriteStmt_scoped_ok adjoint'
      obtain ⟨_, ran₂, rfl⟩ := CallRule.rewriteStmt_scoped_ok adjoint
      obtain ⟨_, ran₂', rfl⟩ := CallRule.rewriteStmt_scoped_ok controlled'
      have same := map_canonical_orders (block body (fun _ member => member) unnested)
        (context.isControlScope o) ran ran' ran₂ ran₂'
      rw [StmtTree.canonical_scoped, StmtTree.canonical_scoped, same]
      rfl
    | @conditional test body orelse rs rs' ran ranElse =>
      rw [StmtTree.values_conditional] at unnested
      obtain ⟨_, _, ran', ranElse', rfl⟩ := CallRule.rewriteStmt_conditional_ok adjoint'
      obtain ⟨_, _, ran₂, ranElse₂, rfl⟩ := CallRule.rewriteStmt_conditional_ok adjoint
      obtain ⟨_, _, ran₂', ranElse₂', rfl⟩ := CallRule.rewriteStmt_conditional_ok controlled'
      have inBody := block body (by simp +contextual [StmtTree.inner])
        fun value member => unnested value (List.mem_append_left _ member)
      have inElse := block orelse (by simp +contextual [StmtTree.inner])
        fun value member => unnested value (List.mem_append_right _ member)
      have same := map_canonical_orders inBody false ran ran' ran₂ ran₂'
      have same' := map_canonical_orders inElse false ranElse ranElse' ranElse₂ ranElse₂'
      rw [if_neg Bool.false_ne_true] at same same'
      rw [StmtTree.canonical_conditional, StmtTree.canonical_conditional, same, same']

theorem canonical_orders_block {body rs r rs' r' : List StmtTerm}
    (unnested : ∀ value ∈ body.flatMap StmtTree.values, value.Unnested known)
    (controlled : controlStmts known control body = .ok rs)
    (adjoint' : adjointStmts known o rs = .ok r) (adjoint : adjointStmts known o body = .ok rs')
    (controlled' : controlStmts known control rs' = .ok r') :
    r.map (StmtTree.canonical known) = r'.map (StmtTree.canonical known) := by
  obtain ⟨_, ran', ended⟩ := Plan.bind_eq_ok.1 adjoint'
  cases ended
  obtain ⟨_, ran₂, ended⟩ := Plan.bind_eq_ok.1 adjoint
  cases ended
  have each : ∀ s ∈ body, ∀ s₁ r s₂ r', controlStmt known control s = .ok s₁ →
      adjointStmt known o s₁ = .ok r → adjointStmt known o s = .ok s₂ →
      controlStmt known control s₂ = .ok r' → r.canonical known = r'.canonical known := by
    intro s member s₁ r s₂ r' a b c d
    exact canonical_orders
      (fun value listed => unnested value (List.mem_flatMap.2 ⟨s, member, listed⟩)) a b c d
  exact map_canonical_orders each true controlled ran' ran₂ controlled'

end Blocks

/-- Two copies of a block: one gets a control and is then replaced by its adjoint, the other the other
way round. -/
def LowerM.bothOrders (control : String) (block : List NodeId) :
    LowerM (List NodeId × List NodeId) := do
  let first ← TreeM.copyBlock block
  let second ← TreeM.copyBlock block
  controlBlock control first
  let first ← adjointBlock first
  let second ← adjointBlock second
  controlBlock control second
  return (first, second)

def bothOrdersPlan (known : OperationTable) (o : Options) (control : String)
    (body : List StmtTerm) : Plan (List StmtTerm × List StmtTerm) := do
  let rs ← controlStmts known control body
  let r ← adjointStmts known o rs
  let rs' ← adjointStmts known o body
  let r' ← controlStmts known control rs'
  return (r, r')

theorem bothOrders_runs {t : SyntaxTree} {c : Context} {block : List NodeId} {body : List StmtTerm}
    (control : String) (read : t.Reads block body) :
    Runs (LowerM.bothOrders control block) t c (bothOrdersPlan c.operations c.options control body)
      fun planned result t' _ => t'.Reads result.1 planned.1 ∧ t'.Reads result.2 planned.2 := by
  obtain ⟨stmts, rfl, rfl, held⟩ := read
  obtain ⟨copies, t₁, copied, same, becomes⟩ := copyBlock_run held
  obtain ⟨copies', t₂, copied', same', becomes'⟩ := copyBlock_run (becomes.ext.holds held (by simp))
  -- both copies are owned, and each step changes one of them beside the other
  have owned := (becomes.append_new becomes').owns .nil
  unfold LowerM.bothOrders bothOrdersPlan
  rw [Runs.treeM_bind copied, Runs.treeM_bind copied', ← same]
  refine (controlBlock_runs control copies owned.left).bind ?_
  rintro _ _ t₃ _ ⟨rfl, first, rfl, labels, changed⟩
  have owned₁ := (changed.frame_owned owned).owns owned
  rw [← labels]
  refine (adjointBlock_runs first owned₁.left).bind ?_
  rintro _ _ t₄ _ ⟨rfl, first', rfl, rfl, changed₁⟩
  have owned₂ := (changed₁.frame_owned owned₁).owns owned₁
  rw [same, ← same']
  refine (adjointBlock_runs copies' owned₂.right).bind ?_
  rintro _ _ t₅ _ ⟨rfl, second, rfl, rfl, changed₂⟩
  have owned₃ := (changed₂.frame_owned_left owned₂).owns owned₂
  refine (controlBlock_runs control second owned₃.right).bind ?_
  rintro _ _ t₆ _ ⟨rfl, second', rfl, labels', changed₃⟩
  have owned₄ := (changed₃.frame_owned_left owned₃).owns owned₃
  exact .pure ⟨⟨first', rfl, rfl, owned₄.left.held⟩, second', labels', rfl, owned₄.right.held⟩

/-- The adjoint of a controlled block and the controlled form of its adjoint are the same but for
the chains of calls of known operations. These have the same base, as many controls and the same
parity of adjoints. -/
theorem bothOrders_canonical {t : SyntaxTree} {c : Context} {control : String}
    {block first second : List NodeId} {body : List StmtTerm} {s : LoweringState}
    (read : t.Reads block body)
    (unnested : ∀ value ∈ body.flatMap StmtTree.values, value.Unnested c.operations)
    (ran : LowerM.bothOrders control block ⟨t, c⟩ = .ok (first, second) s) :
    ∃ body₁ body₂, s.tree.Reads first body₁ ∧ s.tree.Reads second body₂ ∧
      body₁.map (StmtTree.canonical c.operations) = body₂.map (StmtTree.canonical c.operations) := by
  have run := bothOrders_runs (c := c) control read
  obtain ⟨planned, ended, read₁, read₂⟩ := run.exists_of_ok ran
  obtain ⟨rs, controlled, ended⟩ := Plan.bind_eq_ok.1 ended
  obtain ⟨r, adjoint', ended⟩ := Plan.bind_eq_ok.1 ended
  obtain ⟨rs', adjoint, ended⟩ := Plan.bind_eq_ok.1 ended
  obtain ⟨r', controlled', ended⟩ := Plan.bind_eq_ok.1 ended
  cases ended
  exact ⟨r, r', read₁, read₂,
    canonical_orders_block unnested controlled adjoint' adjoint controlled'⟩

/-- The adjoints of the first call cancel in one order and not in the other. -/
theorem bothOrders_canonical_adjoint :
    let t : SyntaxTree := ⟨#[.expr (.name "R1"), .expr (.functor .adjoint 0), .expr (.name "q"),
      .expr (.call 1 [2] []), .stmt (.expr 3), .expr (.name "X"), .expr (.name "q"),
      .expr (.call 5 [6] []), .stmt (.expr 7)], []⟩
    ∃ first second s, LowerM.bothOrders "k" [4, 8] ⟨t, .new .default⟩ = .ok (first, second) s ∧
      ∃ body₁ body₂, s.tree.Reads first body₁ ∧ s.tree.Reads second body₂ ∧
        body₁.map (StmtTree.canonical .preamble) = body₂.map (StmtTree.canonical .preamble) := by
  intro t
  let body : List StmtTerm :=
    [.expr () (.node () (.call (.node () (.functor .adjoint (nameTerm "R1"))) [nameTerm "q"] [])),
      .expr () (.node () (.call (nameTerm "X") [nameTerm "q"] []))]
  have read : t.Reads [4, 8] body := by
    refine ⟨[.expr 4 (.node 3 (.call (.node 1 (.functor .adjoint (.node 0 (.name "R1"))))
      [.node 2 (.name "q")] [])), .expr 8 (.node 7 (.call (.node 5 (.name "X"))
        [.node 6 (.name "q")] []))], rfl, ?_, ?_⟩
    · simp [body, nameTerm, Expr.map]
    · simp [t, Expr.map, Expr.children, Holds]
  have named := ExprTree.operationCalls_nameTerm .preamble
  have single : ∀ func : ExprTerm, func.operationCalls .preamble = [] →
      ExprTree.Unnested .preamble (.node () (.call func [nameTerm "q"] [])) := by
    intro func none
    refine ExprTree.forall_operationCalls_node.2 ⟨fun _ => ?_, ?_⟩
    · simp [ExprTree.arguments, named]
    · simp [Expr.children, none, named]
  have unnested : ∀ value ∈ body.flatMap StmtTree.values, value.Unnested .preamble := by
    simp only [body, List.flatMap_cons, List.flatMap_nil, StmtTree.values_expr, List.append_nil,
      List.cons_append, List.nil_append, List.mem_cons, List.not_mem_nil, or_false]
    rintro value (rfl | rfl)
    · refine single _ ?_
      rw [ExprTree.operationCalls_node]
      simp [Expr.children, named, ExprTree.isOperationCall]
    · exact single _ (named "X")
  have succeeds : LowerM.succeeds (LowerM.bothOrders "k" [4, 8]) ⟨t, .new .default⟩ := by
    decide +kernel
  obtain ⟨⟨first, second⟩, s, ran⟩ := LowerM.exists_of_succeeds succeeds
  exact ⟨first, second, s, ran, bothOrders_canonical read unnested ran⟩

end QuantumLowering
