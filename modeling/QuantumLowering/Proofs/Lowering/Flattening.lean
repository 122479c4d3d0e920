import QuantumLowering.Proofs.Lowering.DerivedCalls

namespace QuantumLowering

namespace ExprTree

def callChain : ExprTerm → List GateFunctor
  | .node _ (.call func _ _) => func.chain
  | _ => []

def callArgs : ExprTerm → List ExprTerm
  | .node _ (.call _ args _) => args
  | _ => []

/-- A single control, or an aggregate with no lists or aggregates in it. -/
def FlatControls (e : ExprTerm) : Prop :=
  e.leaves = [e] ∨ ∃ members, e = .node () (.aggregate members) ∧ ∀ m ∈ members, m.leaves = [m]

/-- The second call is the first with one more control, which is in a flat first argument. -/
structure Flattens (control : String) (call call' : ExprTerm) : Prop where
  nesting : call'.callChain.count .controlled = max 1 (call.callChain.count .controlled)
  arity : call'.callArgs.length =
    if .controlled ∈ call.callChain then call.callArgs.length else call.callArgs.length + 1
  flat : ∃ first rest, call'.callArgs = first :: rest ∧ first.FlatControls
  hasControl : call'.HasControl control
  keeps : ∀ name, call.HasControl name → call'.HasControl name

theorem leaves_of_mem_leaves {e leaf : ExprTerm} (member : leaf ∈ e.leaves) : leaf.leaves = [leaf] := by
  induction e using induct with
  | step label layer ih =>
    cases layer with
    | list items | aggregate items =>
      simp only [leaves_list, leaves_aggregate, List.mem_flatMap] at member
      obtain ⟨item, inside, member⟩ := member
      exact ih item inside member
    | _ =>
      rw [leaves_of_ne (by simp) (by simp), List.mem_singleton] at member
      rw [member]
      exact leaves_of_ne (by simp) (by simp)

end ExprTree

theorem GateFunctor.count_controlChain (chain : List GateFunctor) :
    (controlChain chain).count .controlled = max 1 (chain.count .controlled) := by
  by_cases listed : .controlled ∈ chain
  · have positive := List.count_pos_iff.2 listed
    rw [controlChain, if_pos listed]
    omega
  · have zero := List.count_eq_zero.2 listed
    rw [controlChain, if_neg listed, List.count_cons_self]
    omega

section Call

variable {control : String} {layer filled finished : Expr ExprTerm}

theorem ControlsCall.callChain (controls : ControlsCall control layer filled finished) :
    (ExprTree.node () finished).callChain =
      GateFunctor.controlChain (ExprTree.node () layer).callChain := by
  cases controls with
  | plain signature trunk =>
    simp only [ExprTree.callChain, ExprTree.chain, controlChain_of_identity signature,
      ExprTree.chain_eq_of_trunk trunk]
  | merged signature trunk _ =>
    simp only [ExprTree.callChain, controlChain_of_controlled signature,
      ExprTree.chain_eq_of_trunk trunk]

theorem ControlsCall.flat (controls : ControlsCall control layer filled finished) :
    ∃ first rest, (ExprTree.node () finished).callArgs = first :: rest ∧ first.FlatControls := by
  cases controls with
  | plain _ _ => exact ⟨_, _, rfl, .inl (ExprTree.leaves_nameTerm control)⟩
  | merged _ _ trunk =>
    refine ⟨_, _, rfl, .inr ⟨_, rfl, fun m member => ?_⟩⟩
    rcases List.mem_cons.1 ((mergedControls_sublist trunk).subset member) with rfl | member
    · exact ExprTree.leaves_nameTerm control
    · exact ExprTree.leaves_of_mem_leaves member

theorem ControlsCall.arity (trunk : filled.map ExprTree.trunk = layer.map ExprTree.trunk)
    (controls : ControlsCall control layer filled finished) :
    (ExprTree.node () finished).callArgs.length =
      if .controlled ∈ (ExprTree.node () layer).callChain then
        (ExprTree.node () layer).callArgs.length
      else (ExprTree.node () layer).callArgs.length + 1 := by
  cases controls with
  | @plain func func' args args' keywords keywords' signature _ =>
    have absent : .controlled ∉ func.chain := by
      intro listed
      cases signature.symm.trans (if_pos listed)
    simp only [Expr.map, Expr.call.injEq] at trunk
    have length := congrArg List.length trunk.2.1
    simp only [List.length_map] at length
    simp only [ExprTree.callArgs, ExprTree.callChain, List.length_cons, length]
    exact (if_neg absent).symm
  | @merged func func' existing existing' args args' keywords keywords' signature _ _ =>
    have listed : .controlled ∈ func.chain := by
      by_contra absent
      cases signature.symm.trans (if_neg absent)
    simp only [Expr.map, Expr.call.injEq] at trunk
    have length := congrArg List.length trunk.2.1
    simp only [List.length_map, List.length_cons] at length
    simp only [ExprTree.callArgs, ExprTree.callChain, List.length_cons, length]
    exact (if_pos listed).symm

theorem ControlsCall.flattens (trunk : filled.map ExprTree.trunk = layer.map ExprTree.trunk)
    (controls : ControlsCall control layer filled finished) :
    ExprTree.Flattens control (.node () layer) (.node () finished) where
  nesting := by rw [controls.callChain, GateFunctor.count_controlChain]
  arity := controls.arity trunk
  flat := controls.flat
  hasControl := controls.hasControl
  keeps _ := controls.keeps

end Call

/-- The calls of known operations in the values of a block, outside of its definitions. -/
def operationCallsIn (known : OperationTable) (body : List StmtTerm) : List ExprTerm :=
  (body.flatMap StmtTree.values).flatMap (ExprTree.operationCalls known)

theorem forall_count_controlled_le {known : OperationTable} {body body' : List StmtTerm} {n : Nat}
    (positive : 0 < n)
    (uses : ∀ u, u ∈ usesIn known body' ↔ u ∈ (usesIn known body).map OperationUse.controlled) :
    (∀ u ∈ usesIn known body', u.chain.count .controlled ≤ n) ↔
      ∀ u ∈ usesIn known body, u.chain.count .controlled ≤ n := by
  have count : ∀ u : OperationUse,
      u.controlled.chain.count .controlled = max 1 (u.chain.count .controlled) :=
    fun u => GateFunctor.count_controlChain u.chain
  constructor
  · intro all u there
    have bound := all _ ((uses _).2 (List.mem_map_of_mem there))
    rw [count] at bound
    omega
  · intro all u' member
    obtain ⟨u, there, rfl⟩ := List.mem_map.1 ((uses u').1 member)
    have bound := all u there
    rw [count]
    omega

/-- Every call of a controlled form is one of the definition with one more control, among flat
controls in the first argument. No call is nested in controlled functors more than once exactly if
none was before. -/
theorem deriveControlled_flattens {t : SyntaxTree} {c : Context} {d derived : Definition NodeId}
    {body : List StmtTerm} {s : LoweringState} (read : t.Reads d.body body)
    (ran : LowerM.deriveControlled d ⟨t, c⟩ = .ok derived s) :
    ∃ control body', s.tree.Reads derived.body body' ∧
      derived.params = d.params.insertIdx (LowerM.controlPosition c.insideMethod d.params) control ∧
      (∀ call' ∈ operationCallsIn c.operations body', ∃ call ∈ operationCallsIn c.operations body,
        call.Flattens control call') ∧
      ((∀ u ∈ usesIn c.operations body', u.chain.count .controlled ≤ 1) ↔
        ∀ u ∈ usesIn c.operations body, u.chain.count .controlled ≤ 1) := by
  obtain ⟨body', ended, params, read'⟩ := (deriveControlled_body_runs read).exists_of_ok ran
  have uses := CallRule.mem_usesIn (fun e r => control_controlsUses) ended
  refine ⟨_, body', read', params, fun call' member => ?_,
    forall_count_controlled_le Nat.one_pos uses⟩
  obtain ⟨value', listed, inside⟩ := List.mem_flatMap.1 member
  obtain ⟨value, listed', ran⟩ := CallRule.exists_of_mem_block_values ended value' listed
  obtain ⟨layer, filled, finished, there, rfl, trunk, controls⟩ := control_origin ran call' inside
  exact ⟨_, List.mem_flatMap.2 ⟨value, listed', there⟩, controls.flattens trunk⟩

/-- A callee nested in two controlled functors stays nested. -/
theorem deriveControlled_flattens_nested :
    let t : SyntaxTree := ⟨#[.expr (.name "X"), .expr (.functor .controlled 0),
      .expr (.functor .controlled 1), .expr (.name "a"), .expr (.list [3]), .expr (.name "b"),
      .expr (.list [5]), .expr (.name "q"), .expr (.call 2 [4, 6, 7] []), .stmt (.expr 8)], []⟩
    ∃ derived s control body body', LowerM.deriveControlled ⟨"f", ["a", "b", "q"], [9], none⟩
        ⟨t, .new .default⟩ = .ok derived s ∧ t.Reads [9] body ∧ s.tree.Reads derived.body body' ∧
      (∀ call' ∈ operationCallsIn .preamble body', ∃ call ∈ operationCallsIn .preamble body,
        call.Flattens control call') ∧
      ¬ ∀ u ∈ usesIn .preamble body', u.chain.count .controlled ≤ 1 := by
  intro t
  let body : List StmtTerm := [.expr () (.node () (.call (.node () (.functor .controlled
    (.node () (.functor .controlled (nameTerm "X"))))) [.node () (.list [nameTerm "a"]),
      .node () (.list [nameTerm "b"]), nameTerm "q"] []))]
  have read : t.Reads [9] body := by
    refine ⟨[.expr 9 (.node 8 (.call (.node 2 (.functor .controlled (.node 1 (.functor .controlled
      (.node 0 (.name "X")))))) [.node 4 (.list [.node 3 (.name "a")]),
        .node 6 (.list [.node 5 (.name "b")]), .node 7 (.name "q")] []))], rfl, ?_, ?_⟩
    · simp [body, nameTerm, Expr.map]
    · simp [t, Expr.map, Expr.children, Holds]
  have gate : (ExprTree.node () (.functor .controlled (.node () (.functor .controlled
      (nameTerm "X"))))).operation? .preamble = some "X" := by decide +kernel
  have nested : ⟨"X", [.controlled, .controlled]⟩ ∈ usesIn .preamble body := by
    rw [nameTerm] at gate
    simp [usesIn, body, ExprTree.uses_node, ExprTree.use?, ExprTree.chain, nameTerm, gate]
  have succeeds : LowerM.succeeds (LowerM.deriveControlled ⟨"f", ["a", "b", "q"], [9], none⟩)
      ⟨t, .new .default⟩ := by decide +kernel
  obtain ⟨derived, s, ran⟩ := LowerM.exists_of_succeeds succeeds
  obtain ⟨control, body', read', -, flattens, counts⟩ := deriveControlled_flattens read ran
  refine ⟨derived, s, control, body, body', ran, read, read', flattens, fun all => ?_⟩
  exact absurd (counts.1 all _ nested) (by decide)

end QuantumLowering
