import QuantumLowering.Proofs.Lowering.Inverse

namespace QuantumLowering

namespace ExprTree

theorem signature_eq_of_trunk {α : Type} {d e : ExprTree α} (same : d.trunk = e.trunk) :
    d.signature = e.signature := by
  rw [signature, signature, chain_eq_of_trunk same]

theorem eq_nameTerm_of_trunk {d : ExprTerm} {name : String}
    (same : d.trunk = (nameTerm name).trunk) : d = nameTerm name := by
  obtain ⟨_, layer⟩ := d
  rw [nameTerm, trunk_node, trunk_node] at same
  cases layer <;> simp [Expr.isCall, Expr.map] at same
  rw [same]
  rfl

theorem eq_nameTerm_of_same {d : ExprTerm} {name : String} (same : d.same (nameTerm name)) :
    d = nameTerm name := by
  obtain ⟨_, layer⟩ := d
  rw [nameTerm, same_node, Bool.and_eq_true] at same
  cases layer <;> simp [Expr.sameHead] at same
  rw [same.1]
  rfl

theorem leaves_nameTerm (name : String) : (nameTerm name).leaves = [nameTerm name] :=
  leaves_of_ne (by simp [nameTerm]) (by simp [nameTerm])

theorem mem_leaves_of_trunk {d e : ExprTerm} {name : String} (same : d.trunk = e.trunk)
    (member : nameTerm name ∈ e.leaves) : nameTerm name ∈ d.leaves := by
  have trunks : (nameTerm name).trunk ∈ d.leaves.map trunk := by
    rw [leaves_eq_of_trunk same]
    exact List.mem_map_of_mem member
  obtain ⟨leaf, listed, trunk⟩ := List.mem_map.1 trunks
  rwa [eq_nameTerm_of_trunk trunk] at listed

theorem exists_call_of_trunk {filled : Expr ExprTerm} {func : ExprTerm} {args : List ExprTerm}
    {keywords : List (Keyword ExprTerm)}
    (same : filled.map trunk = (Expr.call func args keywords).map trunk) :
    ∃ func' args' keywords', filled = .call func' args' keywords' ∧ func'.trunk = func.trunk ∧
      args'.map trunk = args.map trunk := by
  cases filled with
  | call func' args' keywords' =>
    simp only [Expr.map, Expr.call.injEq] at same
    exact ⟨func', args', keywords', rfl, same.1, same.2.1⟩
  | _ => simp [Expr.map] at same

end ExprTree

namespace ExprTree

variable {known : OperationTable}

theorem forall_operationCalls_node {P : ExprTerm → Prop} {layer : Expr ExprTerm} :
    (∀ call ∈ operationCalls known (.node () layer), P call) ↔
      (isOperationCall known layer → P (.node () layer)) ∧
        ∀ part ∈ layer.children, ∀ call ∈ operationCalls known part, P call := by
  rw [operationCalls_node]
  constructor
  · intro all
    refine ⟨fun operation => all _ (by simp [operation]), fun part member call inside => ?_⟩
    exact all call (List.mem_append_right _ (List.mem_flatMap.2 ⟨part, member, inside⟩))
  · rintro ⟨here, parts⟩ call member
    rcases List.mem_append.1 member with member | member
    · split at member
      · rw [List.mem_singleton.1 member]
        exact here ‹_›
      · cases member
    · obtain ⟨part, listed, inside⟩ := List.mem_flatMap.1 member
      exact parts part listed call inside

theorem operationCalls_nameTerm (known : OperationTable) (name : String) :
    operationCalls known (nameTerm name) = [] := by
  rw [nameTerm, operationCalls_node]
  rfl

theorem operationCalls_subset_of_mem_leaves {e leaf : ExprTerm} (member : leaf ∈ e.leaves) :
    operationCalls known leaf ⊆ operationCalls known e := by
  induction e using induct with
  | step label layer ih =>
    cases layer with
    | list items | aggregate items =>
      simp only [leaves_list, leaves_aggregate, List.mem_flatMap] at member
      obtain ⟨item, inside, member⟩ := member
      intro call called
      rw [operationCalls_node]
      exact List.mem_append_right _ (List.mem_flatMap.2 ⟨item, inside, ih item inside member called⟩)
    | _ =>
      rw [leaves_of_ne (by simp) (by simp), List.mem_singleton] at member
      rw [member]
      exact List.Subset.refl _

end ExprTree

theorem GateFunctor.controlled_mem_reduceChain (chain : List GateFunctor) :
    .controlled ∈ reduceChain chain ↔ .controlled ∈ chain := by
  have mem : ∀ chain, .controlled ∈ withoutAdjoints chain ↔ .controlled ∈ chain := by
    simp [withoutAdjoints]
  rw [← mem, withoutAdjoints_reduceChain, mem]

def GateFunctor.controlChain (chain : List GateFunctor) : List GateFunctor :=
  if .controlled ∈ chain then chain else .controlled :: chain

theorem controlChain_of_identity {func : ExprTerm} (identity : func.signature = .identity) :
    GateFunctor.controlChain func.chain = .controlled :: func.chain := by
  unfold ExprTree.signature at identity
  split at identity
  · cases identity
  · exact if_neg ‹_›

theorem controlChain_of_controlled {func : ExprTerm} (controlled : func.signature = .controlled) :
    GateFunctor.controlChain func.chain = func.chain := by
  unfold ExprTree.signature at controlled
  split at controlled
  · exact if_pos ‹_›
  · cases controlled

theorem ExprTree.signature_adjoint (func base : ExprTerm) :
    (wrap (GateFunctor.reduceChain (.adjoint :: func.chain)) base.base).signature =
      func.signature := by
  simp only [signature, chain_wrap, chain_base, List.append_nil,
    GateFunctor.controlled_mem_reduceChain, List.mem_cons, reduceCtorEq, false_or]

theorem forall₂_of_all₂ {β γ : Type} {r : β → γ → Bool} {xs : List β} {ys : List γ}
    (all : List.all₂ r xs ys) : List.Forall₂ (fun x y => r x y = true) xs ys := by
  induction xs generalizing ys with
  | nil =>
    cases ys with
    | nil => exact .nil
    | cons y ys => cases all
  | cons x xs ih =>
    cases ys with
    | nil => cases all
    | cons y ys =>
      rw [List.all₂] at all
      split at all
      · exact .cons ‹_› (ih all)
      · cases all

namespace ExprTree

def calls? (known : OperationTable) : Expr ExprTerm → Option String
  | .call func _ _ => func.operation? known
  | _ => none

def called (known : OperationTable) (e : ExprTerm) : List String :=
  (e.operationCalls known).filterMap fun call => calls? known call.layer

variable {known : OperationTable}

theorem isOperationCall_eq (layer : Expr ExprTerm) :
    isOperationCall known layer = (calls? known layer).isSome := by
  cases layer <;> rfl

end ExprTree

/-- A call of an operation without its arguments: the operation, and the functors around it. -/
structure OperationUse where
  operation : String
  chain : List GateFunctor

def OperationUse.controlled (u : OperationUse) : OperationUse :=
  ⟨u.operation, GateFunctor.controlChain u.chain⟩

namespace ExprTree

def use? (known : OperationTable) : Expr ExprTerm → Option OperationUse
  | .call func _ _ => (func.operation? known).map fun name => ⟨name, func.chain⟩
  | _ => none

/-- The known operations used in an expression. -/
def uses (known : OperationTable) (e : ExprTerm) : List OperationUse :=
  (e.operationCalls known).filterMap fun call => use? known call.layer

variable {known : OperationTable}

theorem isOperationCall_eq_use? (layer : Expr ExprTerm) :
    isOperationCall known layer = (use? known layer).isSome := by
  cases layer with
  | call func args keywords => simp [isOperationCall, use?]
  | _ => rfl

theorem called_eq_uses (e : ExprTerm) : called known e = (uses known e).map OperationUse.operation := by
  have here : ∀ call : ExprTerm, calls? known call.layer =
      (use? known call.layer).map OperationUse.operation := by
    intro call
    cases call.layer with
    | call func args keywords => simp [calls?, use?, Function.comp_def]
    | _ => rfl
  simp only [called, uses, List.map_filterMap, here]

theorem uses_node (layer : Expr ExprTerm) : uses known (.node () layer) =
    (use? known layer).toList ++ layer.children.flatMap (uses known) := by
  have here : (if isOperationCall known layer then [ExprTree.node () layer] else []).filterMap
      (fun call => use? known call.layer) = (use? known layer).toList := by
    rw [isOperationCall_eq_use?]
    cases used : use? known layer with
    | none => rfl
    | some u => simp [ExprTree.layer, used]
  rw [uses, operationCalls_node, List.filterMap_append, here, List.filterMap_flatMap]
  rfl

theorem uses_wrap_controlled (func : ExprTerm) :
    uses known (.node () (.functor .controlled func)) = uses known func := by
  rw [uses_node]
  simp [use?, Expr.children]

theorem use?_refill {layer : Expr ExprTerm} {parts : List ExprTerm}
    (trunks : parts.map trunk = layer.children.map trunk) :
    use? known (layer.refill parts) = use? known layer := by
  have same := trunk_refill trunks
  cases layer with
  | call func args keywords =>
    obtain ⟨func', args', keywords', filled, trunkFunc, -⟩ := exists_call_of_trunk same
    rw [filled, use?, use?, operation?_eq_of_trunk trunkFunc, chain_eq_of_trunk trunkFunc]
  | _ => rfl

theorem uses_eq_leaves (e : ExprTerm) : uses known e = e.leaves.flatMap (uses known) := by
  induction e using induct with
  | step label layer ih =>
    cases layer with
    | list items | aggregate items =>
      simp only [leaves_list, leaves_aggregate, List.flatMap_assoc]
      rw [uses_node]
      exact List.flatMap_congr ih
    | _ =>
      rw [leaves_of_ne (by simp) (by simp)]
      simp

theorem callee_eq_of_same {d e : ExprTerm} (same : d.same e) :
    d.operationName = e.operationName ∧ d.chain = e.chain := by
  induction d using induct generalizing e with
  | step label layer ih =>
    obtain ⟨_, layer'⟩ := e
    rw [same_node, Bool.and_eq_true] at same
    obtain ⟨head, parts⟩ := same
    cases layer <;> cases layer' <;> try cases head
    case functor.functor f target f' target' =>
      have functors : f = f' := by simpa [Expr.sameHead] using head
      have inner : target.same target' := by simpa [Expr.children] using parts
      obtain ⟨named, chains⟩ := ih target (by simp [Expr.children]) inner
      exact ⟨named, by rw [chain, chain, functors, chains]⟩
    case name.name | attribute.attribute =>
      exact ⟨by simpa [Expr.sameHead, operationName, base, ExprTree.layer] using head, rfl⟩
    all_goals exact ⟨rfl, rfl⟩

theorem uses_eq_of_same {d e : ExprTerm} (same : d.same e) : uses known d = uses known e := by
  induction d using induct generalizing e with
  | step label layer ih =>
    obtain ⟨_, layer'⟩ := e
    rw [same_node, Bool.and_eq_true] at same
    obtain ⟨head, parts⟩ := same
    have pairs := forall₂_of_all₂ parts
    have inside : layer'.children.map (uses known) = layer.children.map (uses known) :=
      map_eq_of_forall₂ pairs fun part member other same => (ih part member same).symm
    have here : use? known layer = use? known layer' := by
      cases layer <;> cases layer' <;> try cases head
      case call.call func _ _ func' _ _ =>
        obtain ⟨names, chains⟩ := callee_eq_of_same (List.forall₂_cons.1 pairs).1
        simp only [use?, operation?, names, chains]
      all_goals rfl
    rw [uses_node, uses_node, here, List.flatMap_def, List.flatMap_def, inside]

theorem uses_nameTerm (name : String) : uses known (nameTerm name) = [] := by
  rw [uses, operationCalls_nameTerm known]
  rfl

def CallsSame (known : OperationTable) (d e : ExprTerm) : Prop :=
  ∀ n, n ∈ called known d ↔ n ∈ called known e

/-- The same operations are used, each under one more control. -/
def ControlsUses (known : OperationTable) (d e : ExprTerm) : Prop :=
  ∀ u, u ∈ uses known e ↔ u ∈ (uses known d).map OperationUse.controlled

theorem ControlsUses.callsSame {d e : ExprTerm} (controls : ControlsUses known d e) :
    CallsSame known d e := by
  intro n
  have kept : ∀ u : OperationUse, u.controlled.operation = u.operation := fun _ => rfl
  simp only [called_eq_uses, List.mem_map, controls _, exists_exists_and_eq_and, kept]

theorem ControlsUses.flatMap {ds es : List ExprTerm}
    (pairs : List.Forall₂ (ControlsUses known) ds es) (u : OperationUse) :
    u ∈ es.flatMap (uses known) ↔ u ∈ (ds.flatMap (uses known)).map OperationUse.controlled := by
  induction pairs with
  | nil => rfl
  | cons here _ ih =>
    simp only [List.flatMap_cons, List.map_append, List.mem_append, here u, ih]

theorem ControlsUses.of_leaves {d e : ExprTerm}
    (pairs : List.Forall₂ (ControlsUses known) d.leaves e.leaves) : ControlsUses known d e := by
  intro u
  rw [uses_eq_leaves d, uses_eq_leaves e]
  exact ControlsUses.flatMap pairs u

end ExprTree

section Firsts

variable {β : Type} (r : β → β → Bool)

theorem subset_foldl_firsts (xs kept : List β) :
    kept ⊆ xs.foldl (fun kept x => if kept.any (r · x) then kept else kept ++ [x]) kept := by
  induction xs generalizing kept with
  | nil => exact List.Subset.refl _
  | cons x xs ih =>
    rw [List.foldl_cons]
    split
    · exact ih kept
    · exact List.Subset.trans (List.subset_append_left _ _) (ih _)

theorem exists_mem_firsts {xs : List β} {x : β} (member : x ∈ xs) :
    ∃ y ∈ firsts r xs, y = x ∨ r y x := by
  have general : ∀ kept : List β, ∃ y ∈ xs.foldl
      (fun kept x => if kept.any (r · x) then kept else kept ++ [x]) kept, y = x ∨ r y x := by
    induction xs with
    | nil => cases member
    | cons first xs ih =>
      intro kept
      rw [List.foldl_cons]
      rcases List.mem_cons.1 member with rfl | member
      · split
        · rename_i there
          obtain ⟨y, listed, same⟩ := List.any_eq_true.1 there
          exact ⟨y, subset_foldl_firsts r xs kept listed, .inr same⟩
        · exact ⟨x, subset_foldl_firsts r xs _ (by simp), .inl rfl⟩
      · exact ih member _
  exact general []

theorem mem_firsts_head (x : β) (xs : List β) : x ∈ firsts r (x :: xs) := by
  unfold firsts
  rw [List.foldl_cons]
  exact subset_foldl_firsts r xs _ (by simp)

end Firsts

section Merge

variable {new existing filled : ExprTerm}

theorem mem_mergedControls_new : new ∈ mergedControls new existing filled :=
  List.mem_map.2 ⟨(new, new), mem_firsts_head _ _ _, rfl⟩

theorem trunk_of_mem_controls (same : filled.trunk = existing.trunk) {pair : ExprTerm × ExprTerm}
    (member : pair ∈ (new, new) :: existing.leaves.zip filled.leaves) :
    pair.2.trunk = pair.1.trunk := by
  have leaves : List.Forall₂ (fun x y : ExprTerm => y.trunk = x.trunk) existing.leaves
      filled.leaves := by
    have both := List.forall₂_same.2 fun x (_ : x ∈ existing.leaves.map ExprTree.trunk) => Eq.refl x
    nth_rewrite 2 [← ExprTree.leaves_eq_of_trunk same] at both
    rw [List.forall₂_map_left_iff, List.forall₂_map_right_iff] at both
    exact both.imp fun _ _ eq => eq.symm
  rcases List.mem_cons.1 member with rfl | member
  · rfl
  · exact List.forall₂_zip leaves member

theorem mem_mergedControls_name {name : String} (same : filled.trunk = existing.trunk)
    (member : nameTerm name ∈ existing.leaves) :
    nameTerm name ∈ mergedControls new existing filled := by
  have length : existing.leaves.length ≤ filled.leaves.length := by
    have := congrArg List.length (ExprTree.leaves_eq_of_trunk same)
    simp only [List.length_map] at this
    omega
  rw [← List.map_fst_zip length] at member
  obtain ⟨⟨leaf, leaf'⟩, listed, rfl⟩ := List.mem_map.1 member
  obtain ⟨⟨first, first'⟩, kept, alike⟩ := exists_mem_firsts
    (fun x y : ExprTerm × ExprTerm => x.1.same y.1) (List.mem_cons_of_mem (new, new) listed)
  have trunks := trunk_of_mem_controls same ((firsts_sublist _ _).subset kept)
  have named : first = nameTerm name := by
    rcases alike with equal | alike
    · exact congrArg Prod.fst equal
    · exact ExprTree.eq_nameTerm_of_same alike
  rw [named] at trunks
  exact List.mem_map.2 ⟨(first, first'), kept, ExprTree.eq_nameTerm_of_trunk trunks⟩

end Merge

section Calls

variable {known : OperationTable} {control : String}

theorem isCall_controlFinish (layer filled : Expr ExprTerm) :
    (controlFinish known control layer filled).isCall = filled.isCall := by
  unfold controlFinish
  split
  · split <;> rfl
  · rfl

theorem trunk_control {e r : ExprTerm} (ended : (controlRule known control).rewrite e = .ok r) :
    r.trunk = e.trunk :=
  CallRule.trunk_rewrite isCall_controlFinish ended

theorem controlFinish_other {layer : Expr ExprTerm} (filled : Expr ExprTerm)
    (other : ExprTree.isOperationCall known layer = false) :
    controlFinish known control layer filled = filled := by
  cases layer with
  | call func args keywords =>
    have unknown : func.operation? known = none := by
      simpa [ExprTree.isOperationCall] using other
    cases filled <;> simp [controlFinish, unknown]
  | _ => rfl

/-- What one more control makes of a call whose parts have been rewritten. -/
inductive ControlsCall (control : String) :
    Expr ExprTerm → Expr ExprTerm → Expr ExprTerm → Prop where
  | plain {func func' : ExprTerm} {args args' : List ExprTerm}
    {keywords keywords' : List (Keyword ExprTerm)} (signature : func.signature = .identity)
    (trunk : func'.trunk = func.trunk) :
    ControlsCall control (.call func args keywords) (.call func' args' keywords')
      (.call (.node () (.functor .controlled func')) (nameTerm control :: args') keywords')
  | merged {func func' existing existing' : ExprTerm} {args args' : List ExprTerm}
    {keywords keywords' : List (Keyword ExprTerm)} (signature : func.signature = .controlled)
    (trunk : func'.trunk = func.trunk) (trunk' : existing'.trunk = existing.trunk) :
    ControlsCall control (.call func (existing :: args) keywords)
      (.call func' (existing' :: args') keywords')
      (.call func' (.node () (.aggregate (mergedControls (nameTerm control) existing existing')) ::
        args') keywords')

theorem controls_of_check {layer filled : Expr ExprTerm}
    (operation : ExprTree.isOperationCall known layer) (checked : controlCheck known layer = .ok ())
    (trunk : filled.map ExprTree.trunk = layer.map ExprTree.trunk) :
    ControlsCall control layer filled (controlFinish known control layer filled) := by
  cases layer with
  | call func args keywords =>
    obtain ⟨func', args', keywords', rfl, trunkFunc, trunkArgs⟩ := ExprTree.exists_call_of_trunk trunk
    obtain ⟨name, called⟩ := Option.isSome_iff_exists.1 operation
    cases signature : func.signature with
    | identity =>
      have finished : controlFinish known control (.call func args keywords)
          (.call func' args' keywords') = .call (.node () (.functor .controlled func'))
            (nameTerm control :: args') keywords' := by
        simp [controlFinish, called, signature, nameTerm]
      rw [finished]
      exact .plain signature trunkFunc
    | controlled =>
      cases args with
      | nil => simp [controlCheck, called, signature] at checked
      | cons existing args =>
        obtain ⟨existing', args', rfl, trunkExisting, -⟩ := List.map_eq_cons_iff.1 trunkArgs
        have finished : controlFinish known control (.call func (existing :: args) keywords)
            (.call func' (existing' :: args') keywords') = .call func' (.node () (.aggregate
              (mergedControls (nameTerm control) existing existing')) :: args') keywords' := by
          simp [controlFinish, called, signature, nameTerm]
        rw [finished]
        exact .merged signature trunkFunc trunkExisting
  | _ => cases operation

theorem CallRule.check_of_rewrite {rule : CallRule} {layer : Expr ExprTerm} {r : ExprTerm}
    (ended : rule.rewrite (.node () layer) = .ok r) : rule.check layer = .ok () := by
  rw [CallRule.rewrite_node] at ended
  obtain ⟨⟨⟩, checked, -⟩ := Plan.bind_eq_ok.1 ended
  exact checked

theorem control_cases {layer : Expr ExprTerm} {r : ExprTerm}
    (ended : (controlRule known control).rewrite (.node () layer) = .ok r) :
    ∃ parts, List.Forall₂ (fun e d => (controlRule known control).rewrite e = .ok d)
        layer.children parts ∧
      parts.map ExprTree.trunk = layer.children.map ExprTree.trunk ∧
      ((ExprTree.isOperationCall known layer = false ∧ r = .node () (layer.refill parts)) ∨
        ∃ finished, ExprTree.isOperationCall known layer = true ∧ r = .node () finished ∧
          ControlsCall control layer (layer.refill parts) finished) := by
  obtain ⟨parts, rewritten, rfl⟩ := CallRule.rewrite_eq_ok ended
  have trunks : parts.map ExprTree.trunk = layer.children.map ExprTree.trunk :=
    map_eq_of_forall₂ rewritten fun _ _ _ ended => trunk_control ended
  refine ⟨parts, rewritten, trunks, ?_⟩
  cases operation : ExprTree.isOperationCall known layer with
  | false => exact .inl ⟨rfl, congrArg _ (controlFinish_other _ operation)⟩
  | true =>
    exact .inr ⟨_, rfl, rfl, controls_of_check operation (CallRule.check_of_rewrite ended)
      (ExprTree.trunk_refill trunks)⟩

theorem ControlsCall.calls? {layer filled finished : Expr ExprTerm}
    (controls : ControlsCall control layer filled finished) (table : OperationTable) :
    ExprTree.calls? table finished = ExprTree.calls? table layer := by
  cases controls with
  | plain _ trunk =>
    have called : ExprTree.operation? table _ = ExprTree.operation? table _ :=
      ExprTree.operation?_eq_of_trunk trunk
    exact called
  | merged _ trunk _ => exact ExprTree.operation?_eq_of_trunk trunk

theorem ControlsCall.isOperationCall {layer filled finished : Expr ExprTerm}
    (controls : ControlsCall control layer filled finished) (table : OperationTable) :
    ExprTree.isOperationCall table finished = ExprTree.isOperationCall table layer := by
  rw [ExprTree.isOperationCall_eq, ExprTree.isOperationCall_eq, controls.calls?]

theorem ControlsCall.use? {layer filled finished : Expr ExprTerm}
    (controls : ControlsCall control layer filled finished) (table : OperationTable) :
    ExprTree.use? table finished = (ExprTree.use? table layer).map OperationUse.controlled := by
  cases controls with
  | @plain func func' _ _ _ _ signature trunk =>
    have inner : (ExprTree.node () (.functor .controlled func')).operation? table =
      func'.operation? table := rfl
    have chain : (ExprTree.node () (.functor .controlled func')).chain =
        GateFunctor.controlChain func.chain := by
      rw [ExprTree.chain, controlChain_of_identity signature, ExprTree.chain_eq_of_trunk trunk]
    rw [ExprTree.use?, ExprTree.use?, inner, ExprTree.operation?_eq_of_trunk trunk, chain,
      Option.map_map]
    rfl
  | @merged func func' _ _ _ _ _ _ signature trunk _ =>
    rw [ExprTree.use?, ExprTree.use?, ExprTree.operation?_eq_of_trunk trunk, Option.map_map,
      ExprTree.chain_eq_of_trunk trunk, ← controlChain_of_controlled signature]
    simp only [Function.comp_def, OperationUse.controlled, controlChain_of_controlled signature]

end Calls

section Uses

variable {known : OperationTable} {control : String}

/-- A control that is left out uses what the one kept in its place does. -/
theorem mem_uses_mergedControls {existing filled : ExprTerm}
    (pairs : List.Forall₂ (ExprTree.ControlsUses known) existing.leaves filled.leaves)
    (u : OperationUse) :
    u ∈ (mergedControls (nameTerm control) existing filled).flatMap (ExprTree.uses known) ↔
      u ∈ ExprTree.uses known filled := by
  rw [ExprTree.uses_eq_leaves filled, mergedControls, List.flatMap_map]
  constructor
  · intro member
    obtain ⟨⟨leaf, leaf'⟩, listed, member⟩ := List.mem_flatMap.1 member
    rcases List.mem_cons.1 ((firsts_sublist _ _).subset listed) with same | inside
    · rw [congrArg Prod.snd same, ExprTree.uses_nameTerm] at member
      cases member
    · exact List.mem_flatMap.2 ⟨leaf', (List.of_mem_zip inside).2, member⟩
  · intro member
    obtain ⟨leaf', listed, member⟩ := List.mem_flatMap.1 member
    rw [← List.map_snd_zip pairs.length_eq.ge] at listed
    obtain ⟨⟨leaf, leaf'⟩, inside, rfl⟩ := List.mem_map.1 listed
    obtain ⟨⟨first, first'⟩, kept, alike⟩ := exists_mem_firsts
      (fun x y : ExprTerm × ExprTerm => x.1.same y.1)
      (List.mem_cons_of_mem (nameTerm control, nameTerm control) inside)
    refine List.mem_flatMap.2 ⟨(first, first'), kept, ?_⟩
    rcases alike with same | alike
    · rwa [congrArg Prod.snd same]
    · have before := (List.forall₂_zip pairs inside u).1 member
      rw [← ExprTree.uses_eq_of_same alike] at before
      rcases List.mem_cons.1 ((firsts_sublist _ _).subset kept) with same | kept
      · cases same
        rw [ExprTree.uses_nameTerm] at before
        cases before
      · exact (List.forall₂_zip pairs kept u).2 before

theorem ControlsCall.mem_uses {layer filled finished : Expr ExprTerm}
    (controls : ControlsCall control layer filled finished)
    (pairs : List.Forall₂ (fun d e : ExprTerm =>
      List.Forall₂ (ExprTree.ControlsUses known) d.leaves e.leaves) layer.children filled.children)
    (u : OperationUse) : u ∈ finished.children.flatMap (ExprTree.uses known) ↔
      u ∈ filled.children.flatMap (ExprTree.uses known) := by
  cases controls with
  | plain _ _ =>
    simp only [Expr.children, List.cons_append, List.flatMap_cons, List.mem_append,
      ExprTree.uses_wrap_controlled, ExprTree.uses_nameTerm, List.not_mem_nil, false_or]
  | merged _ _ _ =>
    simp only [Expr.children, List.cons_append, List.forall₂_cons] at pairs
    simp only [Expr.children, List.cons_append, List.flatMap_cons, List.mem_append]
    rw [ExprTree.uses_node]
    simp only [ExprTree.use?, Option.toList_none, List.nil_append, Expr.children,
      mem_uses_mergedControls pairs.2.1]

theorem leaves_of_isOperationCall {layer : Expr ExprTerm}
    (operation : ExprTree.isOperationCall known layer) :
    (ExprTree.node () layer).leaves = [.node () layer] := by
  cases layer with
  | call func args keywords => exact ExprTree.leaves_of_ne (by simp) (by simp)
  | _ => cases operation

theorem ExprTree.use?_eq_none {layer : Expr ExprTerm}
    (plain : ExprTree.isOperationCall known layer = false) : ExprTree.use? known layer = none := by
  rw [ExprTree.isOperationCall_eq_use?] at plain
  exact Option.not_isSome_iff_eq_none.1 (by simp [plain])

theorem control_controlsUses_leaves {e r : ExprTerm}
    (ended : (controlRule known control).rewrite e = .ok r) :
    List.Forall₂ (ExprTree.ControlsUses known) e.leaves r.leaves := by
  -- on the leaves and not the whole, since merging compares the leaves of a control
  induction e using ExprTree.induct generalizing r with
  | step label layer ih =>
    obtain ⟨parts, rewritten, trunks, outcome⟩ := control_cases ended
    have children := Expr.children_refill rewritten.length_eq.symm
    have leaves := forall₂_imp_of_mem rewritten fun part inside r ended => ih part inside ended
    have inside := ExprTree.ControlsUses.flatMap (leaves.imp fun _ _ => .of_leaves)
    rcases outcome with ⟨plain, rfl⟩ | ⟨finished, operation, rfl, controls⟩
    · have here : ExprTree.ControlsUses known (.node () layer) (.node () (layer.refill parts)) := by
        intro u
        rw [ExprTree.uses_node, ExprTree.uses_node, ExprTree.use?_refill trunks,
          ExprTree.use?_eq_none plain, children]
        exact inside u
      cases layer with
      | list items | aggregate items =>
        simp only [Expr.refill, ExprTree.leaves_list, ExprTree.leaves_aggregate, List.flatMap_def]
        exact List.rel_flatten (List.forall₂_map_left_iff.2 (List.forall₂_map_right_iff.2 leaves))
      | _ =>
        rw [ExprTree.leaves_of_ne (by simp) (by simp),
          ExprTree.leaves_of_ne (by simp [Expr.refill]) (by simp [Expr.refill])]
        exact .cons here .nil
    · rw [leaves_of_isOperationCall operation,
        leaves_of_isOperationCall ((controls.isOperationCall known).trans operation)]
      rw [← children] at leaves
      refine .cons (fun u => ?_) .nil
      rw [ExprTree.uses_node, ExprTree.uses_node, controls.use? known, List.map_append,
        List.mem_append, List.mem_append, controls.mem_uses leaves, children, inside u]
      cases ExprTree.use? known layer <;> rfl

theorem control_controlsUses {e r : ExprTerm}
    (ended : (controlRule known control).rewrite e = .ok r) : ExprTree.ControlsUses known e r :=
  .of_leaves (control_controlsUses_leaves ended)

theorem control_callsSame {e r : ExprTerm} (ended : (controlRule known control).rewrite e = .ok r) :
    ExprTree.CallsSame known e r :=
  (control_controlsUses ended).callsSame

end Uses

section Origins

variable {known : OperationTable} {control : String} {e r : ExprTerm}

theorem ExprTree.mem_operationCalls_node {layer : Expr ExprTerm} {call : ExprTerm} :
    call ∈ operationCalls known (.node () layer) ↔
      isOperationCall known layer ∧ call = .node () layer ∨
        ∃ part ∈ layer.children, call ∈ part.operationCalls known := by
  rw [operationCalls_node, List.mem_append, List.mem_flatMap]
  split
  · simp_all
  · simp_all

theorem ControlsCall.exists_of_mem_children {layer filled finished : Expr ExprTerm}
    (controls : ControlsCall control layer filled finished) {part call : ExprTerm}
    (member : part ∈ finished.children) (within : call ∈ part.operationCalls known) :
    ∃ part' ∈ filled.children, call ∈ part'.operationCalls known := by
  have named := ExprTree.operationCalls_nameTerm known control
  cases controls with
  | @plain func func' args args' keywords keywords' =>
    simp only [Expr.children, List.mem_cons, List.mem_append] at member ⊢
    rcases member with rfl | (rfl | member) | member
    · rw [ExprTree.operationCalls_node] at within
      exact ⟨func', .inl rfl, by simpa [ExprTree.isOperationCall, Expr.children] using within⟩
    · rw [named] at within
      cases within
    · exact ⟨part, .inr (.inl member), within⟩
    · exact ⟨part, .inr (.inr member), within⟩
  | @merged func func' existing existing' args args' keywords keywords' signature trunk trunk' =>
    simp only [Expr.children, List.mem_cons, List.mem_append] at member ⊢
    rcases member with rfl | (rfl | member) | member
    · exact ⟨part, .inl rfl, within⟩
    · rcases ExprTree.mem_operationCalls_node.1 within with ⟨operation, -⟩ | ⟨leaf, listed, within⟩
      · cases operation
      · rcases List.mem_cons.1 ((mergedControls_sublist trunk').subset listed) with rfl | listed
        · rw [named] at within
          cases within
        · have inside : leaf.operationCalls known ⊆ existing'.operationCalls known :=
            ExprTree.operationCalls_subset_of_mem_leaves listed
          exact ⟨existing', .inr (.inl (.inl rfl)), inside within⟩
    · exact ⟨part, .inr (.inl (.inr member)), within⟩
    · exact ⟨part, .inr (.inr member), within⟩

/-- Every call of a controlled expression is a call that was there, with one more control. -/
theorem control_origin (ended : (controlRule known control).rewrite e = .ok r) :
    ∀ call' ∈ r.operationCalls known, ∃ layer filled finished,
      ExprTree.node () layer ∈ e.operationCalls known ∧ call' = .node () finished ∧
        filled.map ExprTree.trunk = layer.map ExprTree.trunk ∧
        ControlsCall control layer filled finished := by
  induction e using ExprTree.induct generalizing r with
  | step label layer ih =>
    intro call' member
    obtain ⟨parts, rewritten, trunks, outcome⟩ := control_cases ended
    have inside : ∀ part' ∈ (layer.refill parts).children, call' ∈ part'.operationCalls known →
        ∃ layer' filled finished,
          ExprTree.node () layer' ∈ (ExprTree.node label layer).operationCalls known ∧
            call' = .node () finished ∧
            filled.map ExprTree.trunk = layer'.map ExprTree.trunk ∧
            ControlsCall control layer' filled finished := by
      intro part' listed within
      rw [Expr.children_refill rewritten.length_eq.symm] at listed
      obtain ⟨part, original, ran⟩ := exists_mem_of_forall₂ rewritten.flip listed
      obtain ⟨layer', filled, finished, there, rest⟩ := ih part original ran call' within
      exact ⟨layer', filled, finished,
        ExprTree.mem_operationCalls_node.2 (.inr ⟨part, original, there⟩), rest⟩
    rcases outcome with ⟨plain, rfl⟩ | ⟨finished, operation, rfl, controls⟩
    · rcases ExprTree.mem_operationCalls_node.1 member with ⟨operation, -⟩ | ⟨part', listed, within⟩
      · rw [Reading.isOperationCall_refill trunks, plain] at operation
        cases operation
      · exact inside part' listed within
    · rcases ExprTree.mem_operationCalls_node.1 member with ⟨-, rfl⟩ | ⟨part', listed, within⟩
      · exact ⟨layer, _, finished, ExprTree.mem_operationCalls_node.2 (.inl ⟨operation, rfl⟩), rfl,
          ExprTree.trunk_refill trunks, controls⟩
      · obtain ⟨part, listed', within'⟩ := controls.exists_of_mem_children listed within
        exact inside part listed' within'

end Origins

end QuantumLowering
