import Mathlib.Data.List.InsertIdx
import QuantumLowering.Proofs.Lowering.ControlledCalls
import QuantumLowering.Proofs.Lowering.Wiring

namespace QuantumLowering

namespace ExprTree

/-- The call is of a controlled operation, and the name is among the controls. -/
def HasControl (control : String) : ExprTerm → Prop
  | .node _ (.call func (controls :: _) _) =>
    func.signature = .controlled ∧ nameTerm control ∈ controls.leaves
  | _ => False

/-- Every call of a known operation has the control. -/
def Guarded (known : OperationTable) (control : String) (e : ExprTerm) : Prop :=
  ∀ call ∈ e.operationCalls known, call.HasControl control

variable {known known' : OperationTable} {control : String}

theorem guarded_node {layer : Expr ExprTerm} : Guarded known control (.node () layer) ↔
    (isOperationCall known layer → HasControl control (.node () layer)) ∧
      ∀ part ∈ layer.children, Guarded known control part :=
  forall_operationCalls_node

theorem Guarded.wrap {e : ExprTerm} (guarded : Guarded known control e) (chain : List GateFunctor) :
    Guarded known control (.wrap chain e.base) := by
  unfold Guarded
  rw [operationCalls_wrap, operationCalls_base]
  exact guarded

theorem isOperationCall_of_knownIn {layer : Expr ExprTerm} (grown : known.KnownIn known')
    (operation : isOperationCall known layer) : isOperationCall known' layer := by
  cases layer with
  | call func args keywords =>
    simp only [isOperationCall, operation?, Option.isSome_filter, Option.any_eq_true] at operation ⊢
    obtain ⟨name, named, listed⟩ := operation
    exact ⟨name, named, grown name listed⟩
  | _ => cases operation

theorem Guarded.of_knownIn {e : ExprTerm} (guarded : Guarded known' control e)
    (grown : known.KnownIn known') : Guarded known control e := by
  induction e using induct with
  | step label layer ih =>
    obtain ⟨here, parts⟩ := guarded_node.1 guarded
    exact guarded_node.2 ⟨fun operation => here (isOperationCall_of_knownIn grown operation),
      fun part member => ih part member (parts part member)⟩

end ExprTree

section ControlsCall

variable {known known' : OperationTable} {control other : String}
  {layer filled finished : Expr ExprTerm}

theorem ControlsCall.hasControl (controls : ControlsCall control layer filled finished) :
    ExprTree.HasControl control (.node () finished) := by
  cases controls with
  | @plain func func' =>
    refine ⟨?_, ?_⟩
    · simp [ExprTree.signature, ExprTree.chain]
    · rw [ExprTree.leaves_nameTerm]
      exact List.mem_singleton.2 rfl
  | merged signature trunk trunk' =>
    refine ⟨(ExprTree.signature_eq_of_trunk trunk).trans signature, ?_⟩
    rw [ExprTree.leaves_aggregate, List.mem_flatMap]
    refine ⟨_, mem_mergedControls_new, ?_⟩
    rw [ExprTree.leaves_nameTerm]
    exact List.mem_singleton.2 rfl

theorem ControlsCall.keeps (controls : ControlsCall control layer filled finished)
    (before : ExprTree.HasControl other (.node () layer)) :
    ExprTree.HasControl other (.node () finished) := by
  cases controls with
  | @plain func func' args args' keywords keywords' signature =>
    cases args with
    | nil => cases before
    | cons existing args =>
      have controlled := before.1
      rw [signature] at controlled
      cases controlled
  | merged signature trunk trunk' =>
    refine ⟨(ExprTree.signature_eq_of_trunk trunk).trans signature, ?_⟩
    rw [ExprTree.leaves_aggregate, List.mem_flatMap]
    refine ⟨_, mem_mergedControls_name trunk' before.2, ?_⟩
    rw [ExprTree.leaves_nameTerm]
    exact List.mem_singleton.2 rfl

theorem ControlsCall.guarded_children (controls : ControlsCall control layer filled finished)
    (parts : ∀ part ∈ filled.children, ExprTree.Guarded known other part) :
    ∀ part ∈ finished.children, ExprTree.Guarded known other part := by
  intro part member call within
  obtain ⟨part', listed, within'⟩ := controls.exists_of_mem_children member within
  exact parts part' listed call within'

end ControlsCall

section Rewrite

variable {known table : OperationTable} {control other : String} {e r : ExprTerm}

theorem guarded_refill {layer : Expr ExprTerm} {parts : List ExprTerm}
    (trunks : parts.map ExprTree.trunk = layer.children.map ExprTree.trunk)
    (plain : ExprTree.isOperationCall known layer = false)
    (guarded : ∀ part ∈ parts, ExprTree.Guarded known control part) :
    ExprTree.Guarded known control (.node () (layer.refill parts)) := by
  have length : parts.length = layer.children.length := by
    simpa using congrArg List.length trunks
  refine ExprTree.guarded_node.2 ⟨fun operation => ?_, ?_⟩
  · rw [Reading.isOperationCall_refill trunks, plain] at operation
    cases operation
  · rwa [Expr.children_refill length]

theorem forall_mem_of_forall₂ {α β : Type} {R : α → β → Prop} {P : β → Prop} {xs : List α}
    {ys : List β} (pairs : List.Forall₂ R xs ys) (each : ∀ x ∈ xs, ∀ y, R x y → P y) :
    ∀ y ∈ ys, P y := by
  induction pairs with
  | nil => simp
  | cons here _ ih =>
    intro y member
    rcases List.mem_cons.1 member with rfl | member
    · exact each _ (by simp) _ here
    · exact ih (fun x inside => each x (by simp [inside])) y member

theorem control_guards (ended : (controlRule known control).rewrite e = .ok r) :
    ExprTree.Guarded known control r := by
  intro call member
  obtain ⟨_, _, _, -, rfl, -, controls⟩ := control_origin ended call member
  exact controls.hasControl

theorem not_isOperationCall_of_knownIn {layer : Expr ExprTerm} (grown : known.KnownIn table)
    (plain : ExprTree.isOperationCall table layer = false) :
    ExprTree.isOperationCall known layer = false := by
  cases operation : ExprTree.isOperationCall known layer with
  | false => rfl
  | true =>
    rw [ExprTree.isOperationCall_of_knownIn grown operation] at plain
    cases plain

theorem control_keeps (grown : known.KnownIn table) (guarded : ExprTree.Guarded known other e)
    (ended : (controlRule table control).rewrite e = .ok r) : ExprTree.Guarded known other r := by
  induction e using ExprTree.induct generalizing r with
  | step label layer ih =>
    obtain ⟨here, inside⟩ := ExprTree.guarded_node.1 guarded
    obtain ⟨parts, rewritten, trunks, ⟨plain, rfl⟩ | ⟨finished, operation, rfl, controls⟩⟩ :=
      control_cases ended
    · exact guarded_refill trunks (not_isOperationCall_of_knownIn grown plain)
        (forall_mem_of_forall₂ rewritten fun part member r ended =>
          ih part member (inside part member) ended)
    · refine ExprTree.guarded_node.2 ⟨fun operation => ?_, controls.guarded_children ?_⟩
      · rw [controls.isOperationCall] at operation
        exact controls.keeps (here operation)
      · rw [Expr.children_refill rewritten.length_eq.symm]
        exact forall_mem_of_forall₂ rewritten fun part member r ended =>
          ih part member (inside part member) ended

theorem adjoint_keeps (grown : known.KnownIn table) (guarded : ExprTree.Guarded known other e)
    (ended : (adjointRule table).rewrite e = .ok r) : ExprTree.Guarded known other r := by
  induction e using ExprTree.induct generalizing r with
  | step label layer ih =>
    obtain ⟨here, inside⟩ := ExprTree.guarded_node.1 guarded
    obtain ⟨parts, rewritten, rfl⟩ := CallRule.rewrite_eq_ok ended
    have trunks : parts.map ExprTree.trunk = layer.children.map ExprTree.trunk :=
      map_eq_of_forall₂ rewritten fun _ _ _ ended => trunk_adjoint ended
    have guardedParts := forall_mem_of_forall₂ rewritten fun part member r ended =>
      ih part member (inside part member) ended
    cases operation : ExprTree.isOperationCall table layer with
    | false =>
      have finished : (adjointRule table).finish layer (layer.refill parts) = layer.refill parts :=
        adjointFinish_other _ operation
      rw [finished]
      exact guarded_refill trunks (not_isOperationCall_of_knownIn grown operation) guardedParts
    | true =>
      have filledParts : ∀ part ∈ (layer.refill parts).children,
          ExprTree.Guarded known other part := by
        rwa [Expr.children_refill rewritten.length_eq.symm]
      cases layer with
      | call func args keywords =>
        obtain ⟨func', args', keywords', filled, trunkFunc, trunkArgs⟩ :=
          ExprTree.exists_call_of_trunk (ExprTree.trunk_refill trunks)
        rw [filled] at filledParts ⊢
        have finished : (adjointRule table).finish (.call func args keywords)
            (.call func' args' keywords') = .call (.wrap (GateFunctor.reduceChain
              (.adjoint :: func.chain)) func'.base) args' keywords' := adjointFinish_call operation
        rw [finished]
        refine ExprTree.guarded_node.2 ⟨fun called => ?_, fun part member => ?_⟩
        · have called' : ExprTree.isOperationCall known (.call func args keywords) := by
            rw [ExprTree.isOperationCall, ← ExprTree.operation?_eq_of_trunk trunkFunc]
            simpa only [ExprTree.isOperationCall, ExprTree.operation?, ExprTree.operationName,
              ExprTree.base_wrap, ExprTree.base_base] using called
          have before := here called'
          cases args with
          | nil => cases before
          | cons existing args =>
            obtain ⟨existing', args', rfl, trunkExisting, -⟩ := List.map_eq_cons_iff.1 trunkArgs
            exact ⟨(ExprTree.signature_adjoint func func').trans before.1,
              ExprTree.mem_leaves_of_trunk trunkExisting before.2⟩
        · simp only [Expr.children, List.mem_cons, List.mem_append] at filledParts member
          rcases member with rfl | member
          · exact (filledParts func' (.inl rfl)).wrap _
          · exact filledParts part (.inr member)
      | _ => cases operation

end Rewrite

namespace StmtTree

/-- The expressions that a control reaches: the values of statements, through scopes and branches. -/
def values : StmtTerm → List ExprTerm
  | .expr _ value => [value]
  | .assign _ _ value => [value]
  | .scoped _ _ _ body => (body.attach.map fun s => values s.1).flatten
  | .conditional _ _ body orelse =>
    (body.attach.map fun s => values s.1).flatten ++ (orelse.attach.map fun s => values s.1).flatten
  | _ => []
termination_by s => sizeOf s
decreasing_by all_goals exact sizeOf_inner (by simp [inner, s.2])

/-- The expressions that a control does not reach: targets, contexts, bindings and tests. -/
def heads : StmtTerm → List ExprTerm
  | .assign _ target _ => [target]
  | .scoped _ context binding body =>
    context :: binding.toList ++ (body.attach.map fun s => heads s.1).flatten
  | .conditional _ test body orelse =>
    test :: (body.attach.map fun s => heads s.1).flatten ++
      (orelse.attach.map fun s => heads s.1).flatten
  | _ => []
termination_by s => sizeOf s
decreasing_by all_goals exact sizeOf_inner (by simp [inner, s.2])

@[simp]
theorem values_expr (value : ExprTerm) : (expr () value).values = [value] := by
  rw [values]

@[simp]
theorem values_assign (target value : ExprTerm) : (assign () target value).values = [value] := by
  rw [values]

@[simp]
theorem values_scoped (context : ExprTerm) (binding : Option ExprTerm) (body : List StmtTerm) :
    (StmtTree.scoped () context binding body).values = body.flatMap values := by
  rw [values, List.attach_map_val (f := values), ← List.flatMap_def]

@[simp]
theorem values_conditional (test : ExprTerm) (body orelse : List StmtTerm) :
    (conditional () test body orelse).values = body.flatMap values ++ orelse.flatMap values := by
  rw [values, List.attach_map_val (f := values), List.attach_map_val (f := values),
    ← List.flatMap_def, ← List.flatMap_def]

theorem heads_assign (target value : ExprTerm) : (assign () target value).heads = [target] := by
  rw [heads]

theorem heads_scoped (context : ExprTerm) (binding : Option ExprTerm) (body : List StmtTerm) :
    (StmtTree.scoped () context binding body).heads =
      context :: binding.toList ++ body.flatMap heads := by
  rw [heads, List.attach_map_val (f := heads), ← List.flatMap_def]

theorem heads_conditional (test : ExprTerm) (body orelse : List StmtTerm) :
    (conditional () test body orelse).heads =
      test :: body.flatMap heads ++ orelse.flatMap heads := by
  rw [heads, List.attach_map_val (f := heads), List.attach_map_val (f := heads),
    ← List.flatMap_def, ← List.flatMap_def]

def expressions (s : StmtTerm) : List ExprTerm := s.values ++ s.heads

theorem values_sealed {s : StmtTerm} (closed : s.sealed) : s.values = [] := by
  cases s with
  | importAs _ _ _ | define _ _ | classDef _ _ _ | wire _ _ _ _ | pass _ => simp only [values]
  | expr _ _ | assign _ _ _ | «scoped» _ _ _ _ | conditional _ _ _ _ => cases closed

end StmtTree

section Blocks

variable {rule : CallRule} {reversed : ExprTerm → Bool} {body rs : List StmtTerm}

theorem exists_of_mem_flatMap {α β : Type} {R : β → β → Prop} {f : α → List β} {xs ys : List α}
    (pairs : List.Forall₂ (fun x y => ∀ b' ∈ f y, ∃ b ∈ f x, R b b') xs ys) :
    ∀ b' ∈ ys.flatMap f, ∃ b ∈ xs.flatMap f, R b b' := by
  induction pairs with
  | nil => simp
  | cons here _ ih =>
    intro b' member
    rw [List.flatMap_cons] at member ⊢
    rcases List.mem_append.1 member with member | member
    · obtain ⟨b, inside, related⟩ := here b' member
      exact ⟨b, List.mem_append_left _ inside, related⟩
    · obtain ⟨b, inside, related⟩ := ih b' member
      exact ⟨b, List.mem_append_right _ inside, related⟩

theorem CallRule.exists_of_mem_values {s r : StmtTerm}
    (ended : rule.rewriteStmt reversed s = .ok r) :
    ∀ value' ∈ r.values, ∃ value ∈ s.values, rule.rewrite value = .ok value' := by
  refine CallRule.rewriteStmt_induct ?kept ?expr ?assign ?scope ?conditional ended
  case kept =>
    intro s closed
    rw [StmtTree.values_sealed closed]
    simp
  case expr =>
    intro value value' ran
    simpa using ran
  case assign =>
    intro target value value' ran
    simpa using ran
  case scope =>
    intro context binding body rs pairs
    rw [StmtTree.values_scoped, StmtTree.values_scoped]
    intro value' member
    refine exists_of_mem_flatMap pairs value' ?_
    split at member
    · exact (rs.reverse_perm.flatMap_right _).mem_iff.1 member
    · exact member
  case conditional =>
    intro test body orelse rs rs' pairs pairs'
    rw [StmtTree.values_conditional, StmtTree.values_conditional]
    intro value' member
    rcases List.mem_append.1 member with member | member
    · obtain ⟨value, inside, rewritten⟩ := exists_of_mem_flatMap pairs value' member
      exact ⟨value, List.mem_append_left _ inside, rewritten⟩
    · obtain ⟨value, inside, rewritten⟩ := exists_of_mem_flatMap pairs' value' member
      exact ⟨value, List.mem_append_right _ inside, rewritten⟩

theorem CallRule.exists_of_mem_block_values
    (ended : body.mapM (rule.rewriteStmt reversed) = .ok rs) :
    ∀ value' ∈ rs.flatMap StmtTree.values,
      ∃ value ∈ body.flatMap StmtTree.values, rule.rewrite value = .ok value' :=
  exists_of_mem_flatMap ((Plan.mapM_eq_ok ended).imp fun _ _ => CallRule.exists_of_mem_values)

theorem values_controlStmt {known : OperationTable} {control : String} {s r : StmtTerm}
    (ended : controlStmt known control s = .ok r) : List.Forall₂
      (fun value value' => (controlRule known control).rewrite value = .ok value')
      s.values r.values := by
  refine CallRule.rewriteStmt_induct ?kept ?expr ?assign ?scope ?conditional ended
  case kept =>
    intro s closed
    rw [StmtTree.values_sealed closed]
    exact .nil
  case expr =>
    intro value value' ran
    simpa using ran
  case assign =>
    intro target value value' ran
    simpa using ran
  case scope =>
    intro context binding body rs pairs
    rw [StmtTree.values_scoped, StmtTree.values_scoped]
    exact List.rel_flatMap pairs fun _ _ values => values
  case conditional =>
    intro test body orelse rs rs' pairs pairs'
    rw [StmtTree.values_conditional, StmtTree.values_conditional]
    exact List.rel_append (List.rel_flatMap pairs fun _ _ values => values)
      (List.rel_flatMap pairs' fun _ _ values => values)

theorem values_controlStmts {known : OperationTable} {control : String}
    (ended : controlStmts known control body = .ok rs) : List.Forall₂
      (fun value value' => (controlRule known control).rewrite value = .ok value')
      (body.flatMap StmtTree.values) (rs.flatMap StmtTree.values) :=
  List.rel_flatMap ((Plan.mapM_eq_ok ended).imp fun _ _ => values_controlStmt)
    fun _ _ values => values

theorem flatMap_eq_of_forall₂ {α β : Type} {f : α → List β} {xs ys : List α}
    (pairs : List.Forall₂ (fun x y => f y = f x) xs ys) : ys.flatMap f = xs.flatMap f := by
  rw [List.flatMap_def, List.flatMap_def, map_eq_of_forall₂ pairs fun _ _ _ same => same]

theorem heads_controlStmt {known : OperationTable} {control : String} {s r : StmtTerm}
    (ended : controlStmt known control s = .ok r) : r.heads = s.heads := by
  refine CallRule.rewriteStmt_induct ?kept ?expr ?assign ?scope ?conditional ended
  case kept =>
    intro s closed
    rfl
  case expr =>
    intro value value' ran
    simp only [StmtTree.heads]
  case assign =>
    intro target value value' ran
    rw [StmtTree.heads_assign, StmtTree.heads_assign]
  case scope =>
    intro context binding body rs pairs
    rw [StmtTree.heads_scoped, StmtTree.heads_scoped, if_neg Bool.false_ne_true,
      flatMap_eq_of_forall₂ pairs]
  case conditional =>
    intro test body orelse rs rs' pairs pairs'
    rw [StmtTree.heads_conditional, StmtTree.heads_conditional, flatMap_eq_of_forall₂ pairs,
      flatMap_eq_of_forall₂ pairs']

theorem heads_controlStmts {known : OperationTable} {control : String}
    (ended : controlStmts known control body = .ok rs) :
    rs.flatMap StmtTree.heads = body.flatMap StmtTree.heads :=
  flatMap_eq_of_forall₂ ((Plan.mapM_eq_ok ended).imp fun _ _ => heads_controlStmt)

end Blocks

def StmtTree.bound : StmtTerm → List String
  | .define _ d => d.params
  | .scoped _ _ (some (.node _ (.name name))) _ => [name]
  | _ => []

def boundNames (block : List StmtTerm) : List String :=
  (block.flatMap StmtTree.statements).flatMap StmtTree.bound

/-- Every name that the statement binds, apart from the given ones, guards the values of its block. -/
def StmtTree.Guards (known : OperationTable) (apart : List String) (s : StmtTerm) : Prop :=
  ∀ name ∈ s.bound, name ∉ apart → ∀ value ∈ s.inner.flatMap values, value.Guarded known name

def GuardsAll (known : OperationTable) (apart : List String) (block : List StmtTerm) : Prop :=
  ∀ s ∈ block.flatMap StmtTree.statements, s.Guards known apart

theorem StmtTree.Guards.unbound {known : OperationTable} {apart : List String} {s : StmtTerm}
    (none : s.bound = []) : s.Guards known apart := by
  intro name member
  rw [none] at member
  cases member

theorem StmtTree.bound_scoped (context context' : ExprTerm) (binding : Option ExprTerm)
    (body body' : List StmtTerm) : (StmtTree.scoped () context binding body).bound =
      (StmtTree.scoped () context' binding body').bound := by
  cases binding with
  | none => rfl
  | some e =>
    obtain ⟨_, layer⟩ := e
    cases layer <;> rfl

namespace GuardsAll

variable {known : OperationTable} {apart apart' : List String} {block block' : List StmtTerm}

theorem cons {s : StmtTerm} (here : s.Guards known apart) (inner : GuardsAll known apart s.inner) :
    GuardsAll known apart [s] := by
  intro s' member
  rw [List.flatMap_cons, List.flatMap_nil, List.append_nil, StmtTree.statements_eq] at member
  rcases List.mem_cons.1 member with rfl | member
  · exact here
  · exact inner s' member

theorem head {s : StmtTerm} (all : GuardsAll known apart [s]) : s.Guards known apart := by
  refine all s ?_
  rw [List.flatMap_cons, StmtTree.statements_eq]
  exact List.mem_append_left _ List.mem_cons_self

theorem inner {s : StmtTerm} (all : GuardsAll known apart [s]) : GuardsAll known apart s.inner := by
  intro s' member
  refine all s' ?_
  rw [List.flatMap_cons, StmtTree.statements_eq]
  exact List.mem_append_left _ (List.mem_cons_of_mem _ member)

theorem append (first : GuardsAll known apart block) (second : GuardsAll known apart block') :
    GuardsAll known apart (block ++ block') := by
  intro s member
  rw [List.flatMap_append] at member
  rcases List.mem_append.1 member with member | member
  · exact first s member
  · exact second s member

theorem of_forall (each : ∀ s ∈ block, GuardsAll known apart [s]) : GuardsAll known apart block := by
  intro s member
  obtain ⟨s', listed, inside⟩ := List.mem_flatMap.1 member
  exact each s' listed s (List.mem_flatMap.2 ⟨s', by simp, inside⟩)

theorem of_subset (all : GuardsAll known apart block) (inside : block' ⊆ block) :
    GuardsAll known apart block' := by
  intro s member
  obtain ⟨s', listed, member⟩ := List.mem_flatMap.1 member
  exact all s (List.mem_flatMap.2 ⟨s', inside listed, member⟩)

theorem mono (all : GuardsAll known apart block) (more : apart ⊆ apart') :
    GuardsAll known apart' block :=
  fun s member name bound outside => all s member name bound fun inside => outside (more inside)

variable {rule : CallRule} {reversed : ExprTerm → Bool}

theorem rewrite {rs : List StmtTerm} (all : GuardsAll known apart block)
    (keeps : ∀ name e r, ExprTree.Guarded known name e → rule.rewrite e = .ok r →
      ExprTree.Guarded known name r)
    (ended : block.mapM (rule.rewriteStmt reversed) = .ok rs) : GuardsAll known apart rs := by
  obtain ⟨inside, order, kept⟩ := CallRule.keepsInside_mapM ended
    fun s _ r ended => CallRule.keepsInside_rewriteStmt ended
  intro r member
  refine forall_mem_of_forall₂ kept (fun s listed r kept => ?_) r (order.mem_iff.2 member)
  have guards := all s listed
  rcases kept with rfl | ended
  · exact guards
  cases CallRule.rewritten ended with
  | kept _ => exact guards
  | expr _ | assign _ | conditional _ _ => exact .unbound rfl
  | @scope context binding body rs ran =>
    intro name bound outside value member
    rw [StmtTree.inner, ← StmtTree.values_scoped context binding] at member
    obtain ⟨value', listed, rewritten⟩ := CallRule.exists_of_mem_values ended _ member
    rw [StmtTree.values_scoped] at listed
    rw [StmtTree.bound_scoped context context binding _ body] at bound
    exact keeps name value' value (guards name bound outside value' listed) rewritten

theorem control {table : OperationTable} {control : String} {rs : List StmtTerm}
    (all : GuardsAll known apart block) (grown : known.KnownIn table)
    (ended : controlStmts table control block = .ok rs) : GuardsAll known apart rs :=
  all.rewrite (fun _ _ _ guarded ended => control_keeps grown guarded ended) ended

theorem adjoint {table : OperationTable} {o : Options} {rs : List StmtTerm}
    (all : GuardsAll known apart block) (grown : known.KnownIn table)
    (ended : adjointStmts table o block = .ok rs) : GuardsAll known apart rs := by
  obtain ⟨rs, ran, ended⟩ := Plan.bind_eq_ok.1 ended
  cases ended
  have rewritten := all.rewrite (fun _ _ _ guarded ended => adjoint_keeps grown guarded ended) ran
  exact rewritten.of_subset fun s member => List.mem_reverse.1 member

end GuardsAll

section Values

variable {known table : OperationTable} {control name : String} {body rs : List StmtTerm}

theorem controlStmts_guards (grown : known.KnownIn table)
    (ended : controlStmts table control body = .ok rs) :
    ∀ value ∈ rs.flatMap StmtTree.values, value.Guarded known control := by
  intro value member
  obtain ⟨value', -, rewritten⟩ := CallRule.exists_of_mem_block_values ended _ member
  exact (control_guards rewritten).of_knownIn grown

theorem controlStmts_keeps (grown : known.KnownIn table)
    (guarded : ∀ value ∈ body.flatMap StmtTree.values, value.Guarded known name)
    (ended : controlStmts table control body = .ok rs) :
    ∀ value ∈ rs.flatMap StmtTree.values, value.Guarded known name := by
  intro value member
  obtain ⟨value', listed, rewritten⟩ := CallRule.exists_of_mem_block_values ended _ member
  exact control_keeps grown (guarded value' listed) rewritten

theorem adjointStmts_keeps {o : Options} (grown : known.KnownIn table)
    (guarded : ∀ value ∈ body.flatMap StmtTree.values, value.Guarded known name)
    (ended : adjointStmts table o body = .ok rs) :
    ∀ value ∈ rs.flatMap StmtTree.values, value.Guarded known name := by
  obtain ⟨rs, ran, ended⟩ := Plan.bind_eq_ok.1 ended
  cases ended
  intro value member
  have unreversed := (rs.reverse_perm.flatMap_right StmtTree.values).mem_iff.1 member
  obtain ⟨value', listed, rewritten⟩ := CallRule.exists_of_mem_block_values ran _ unreversed
  exact adjoint_keeps grown (guarded value' listed) rewritten

end Values

theorem VariantOf.guardsAll {o : Options} {known table : OperationTable} {apart : List String}
    {d d' : Definition StmtTerm} (variant : VariantOf o table d d') (grown : known.KnownIn table)
    (all : GuardsAll known apart [.define () d]) : GuardsAll known apart [.define () d'] := by
  induction variant with
  | self => exact all
  | adjoint name source more ended ih =>
    have known := grown.trans more
    refine .cons (fun bound member outside => ?_) (ih.inner.adjoint known ended)
    exact adjointStmts_keeps known (ih.head bound member outside) ended
  | controlled name control position source more ended ih =>
    have known := grown.trans more
    refine .cons (fun bound member outside => ?_) (ih.inner.control known ended)
    rcases List.eq_or_mem_of_mem_insertIdx member with rfl | member
    · exact controlStmts_guards known ended
    · exact controlStmts_keeps known (ih.head bound member outside) ended

theorem boundNames_append (block block' : List StmtTerm) :
    boundNames (block ++ block') = boundNames block ++ boundNames block' := by
  simp [boundNames]

theorem boundNames_singleton (s : StmtTerm) : boundNames [s] = s.bound ++ boundNames s.inner := by
  simp [boundNames, s.statements_eq]

theorem bound_subset (s : StmtTerm) : s.bound ⊆ boundNames [s] := by
  rw [boundNames_singleton]
  exact List.subset_append_left _ _

theorem boundNames_subset {s : StmtTerm} {body : List StmtTerm} (inside : body ⊆ s.inner) :
    boundNames body ⊆ boundNames [s] := by
  intro name member
  obtain ⟨s', listed, bound⟩ := List.mem_flatMap.1 member
  obtain ⟨part, listed', within⟩ := List.mem_flatMap.1 listed
  rw [boundNames_singleton, List.mem_append]
  exact .inr (List.mem_flatMap.2 ⟨s', List.mem_flatMap.2 ⟨part, inside listed', within⟩, bound⟩)

theorem compositional_guards (o : Options) (known : OperationTable) :
    Compositional o fun body k rs k' => known.KnownIn k.operations →
      known.KnownIn k'.operations ∧ GuardsAll known (boundNames body) rs where
  nil k grown := ⟨grown, by simp [GuardsAll]⟩
  append := by
    intro body body' rs rs' k k' k'' first second grown
    obtain ⟨grown', all⟩ := first grown
    obtain ⟨grown'', all'⟩ := second grown'
    rw [boundNames_append]
    exact ⟨grown'', (all.mono (List.subset_append_left _ _)).append
      (all'.mono (List.subset_append_right _ _))⟩
  before := by
    intro body rs k k' k'' names rest grown
    rw [← names.operations] at grown
    exact rest grown
  after := by
    intro body rs k k' k'' first names grown
    rw [names.operations]
    exact first grown
  leaf := by
    intro s r k leaf grown
    refine ⟨grown, ?_⟩
    cases leaf <;> exact .cons (.unbound rfl) (by simp [GuardsAll, StmtTree.inner])
  insert := by
    intro body front batch back k k' first assigns grown
    obtain ⟨grown', all⟩ := first grown
    refine ⟨grown', ((all.of_subset (by simp)).append (.of_forall fun s member => ?_)).append
      (all.of_subset (by simp))⟩
    obtain ⟨target, value, rfl⟩ := assigns s member
    exact .cons (.unbound rfl) (by simp [GuardsAll, StmtTree.inner])
  classDef := by
    intro body rs k k' name inner grown
    obtain ⟨grown', all⟩ := inner grown
    exact ⟨grown', .cons (.unbound rfl) (all.mono
      (boundNames_subset (s := .classDef () name body) (List.Subset.refl _)))⟩
  scope := by
    intro body rs k k' context context' binding inner grown
    obtain ⟨grown', all⟩ := inner grown
    refine ⟨grown', .cons (fun name member outside => absurd ?_ outside) (all.mono
      (boundNames_subset (s := .scoped () context binding body) (List.Subset.refl _)))⟩
    rw [StmtTree.bound_scoped context' context binding rs body] at member
    exact bound_subset _ member
  conditional := by
    intro body orelse rs rs' k k' k'' test test' first second grown
    obtain ⟨grown', all⟩ := first grown
    obtain ⟨grown'', all'⟩ := second grown'
    refine ⟨grown'', .cons (.unbound rfl) (.append (all.mono ?_) (all'.mono ?_))⟩
    · exact boundNames_subset (List.subset_append_left _ _)
    · exact boundNames_subset (List.subset_append_right _ _)
  quantum := by
    intro body orelse rs rs' k k' k'' control test context first second ended grown
    obtain ⟨grown', all⟩ := first grown
    obtain ⟨grown'', -⟩ := second grown'
    refine ⟨grown'', .cons (fun name member _ => ?_) ((all.mono ?_).control grown'' ended)⟩
    · rw [List.mem_singleton.1 member]
      exact controlStmts_guards grown'' ended
    · exact boundNames_subset (List.subset_append_left _ _)
  define := by
    intro d rs variants k p p' inner ended grown
    obtain ⟨grown', all⟩ := inner grown
    obtain ⟨names, links, -, emits⟩ := emitVariants_emits _ _ _ ended
    have here : GuardsAll known (boundNames [.define () d]) [.define () { d with body := rs }] :=
      .cons (fun name member outside => absurd (bound_subset (.define () d) member) outside)
        (all.mono (boundNames_subset (s := .define () d) (List.Subset.refl _)))
    refine ⟨grown'.trans emits.known, ?_⟩
    rw [← List.singleton_append]
    refine here.append (.of_forall fun s member => ?_)
    rcases emits.derived s member with ⟨f, operation, variant, rfl⟩ | ⟨derived, rfl, -, variant⟩
    · exact .cons (.unbound rfl) (by simp [GuardsAll, StmtTree.inner])
    · exact variant.guardsAll grown' here

/-- The calls in the values of the block have the control and call the same operations as before. The
other expressions are as they were. -/
structure ControlsValues (known : OperationTable) (control : String) (body body' : List StmtTerm) :
    Prop where
  values : List.Forall₂ (fun value value' => value'.Guarded known control ∧
    value.CallsSame known value') (body.flatMap StmtTree.values) (body'.flatMap StmtTree.values)
  heads : body'.flatMap StmtTree.heads = body.flatMap StmtTree.heads

theorem controlStmts_controlsValues {known : OperationTable} {control : String}
    {body body' : List StmtTerm} (ended : controlStmts known control body = .ok body') :
    ControlsValues known control body body' where
  values := (values_controlStmts ended).imp fun _ _ rewritten =>
    ⟨control_guards rewritten, control_callsSame rewritten⟩
  heads := heads_controlStmts ended

theorem forall_guarded_iff_heads {known : OperationTable} {control : String} {block : List StmtTerm}
    (values : ∀ value ∈ block.flatMap StmtTree.values, value.Guarded known control) :
    (∀ e ∈ block.flatMap StmtTree.expressions, e.Guarded known control) ↔
      ∀ e ∈ block.flatMap StmtTree.heads, e.Guarded known control := by
  constructor
  · intro all e member
    obtain ⟨s, listed, inside⟩ := List.mem_flatMap.1 member
    exact all e (List.mem_flatMap.2 ⟨s, listed, List.mem_append_right _ inside⟩)
  · intro heads e member
    obtain ⟨s, listed, inside⟩ := List.mem_flatMap.1 member
    rcases List.mem_append.1 inside with inside | inside
    · exact values e (List.mem_flatMap.2 ⟨s, listed, inside⟩)
    · exact heads e (List.mem_flatMap.2 ⟨s, listed, inside⟩)

theorem ControlsValues.forall_guarded_iff {known : OperationTable} {control : String}
    {body body' : List StmtTerm} (controls : ControlsValues known control body body') :
    (∀ e ∈ body'.flatMap StmtTree.expressions, e.Guarded known control) ↔
      ∀ e ∈ body.flatMap StmtTree.heads, e.Guarded known control := by
  rw [← controls.heads]
  exact forall_guarded_iff_heads
    (forall_mem_of_forall₂ controls.values fun _ _ _ guarded => guarded.1)

theorem deriveControlled_body_runs {t : SyntaxTree} {c : Context} {d : Definition NodeId}
    {body : List StmtTerm} (read : t.Reads d.body body) :
    let control := (c.names.fresh c.options.controlParam).1
    Runs (LowerM.deriveControlled d) t c (controlStmts c.operations control body)
      fun body' derived t' _ =>
        derived.params = d.params.insertIdx (LowerM.controlPosition c.insideMethod d.params) control ∧
          t'.Reads derived.body body' := by
  intro control
  obtain ⟨stmts, labels, erased, held⟩ := read
  obtain ⟨copies, t₁, copied, same, first⟩ := copyBlock_run held
  rw [labels] at copied
  unfold LowerM.deriveControlled
  rw [Runs.treeM_bind copied, Runs.options_bind, Runs.contextM_bind (ContextM.run_freshName _),
    ← erased, ← same, ← bind_pure (controlStmts c.operations control (copies.map StmtTree.erase))]
  refine (controlBlock_runs control copies (first.owns .nil)).bind ?_
  rintro _ _ t₂ c₂ ⟨rfl, stmts', rfl, labels', second⟩
  rw [Runs.context_bind, Runs.contextM_bind (ContextM.run_freshName _),
    Runs.contextM_bind (ContextM.run_modifyStats _)]
  exact .pure ⟨rfl, stmts', labels', rfl, second.held⟩

theorem deriveControlled_controlsValues {t : SyntaxTree} {c : Context} {d derived : Definition NodeId}
    {body : List StmtTerm} {s : LoweringState} (read : t.Reads d.body body)
    (ran : LowerM.deriveControlled d ⟨t, c⟩ = .ok derived s) :
    ∃ control body', control ∉ c.names.taken ∧
      derived.params = d.params.insertIdx (LowerM.controlPosition c.insideMethod d.params) control ∧
      s.tree.Reads derived.body body' ∧ ControlsValues c.operations control body body' := by
  obtain ⟨body', ended, params, read⟩ := (deriveControlled_body_runs read).exists_of_ok ran
  exact ⟨_, body', c.names.fresh_not_mem _, params, read, controlStmts_controlsValues ended⟩

theorem boundNames_preparedBody (o : Options) (boilerplate : Bool) (body : List StmtTerm) :
    boundNames (preparedBody o boilerplate body) = boundNames body := by
  have unbound : boundNames (injectedImport o boilerplate body) = [] := by
    refine List.flatMap_eq_nil_iff.2 fun s member => ?_
    obtain ⟨s', listed, inside⟩ := List.mem_flatMap.1 member
    rw [eq_of_mem_injectedImport listed, StmtTree.statements_eq] at inside
    rw [List.mem_singleton.1 inside]
    rfl
  rw [preparedBody_eq, boundNames_append, unbound, List.nil_append]

/-- A control reaches the calls in the values of its block: in the controlled form of a definition,
and in a lowered module under every name that lowering binds for a conditional or a controlled form.
It does not reach contexts, tests and targets, so all calls of the block have it exactly if those
there had it. -/
theorem controls_reach_values (t : SyntaxTree) :
    (∀ (c : Context) (d derived : Definition NodeId) (body : List StmtTerm) (s : LoweringState),
      t.Reads d.body body → LowerM.deriveControlled d ⟨t, c⟩ = .ok derived s →
      ∃ control body', control ∉ c.names.taken ∧ derived.params =
          d.params.insertIdx (LowerM.controlPosition c.insideMethod d.params) control ∧
        s.tree.Reads derived.body body' ∧ ControlsValues c.operations control body body' ∧
        ((∀ e ∈ body'.flatMap StmtTree.expressions, e.Guarded c.operations control) ↔
          ∀ e ∈ body.flatMap StmtTree.heads, e.Guarded c.operations control)) ∧
    ∀ (o : Options) (boilerplate verification : Bool) (input : List StmtTerm) (lowered : Lowered)
      (known : OperationTable), t.WellKinded → t.validate = .ok () → t.Reads t.body input →
      t.lower o (.build boilerplate verification) = .ok lowered →
      (∀ n, known.contains n → o.operations.contains n ∨
        n ∈ operationNames (input.flatMap StmtTree.declarations)) →
      ∃ output, lowered.tree.Reads lowered.tree.body output ∧
        GuardsAll known (boundNames input) output ∧
        ∀ s ∈ output.flatMap StmtTree.statements, ∀ name ∈ s.bound, name ∉ boundNames input →
          ((∀ e ∈ s.inner.flatMap StmtTree.expressions, e.Guarded known name) ↔
            ∀ e ∈ s.inner.flatMap StmtTree.heads, e.Guarded known name) := by
  constructor
  · intro c d derived body s read ran
    obtain ⟨control, body', fresh, params, read', controls⟩ :=
      deriveControlled_controlsValues read ran
    exact ⟨control, body', fresh, params, read', controls, controls.forall_guarded_iff⟩
  · intro o boilerplate verification input lowered known kinded valid reads ended listed
    obtain ⟨body, placed⟩ := exists_placed kinded valid
    obtain rfl := reads.unique ⟨body, placed.labels, rfl, placed.owned.held⟩
    obtain ⟨output, k, read, -, guards⟩ := (compositional_guards o known).lowerModule placed ended
    have all := (guards fun n there => contains_start (listed n there)).2
    rw [boundNames_preparedBody] at all
    refine ⟨output, read, all, fun s member name bound outside => ?_⟩
    exact forall_guarded_iff_heads (all s member name bound outside)

def callAndContext : List (StmtTree NodeId) :=
  [.expr 9 (.node 8 (.call (.node 6 (.name "X")) [.node 7 (.name "t")] [])),
    .scoped 14 (.node 12 (.call (.node 10 (.name "X")) [.node 11 (.name "t")] [])) none [.pass 13]]

def guardedConditional : StmtTree NodeId :=
  .conditional 15 (.node 5 (.call (.node 0 (.name "superposition")) [.node 4 (.compare
    (.node 2 (.list [.node 1 (.name "q")])) .equal (.node 3 (.int 1)))] [])) callAndContext []

def conditionalModule : SyntaxTree :=
  ⟨#[.expr (.name "superposition"), .expr (.name "q"), .expr (.list [1]), .expr (.int 1),
    .expr (.compare 2 .equal 3), .expr (.call 0 [4] []), .expr (.name "X"), .expr (.name "t"),
    .expr (.call 6 [7] []), .stmt (.expr 8), .expr (.name "X"), .expr (.name "t"),
    .expr (.call 10 [11] []), .stmt .pass, .stmt (.scoped 12 none [13]),
    .stmt (.conditional 5 [9, 14] [])], [15]⟩

theorem conditionalModule_placed : Placed conditionalModule [guardedConditional] := by
  refine ⟨rfl, ?_, ?_⟩
  · simp [conditionalModule, guardedConditional, callAndContext, Expr.map, Expr.children, Holds,
      StmtTree.label]
  · simp [guardedConditional, callAndContext, Expr.map, Expr.children, StmtTree.label]

/-- The call in the context stays without the control, and with it not all calls have it. -/
theorem controls_reach_values_context :
    (∃ derived s control body', LowerM.deriveControlled ⟨"f", ["t"], [9, 14], none⟩
        ⟨conditionalModule, .new .default⟩ = .ok derived s ∧ s.tree.Reads derived.body body' ∧
      ControlsValues .preamble control (callAndContext.map StmtTree.erase) body' ∧
      ¬ ∀ e ∈ body'.flatMap StmtTree.expressions, e.Guarded .preamble control) ∧
    ∃ lowered output, conditionalModule.lower .default .standard = .ok lowered ∧
      lowered.tree.Reads lowered.tree.body output ∧ GuardsAll .preamble [] output := by
  have placed := conditionalModule_placed
  have read : conditionalModule.Reads [9, 14] (callAndContext.map StmtTree.erase) := by
    refine ⟨callAndContext, rfl, rfl, ?_⟩
    simp [conditionalModule, callAndContext, Expr.map, Expr.children, Holds, StmtTree.label]
  have succeeds : LowerM.succeeds (LowerM.deriveControlled ⟨"f", ["t"], [9, 14], none⟩)
      ⟨conditionalModule, .new .default⟩ := by
    decide +kernel
  have succeeds' : (conditionalModule.lower .default .standard).toOption.any (fun _ => true) := by
    decide +kernel
  obtain ⟨derived, s, ran⟩ := LowerM.exists_of_succeeds succeeds
  obtain ⟨lowered, ended, -⟩ := exists_lowered succeeds'
  obtain ⟨derives, lowers⟩ := controls_reach_values conditionalModule
  obtain ⟨control, body', -, -, read', controls, all⟩ := derives _ _ _ _ _ read ran
  obtain ⟨output, read'', guards, -⟩ := lowers _ _ _ _ _ .preamble placed.wellKinded placed.validate
    ⟨_, placed.labels, rfl, placed.owned.held⟩ (show _ = _ from ended) fun n listed => .inl listed
  refine ⟨⟨derived, s, control, body', ran, read', controls, fun guarded => ?_⟩, lowered, output,
    ended, read'', ?_⟩
  · have known : ExprTree.isOperationCall .preamble (.call (nameTerm "X") [nameTerm "t"] []) := by
      decide +kernel
    have context : .node () (.call (nameTerm "X") [nameTerm "t"] []) ∈
        (callAndContext.map StmtTree.erase).flatMap StmtTree.heads := by
      simp [callAndContext, StmtTree.heads_scoped, Expr.map, nameTerm]
    have controlled := ((ExprTree.guarded_node.1 (all.1 guarded _ context)).1 known).1
    cases controlled
  · have none : boundNames ([guardedConditional].map StmtTree.erase) = [] := by
      simp [boundNames, guardedConditional, callAndContext, StmtTree.statements_eq, StmtTree.inner,
        StmtTree.bound]
    rwa [none] at guards

end QuantumLowering
