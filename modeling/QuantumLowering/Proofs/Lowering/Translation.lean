import QuantumLowering.Proofs.Lowering.Wiring

/-!
What every statement of a module has become, place by place. A definition with markers is followed by
its derived forms and their wirings, a quantum conditional is a control scope, and other statements are
of the kind they were, with the batch of its measurements in the body of an allocation block.
-/

namespace QuantumLowering

variable {o : Options} {p p' : Progress}

/-- What a name is handed out for. -/
inductive Purpose where
  | adjointForm
  | controlledForm
  | parameter
  | control
  | placeholder
  | proxy
deriving DecidableEq

def namesFor (purposes : List Purpose) (names : List (Purpose × String)) : List String :=
  (names.filter fun handed => handed.1 ∈ purposes).map Prod.snd

theorem mem_namesFor {purposes : List Purpose} {names : List (Purpose × String)}
    (once : (names.map Prod.snd).Nodup) {handed : Purpose × String} (member : handed ∈ names) :
    handed.2 ∈ namesFor purposes names ↔ handed.1 ∈ purposes := by
  constructor
  · intro listed
    obtain ⟨handed', listed, same⟩ := List.mem_map.1 listed
    obtain ⟨member', purpose⟩ := List.mem_filter.1 listed
    obtain rfl := List.inj_on_of_nodup_map once member' member same
    exact of_decide_eq_true purpose
  · intro purpose
    exact List.mem_map.2 ⟨handed, List.mem_filter.2 ⟨member, decide_eq_true purpose⟩, rfl⟩

theorem namesFor_subset (purposes : List Purpose) (names : List (Purpose × String)) :
    namesFor purposes names ⊆ names.map Prod.snd := by
  intro name member
  obtain ⟨handed, listed, rfl⟩ := List.mem_map.1 member
  exact List.mem_map_of_mem (List.mem_filter.1 listed).1

structure Hands (p : Progress) (names : List (Purpose × String)) (p' : Progress) : Prop where
  once : (names.map Prod.snd).Nodup
  fresh : ∀ x ∈ names.map Prod.snd, x ∉ p.names.taken
  taken : names.map Prod.snd ⊆ p'.names.taken
  grows : p.names.taken ⊆ p'.names.taken

namespace Hands

variable {p'' : Progress} {names names' : List (Purpose × String)}

theorem none (grows : p.Grows p') : Hands p [] p' := ⟨.nil, by simp, by simp, grows.names.subset⟩

theorem of_issues (issues : p.names.Issues (names.map Prod.snd) p'.names) : Hands p names p' :=
  ⟨issues.nodup, fun _ member => issues.not_mem member, fun _ member => issues.mem_taken.2 (.inl member),
    fun _ member => issues.mem_taken.2 (.inr member)⟩

theorem append (first : Hands p names p') (second : Hands p' names' p'') :
    Hands p (names ++ names') p'' := by
  refine ⟨?_, ?_, ?_, List.Subset.trans first.grows second.grows⟩
  · rw [List.map_append]
    refine first.once.append second.once fun x member member' => ?_
    exact second.fresh x member' (first.taken member)
  · intro x member
    rw [List.map_append, List.mem_append] at member
    rcases member with member | member
    · exact first.fresh x member
    · exact fun used => second.fresh x member (first.grows used)
  · rw [List.map_append, List.append_subset]
    exact ⟨List.Subset.trans first.taken second.grows, second.taken⟩

theorem before (names : p.Grows p') {handed : List (Purpose × String)}
    (hands : Hands p' handed p'') : Hands p handed p'' :=
  (Hands.none names).append hands

theorem after {handed : List (Purpose × String)} (hands : Hands p handed p')
    (grows : p'.Grows p'') : Hands p handed p'' := by
  simpa using hands.append (.none grows)

end Hands

theorem freshName_issues (base : String) :
    Yields (PlanM.freshName base) p fun name p' => p.names.Issues [name] p'.names :=
  (freshName_takes base).mono fun _ _ outcome => outcome.2

/-- The adjoint form of a definition: its parameters, and the adjoint of its body. -/
structure AdjointForm (o : Options) (d form : Definition StmtTerm) : Prop where
  params : form.params = d.params
  operation : form.operation = some .none
  body : ∃ table, adjointStmts table o d.body = .ok form.body

/-- The controlled form of a definition: one more parameter at the position, which controls its body. -/
structure ControlledForm (position : Nat) (control : String) (d form : Definition StmtTerm) : Prop where
  params : form.params = d.params.insertIdx position control
  operation : form.operation = some .none
  body : ∃ table, controlStmts table control d.body = .ok form.body

def wirings (links : List Link) : List StmtTerm :=
  links.map fun l => .wire () l.functor l.operation l.variant

/-- The statements behind a definition, and the names they come with. Every derived form is followed by
its wirings. -/
inductive Expansion (o : Options) (position : Nat) (d : Definition StmtTerm) :
    List StmtTerm → List (Purpose × String) → Prop where
  | plain (unmarked : d.markers = ⟨false, false⟩) : Expansion o position d [] []
  | adjoint {form : Definition StmtTerm} (marked : d.markers = ⟨true, false⟩)
    (derived : AdjointForm o d form) :
    Expansion o position d (.define () form :: wirings (adjointLinks d.name form.name))
      [(.adjointForm, form.name)]
  | controlled {form : Definition StmtTerm} {control : String} (marked : d.markers = ⟨false, true⟩)
    (derived : ControlledForm position control d form) :
    Expansion o position d (.define () form :: wirings (controlledLinks d.name form.name))
      [(.parameter, control), (.controlledForm, form.name)]
  | both {adjoint controlled form : Definition StmtTerm} {control : String}
    (marked : d.markers = ⟨true, true⟩) (derived : AdjointForm o d adjoint)
    (derived' : ControlledForm position control d controlled)
    (derived'' : AdjointForm o controlled form) :
    Expansion o position d
      ((.define () adjoint :: wirings (adjointLinks d.name adjoint.name)) ++
        (.define () controlled :: wirings (controlledLinks d.name controlled.name)) ++
          .define () form :: wirings (adjointLinks controlled.name form.name ++
            controlledLinks adjoint.name form.name))
      [(.adjointForm, adjoint.name), (.parameter, control), (.controlledForm, controlled.name),
        (.adjointForm, form.name)]

theorem deriveAdjoint_form (d : Definition StmtTerm) :
    Yields (PlanM.deriveAdjoint o d) p fun form p' =>
      AdjointForm o d form ∧ p.names.Issues [form.name] p'.names := by
  unfold PlanM.deriveAdjoint
  rw [Yields.get_bind]
  refine .lift_bind fun rs ended => (freshName_issues _).bind fun name p₁ issues => ?_
  rw [PlanM.modifyStats, Yields.modify_bind]
  exact .pure ⟨⟨rfl, rfl, _, ended⟩, issues⟩

theorem deriveControlled_form (d : Definition StmtTerm) :
    Yields (PlanM.deriveControlled o d) p fun form p' => ∃ control,
      ControlledForm (LowerM.controlPosition p.insideMethod d.params) control d form ∧
        p.names.Issues [control, form.name] p'.names := by
  unfold PlanM.deriveControlled
  refine ((freshName_issues _).and (keepsMethod.freshName _ p)).bind ?_
  rintro control p₁ ⟨issues, method⟩
  rw [Yields.get_bind]
  refine .lift_bind fun rs ended => ?_
  rw [Yields.get_bind]
  refine (freshName_issues _).bind fun name p₂ issues' => ?_
  rw [PlanM.modifyStats, Yields.modify_bind, method]
  exact .pure ⟨control, ⟨rfl, rfl, _, ended⟩, issues.append issues'⟩

theorem link_wiring (f : GateFunctor) (operation variant : String) :
    Yields (PlanM.link f operation variant) p fun s p' =>
      s = .wire () f operation variant ∧ p'.names = p.names := by
  intro s p' ended
  cases ended
  exact ⟨rfl, rfl⟩

theorem emitAdjoint_form (d : Definition StmtTerm) :
    Yields (PlanM.emitAdjoint o d) p fun emitted p' => ∃ form, AdjointForm o d form ∧
      emitted = (.define () form :: wirings (adjointLinks d.name form.name), form.name) ∧
        p.names.Issues [form.name] p'.names := by
  unfold PlanM.emitAdjoint
  refine (deriveAdjoint_form d).bind ?_
  rintro form p₁ ⟨derived, issues⟩
  refine (link_wiring _ _ _).bind ?_
  rintro there p₂ ⟨rfl, kept₂⟩
  refine (link_wiring _ _ _).bind ?_
  rintro back p₃ ⟨rfl, kept₃⟩
  rw [← kept₂, ← kept₃] at issues
  exact .pure ⟨form, derived, rfl, issues⟩

theorem emitControlled_form (d : Definition StmtTerm) :
    Yields (PlanM.emitControlled o d none) p fun emitted p' => ∃ form control,
      ControlledForm (LowerM.controlPosition p.insideMethod d.params) control d form ∧
        emitted = .define () form :: wirings (controlledLinks d.name form.name) ∧
          p.names.Issues [control, form.name] p'.names := by
  unfold PlanM.emitControlled
  refine (deriveControlled_form d).bind ?_
  rintro form p₁ ⟨control, derived, issues⟩
  refine (link_wiring _ _ _).bind ?_
  rintro there p₂ ⟨rfl, kept₂⟩
  refine (link_wiring _ _ _).bind ?_
  rintro self p₃ ⟨rfl, kept₃⟩
  rw [← kept₂, ← kept₃] at issues
  exact .pure ⟨form, control, derived, rfl, issues⟩

theorem emitControlled_forms (d : Definition StmtTerm) (adjoint : String) :
    Yields (PlanM.emitControlled o d (some adjoint)) p fun emitted p' => ∃ controlled form control,
      ControlledForm (LowerM.controlPosition p.insideMethod d.params) control d controlled ∧
        AdjointForm o controlled form ∧
          emitted = (.define () controlled :: wirings (controlledLinks d.name controlled.name)) ++
            .define () form :: wirings (adjointLinks controlled.name form.name ++
              controlledLinks adjoint form.name) ∧
            p.names.Issues [control, controlled.name, form.name] p'.names := by
  unfold PlanM.emitControlled
  refine (deriveControlled_form d).bind ?_
  rintro controlled p₁ ⟨control, derived, issues⟩
  refine (deriveAdjoint_form controlled).bind ?_
  rintro form p₂ ⟨derived', issues'⟩
  refine (link_wiring _ _ _).bind ?_
  rintro there p₃ ⟨rfl, kept₃⟩
  refine (link_wiring _ _ _).bind ?_
  rintro self p₄ ⟨rfl, kept₄⟩
  refine (link_wiring _ _ _).bind ?_
  rintro down p₅ ⟨rfl, kept₅⟩
  refine (link_wiring _ _ _).bind ?_
  rintro up p₆ ⟨rfl, kept₆⟩
  refine (link_wiring _ _ _).bind ?_
  rintro across p₇ ⟨rfl, kept₇⟩
  refine (link_wiring _ _ _).bind ?_
  rintro stay p₈ ⟨rfl, kept₈⟩
  have both := issues.append issues'
  rw [← kept₃, ← kept₄, ← kept₅, ← kept₆, ← kept₇, ← kept₈] at both
  exact .pure ⟨controlled, form, control, derived, derived', rfl, both⟩

theorem emitVariants_expands (d : Definition StmtTerm) :
    Yields (PlanM.emitVariants o d) p fun variants p' => ∃ names,
      Expansion o (LowerM.controlPosition p.insideMethod d.params) d variants names ∧
        p.names.Issues (names.map Prod.snd) p'.names := by
  obtain ⟨⟨adjoint, controlled⟩, marked⟩ : ∃ m, d.markers = m := ⟨_, rfl⟩
  unfold PlanM.emitVariants PlanM.requestedAdjoints PlanM.requestedControlled
  rw [marked]
  cases adjoint with
  | false =>
    cases controlled with
    | false => exact .pure ⟨[], .plain marked, .done _⟩
    | true =>
      simp only [Bool.false_eq_true, ↓reduceIte, pure_bind, List.nil_append, bind_pure]
      refine (emitControlled_form d).mono ?_
      rintro _ p₁ ⟨form, control, derived, rfl, issues⟩
      exact ⟨_, .controlled marked derived, issues⟩
  | true =>
    simp only [↓reduceIte, bind_assoc, pure_bind]
    refine ((emitAdjoint_form d).and (keepsMethod.emitAdjoint o d p)).bind ?_
    rintro _ p₁ ⟨⟨adjoint, derived, rfl, issues⟩, method⟩
    cases controlled with
    | false =>
      simp only [Bool.false_eq_true, ↓reduceIte, pure_bind, List.append_nil]
      exact .pure ⟨_, .adjoint marked derived, issues⟩
    | true =>
      simp only [↓reduceIte]
      refine (emitControlled_forms d adjoint.name).bind ?_
      rintro _ p₂ ⟨controlled, form, control, derived', derived'', rfl, issues'⟩
      rw [method] at derived'
      have expansion := Expansion.both marked derived derived' derived''
      rw [List.append_assoc] at expansion
      exact .pure ⟨_, expansion, issues.append issues'⟩

def equalityTest (o : Options) (left right : ExprTerm) : ExprTerm :=
  .node () (.call (nameTerm o.conditionFn) [.node () (.compare left .equal right)] [])

/-- The lines that a comparison tests, and the value it tests them for: an integer on the left, and
otherwise the right side. -/
def testedOperands (left right : ExprTerm) : ExprTerm × ExprTerm :=
  match left.layer with
  | .int _ => (right, left)
  | _ => (left, right)

def controlScope (o : Options) (left right : ExprTerm) (control : String) (body : List StmtTerm) :
    StmtTerm :=
  .scoped () (PlanM.scopeCall o (testedOperands left right).1 (testedOperands left right).2)
    (some (nameTerm control)) body

theorem comparisonOperands_ok {test : ExprTerm} {operands : ExprTerm × ExprTerm}
    (marked : test.isCallTo o.conditionFn) (read : PlanM.comparisonOperands o test = .ok operands) :
    ∃ left right, test = equalityTest o left right ∧ operands = testedOperands left right := by
  obtain ⟨⟨⟩, layer⟩ := test
  unfold PlanM.comparisonOperands at read
  split at read
  · rename_i func argument called
    obtain rfl : layer = .call func [argument] [] := called
    obtain ⟨⟨⟩, func⟩ := func
    obtain rfl := Expr.eq_name ((ExprTree.isCallTo_call _ _ _ _).1 marked)
    split at read
    · rename_i left right compared
      obtain ⟨⟨⟩, argument⟩ := argument
      obtain rfl : argument = .compare left .equal right := compared
      refine ⟨left, right, rfl, ?_⟩
      unfold testedOperands
      split at read <;> cases read <;> simp_all
    · cases read
    · cases read
  · cases read

theorem lowerConditional_scope {test : ExprTerm} {body orelse : List StmtTerm}
    (marked : test.isCallTo o.conditionFn) : Yields (PlanM.lowerConditional o test body orelse) p
      fun s p' => orelse = [] ∧ ∃ left right control table rs, test = equalityTest o left right ∧
        controlStmts table control body = .ok rs ∧ s = controlScope o left right control rs ∧
          p.names.Issues [control] p'.names := by
  unfold PlanM.lowerConditional
  split
  · rename_i empty
    refine .lift_bind fun operands read => (freshName_issues _).bind fun control p₁ issues => ?_
    rw [Yields.get_bind]
    refine .lift_bind fun rs ended => ?_
    rw [PlanM.modifyStats, Yields.modify_bind]
    obtain ⟨left, right, shape, rfl⟩ := comparisonOperands_ok marked read
    exact .pure ⟨List.isEmpty_iff.1 empty, left, right, control, _, rs, shape, ended, rfl, issues⟩
  · exact .throw

/-- A block and what it has become, directly in a class or not, and the names that were handed out for
its derived forms and controls. The values of expression statements and assignments, the contexts of
scopes and the tests of classical conditionals may have others in their place. -/
inductive Translated (o : Options) :
    Bool → List StmtTerm → List StmtTerm → List (Purpose × String) → Prop where
  | nil (method : Bool) : Translated o method [] [] []
  | append {method : Bool} {body body' rs rs' : List StmtTerm} {names names' : List (Purpose × String)}
    (first : Translated o method body rs names) (second : Translated o method body' rs' names') :
    Translated o method (body ++ body') (rs ++ rs') (names ++ names')
  | leaf (method : Bool) {s r : StmtTerm} (leaf : Leaf s r) : Translated o method [s] [r] []
  | define {method : Bool} {d : Definition StmtTerm} {rs variants : List StmtTerm}
    {names names' : List (Purpose × String)} (within : Translated o false d.body rs names)
    (expansion : Expansion o (LowerM.controlPosition method d.params) { d with body := rs } variants
      names') :
    Translated o method [.define () d] (.define () { d with body := rs } :: variants) (names ++ names')
  | classDef (method : Bool) (name : String) {body rs : List StmtTerm}
    {names : List (Purpose × String)} (within : Translated o true body rs names) :
    Translated o method [.classDef () name body] [.classDef () name rs] names
  | scope {method : Bool} (context context' : ExprTerm) (binding : Option ExprTerm)
    {body front batch back : List StmtTerm} {names : List (Purpose × String)}
    (within : Translated o method body (front ++ back) names)
    (added : ∀ s ∈ batch, context.isCallTo o.allocateFn ∧ ∃ target value, s = .assign () target value) :
    Translated o method [.scoped () context binding body]
      [.scoped () context' binding (front ++ batch ++ back)] names
  | classical {method : Bool} {test : ExprTerm} (test' : ExprTerm) {body orelse rs rs' : List StmtTerm}
    {names names' : List (Purpose × String)} (plain : ¬ test.isCallTo o.conditionFn)
    (first : Translated o method body rs names) (second : Translated o method orelse rs' names') :
    Translated o method [.conditional () test body orelse] [.conditional () test' rs rs']
      (names ++ names')
  | quantum {method : Bool} (left right : ExprTerm) (control : String) {body rs : List StmtTerm}
    {names : List (Purpose × String)} (within : Translated o method body rs names) :
    Translated o method [.conditional () (equalityTest o left right) body []]
      [controlScope o left right control rs] (names ++ [(.control, control)])

section Control

variable {table : OperationTable} {control : String}

theorem controlStmts_cons_ok {s : StmtTerm} {body rs : List StmtTerm}
    (ended : controlStmts table control (s :: body) = .ok rs) : ∃ r rs',
      controlStmt table control s = .ok r ∧ controlStmts table control body = .ok rs' ∧
        rs = r :: rs' := by
  rw [controlStmts, List.mapM_cons] at ended
  obtain ⟨r, here, ended⟩ := Plan.bind_eq_ok.1 ended
  obtain ⟨rs', rest, ended⟩ := Plan.bind_eq_ok.1 ended
  cases ended
  exact ⟨r, rs', here, rest, rfl⟩

theorem controlStmts_singleton_ok {s : StmtTerm} {rs : List StmtTerm}
    (ended : controlStmts table control [s] = .ok rs) :
    ∃ r, controlStmt table control s = .ok r ∧ rs = [r] := by
  obtain ⟨r, rs', here, none, rfl⟩ := controlStmts_cons_ok ended
  cases none
  exact ⟨r, here, rfl⟩

theorem controlStmts_append_ok {body body' rs : List StmtTerm} :
    controlStmts table control (body ++ body') = .ok rs ↔ ∃ rs₁ rs₂,
      controlStmts table control body = .ok rs₁ ∧ controlStmts table control body' = .ok rs₂ ∧
        rs = rs₁ ++ rs₂ := by
  rw [controlStmts, List.mapM_append]
  constructor
  · intro ended
    obtain ⟨rs₁, first, ended⟩ := Plan.bind_eq_ok.1 ended
    obtain ⟨rs₂, second, ended⟩ := Plan.bind_eq_ok.1 ended
    cases ended
    exact ⟨rs₁, rs₂, first, second, rfl⟩
  · rintro ⟨rs₁, rs₂, first, second, rfl⟩
    exact Plan.bind_eq_ok.2 ⟨rs₁, first, Plan.bind_eq_ok.2 ⟨rs₂, second, rfl⟩⟩

theorem controlStmts_sealed {body rs : List StmtTerm} (closed : ∀ s ∈ body, s.sealed)
    (ended : controlStmts table control body = .ok rs) : rs = body := by
  induction body generalizing rs with
  | nil =>
    cases ended
    rfl
  | cons s body ih =>
    obtain ⟨r, rs', here, rest, rfl⟩ := controlStmts_cons_ok ended
    rw [controlStmt, CallRule.rewriteStmt_sealed (closed s (by simp))] at here
    cases here
    rw [ih (fun s inside => closed s (by simp [inside])) rest]

theorem sealed_wirings {links : List Link} : ∀ s ∈ wirings links, s.sealed := by
  intro s member
  obtain ⟨l, -, rfl⟩ := List.mem_map.1 member
  rfl

theorem Expansion.sealed {position : Nat} {d : Definition StmtTerm} {variants : List StmtTerm}
    {names : List (Purpose × String)} (expansion : Expansion o position d variants names) :
    ∀ s ∈ variants, s.sealed := by
  intro s member
  have form : ∀ (form : Definition StmtTerm) links, s ∈ StmtTree.define () form :: wirings links →
      s.sealed := by
    intro form links inside
    rcases List.mem_cons.1 inside with rfl | inside
    · rfl
    · exact sealed_wirings s inside
  cases expansion with
  | plain => cases member
  | adjoint | controlled => exact form _ _ member
  | both =>
    rw [List.mem_append, List.mem_append] at member
    rcases member with (member | member) | member
    · exact form _ _ member
    · exact form _ _ member
    · exact form _ _ member

theorem controlStmts_assigns {P : Prop} {body rs : List StmtTerm}
    (assigns : ∀ s ∈ body, P ∧ ∃ target value, s = .assign () target value)
    (ended : controlStmts table control body = .ok rs) :
    ∀ r ∈ rs, P ∧ ∃ target value, r = .assign () target value := by
  intro r member
  obtain ⟨s, inside, ran⟩ := Plan.exists_of_mem ended member
  obtain ⟨holds, target, value, rfl⟩ := assigns s inside
  obtain ⟨value', -, rfl⟩ := CallRule.rewriteStmt_assign_ok ran
  exact ⟨holds, target, value', rfl⟩

/-- Under a control, everything has become what it would have become, apart from values. -/
theorem Translated.controlled {method : Bool} {body rs rs' : List StmtTerm}
    {names : List (Purpose × String)} (translated : Translated o method body rs names)
    (ended : controlStmts table control rs = .ok rs') : Translated o method body rs' names := by
  induction translated generalizing rs' with
  | nil method =>
    cases ended
    exact .nil method
  | append _ _ ih ih' =>
    obtain ⟨rs₁, rs₂, first, second, rfl⟩ := controlStmts_append_ok.1 ended
    exact (ih first).append (ih' second)
  | leaf method leaf =>
    obtain ⟨r, here, rfl⟩ := controlStmts_singleton_ok ended
    refine .leaf method ?_
    cases leaf with
    | importAs module name =>
      cases (CallRule.rewriteStmt_sealed rfl).symm.trans here
      exact .importAs module name
    | wire f operation variant =>
      cases (CallRule.rewriteStmt_sealed rfl).symm.trans here
      exact .wire f operation variant
    | pass =>
      cases (CallRule.rewriteStmt_sealed rfl).symm.trans here
      exact .pass
    | expr value value' =>
      obtain ⟨value'', -, rfl⟩ := CallRule.rewriteStmt_expr_ok here
      exact .expr value value''
    | assign target value value' =>
      obtain ⟨value'', -, rfl⟩ := CallRule.rewriteStmt_assign_ok here
      exact .assign target value value''
  | define within expansion ih =>
    obtain ⟨r, variants, here, rest, rfl⟩ := controlStmts_cons_ok ended
    cases (CallRule.rewriteStmt_sealed rfl).symm.trans here
    obtain rfl := controlStmts_sealed expansion.sealed rest
    exact .define within expansion
  | classDef method name within _ =>
    obtain ⟨r, here, rfl⟩ := controlStmts_singleton_ok ended
    cases (CallRule.rewriteStmt_sealed rfl).symm.trans here
    exact .classDef method name within
  | «scope» context context' binding within added ih =>
    obtain ⟨r, here, rfl⟩ := controlStmts_singleton_ok ended
    obtain ⟨rs, ran, rfl⟩ := CallRule.rewriteStmt_scoped_ok here
    obtain ⟨outer, rs₃, both, third, rfl⟩ := controlStmts_append_ok.1 ran
    obtain ⟨rs₁, rs₂, first, second, rfl⟩ := controlStmts_append_ok.1 both
    have joined := controlStmts_append_ok.2 ⟨rs₁, rs₃, first, third, rfl⟩
    exact .scope context context' binding (ih joined) (controlStmts_assigns added second)
  | classical test' plain _ _ ih ih' =>
    obtain ⟨r, here, rfl⟩ := controlStmts_singleton_ok ended
    obtain ⟨rs₁, rs₂, first, second, rfl⟩ := CallRule.rewriteStmt_conditional_ok here
    exact .classical test' plain (ih first) (ih' second)
  | quantum left right bound _ ih =>
    obtain ⟨r, here, rfl⟩ := controlStmts_singleton_ok ended
    obtain ⟨rs, ran, rfl⟩ := CallRule.rewriteStmt_scoped_ok here
    exact .quantum left right bound (ih ran)

end Control

namespace Translated

variable {method : Bool} {body rs : List StmtTerm} {names : List (Purpose × String)}

theorem body_eq_nil (translated : Translated o method body rs names) (none : rs = []) : body = [] := by
  induction translated with
  | nil => rfl
  | append _ _ ih ih' =>
    rw [List.append_eq_nil_iff] at none
    rw [ih none.1, ih' none.2, List.append_nil]
  | _ => cases none

end Translated

theorem Lowers.translated {body rs : List StmtTerm} (lowers : Lowers o p body rs p') :
    ∃ names, Translated o p.insideMethod body rs names ∧ Hands p names p' := by
  have search : ∀ {e r : ExprTerm} {p p' : Progress}, PlanM.hoist o e p = .ok (r, p') →
      p.Grows p' ∧ p'.insideMethod = p.insideMethod := fun ran =>
    ⟨Growing.batches.hoist o _ _ _ _ ran, keepsMethod_batches.hoist o _ _ _ _ ran⟩
  induction lowers with
  | nil p => exact ⟨[], .nil _, .none (.refl p)⟩
  | append first _ ih ih' =>
    obtain ⟨names, translated, hands⟩ := ih
    obtain ⟨names', translated', hands'⟩ := ih'
    rw [first.insideMethod_eq] at translated'
    exact ⟨names ++ names', translated.append translated', hands.append hands'⟩
  | standing index _ ih =>
    obtain ⟨names, translated, hands⟩ := ih
    exact ⟨names, translated, hands.once, hands.fresh, hands.taken, hands.grows⟩
  | importAs p module name => exact ⟨[], .leaf _ (.importAs module name), .none (.refl p)⟩
  | wire p f operation variant => exact ⟨[], .leaf _ (.wire f operation variant), .none (.refl p)⟩
  | pass p => exact ⟨[], .leaf _ .pass, .none (.refl p)⟩
  | expr searched => exact ⟨[], .leaf _ (.expr _ _), .none (search searched).1⟩
  | assign target searched => exact ⟨[], .leaf _ (.assign target _ _), .none (search searched).1⟩
  | @define p q p' d rs variants within emits ih =>
    obtain ⟨names, translated, hands⟩ := ih
    obtain ⟨names', expansion, issues⟩ := emitVariants_expands _ _ _ emits
    have inner : Hands p names { q with batch := p.batch, insideMethod := p.insideMethod } :=
      ⟨hands.once, hands.fresh, hands.taken, hands.grows⟩
    exact ⟨names ++ names', .define translated expansion, inner.append (.of_issues issues)⟩
  | classDef name within ih =>
    obtain ⟨names, translated, hands⟩ := ih
    exact ⟨names, .classDef _ name translated, hands.once, hands.fresh, hands.taken, hands.grows⟩
  | @allocation p p₁ p₂ p' context r binding body rs stmts allocates searched within emits ih =>
    obtain ⟨grows, method⟩ := search searched
    obtain ⟨names, translated, hands⟩ := ih
    have inner : Hands p₁ names { p₂ with batch := p₁.batch } :=
      ⟨hands.once, hands.fresh, hands.taken, hands.grows⟩
    have grows' := Growing.links.emitBatch o _ _ _ _ _ emits
    obtain ⟨front, batch, back, rfl, rfl, assigns⟩ := emitBatch_inserts _ _ _ _ emits
    have inside : ({ p₁ with batch := some ⟨0, []⟩ } : Progress).insideMethod = p.insideMethod := method
    rw [inside] at translated
    exact ⟨names, .scope context r binding translated fun s member => ⟨allocates, assigns s member⟩,
      (inner.before grows).after grows'⟩
  | @«scope» p p₁ p' context r binding body rs plain searched within ih =>
    obtain ⟨grows, method⟩ := search searched
    obtain ⟨names, translated, hands⟩ := ih
    rw [method] at translated
    have whole : Translated o p.insideMethod body ([] ++ rs) names := translated
    have scope := Translated.scope context r binding whole (fun _ none => absurd none List.not_mem_nil)
    exact ⟨names, scope, hands.before grows⟩
  | classical plain searched first _ ih ih' =>
    obtain ⟨grows, method⟩ := search searched
    obtain ⟨names, translated, hands⟩ := ih
    obtain ⟨names', translated', hands'⟩ := ih'
    rw [first.insideMethod_eq, method] at translated'
    rw [method] at translated
    exact ⟨names ++ names', .classical _ plain translated translated',
      (hands.append hands').before grows⟩
  | quantum marked first second emits ih ih' =>
    obtain ⟨names, translated, hands⟩ := ih
    obtain ⟨names', translated', hands'⟩ := ih'
    obtain ⟨none, left, right, control, table, rs, rfl, ended, rfl, issues⟩ :=
      lowerConditional_scope marked _ _ emits
    obtain rfl := translated'.body_eq_nil none
    have handed : Hands _ [(.control, control)] _ := .of_issues issues
    exact ⟨names ++ [(.control, control)], .quantum left right control (translated.controlled ended),
      hands.append (handed.before second.grows)⟩

theorem StmtTree.definedNames_subset_identifiers {α : Type} (s : StmtTree α) :
    definedNames s.declarations ⊆ s.identifiers := by
  induction s using StmtTree.induct with
  | step s ih =>
    intro name member
    rw [StmtTree.declarations_eq, definedNames, List.filterMap_append, List.mem_append] at member
    rcases member with here | inside
    · rw [StmtTree.identifiers_eq]
      refine List.mem_append_left _ (List.mem_append_left _ ?_)
      cases s with
      | define label d =>
        simp [StmtTree.declaration?, Declaration.definition?] at here
        simp [StmtTree.binders, here]
      | _ => simp [StmtTree.declaration?, Declaration.definition?] at here
    · rw [List.filterMap_flatMap] at inside
      obtain ⟨part, member, inside⟩ := List.mem_flatMap.1 inside
      exact StmtTree.identifiers_inner member (ih part member inside)

theorem not_mem_namesFor {input : List StmtTerm} {names : List (Purpose × String)}
    (fresh : ∀ x ∈ names.map Prod.snd, x ∉ input.flatMap StmtTree.identifiers)
    {purposes : List Purpose} :
    ∀ x ∈ definedNames (input.flatMap StmtTree.declarations), x ∉ namesFor purposes names := by
  intro x defined handed
  refine fresh x (namesFor_subset _ _ handed) ?_
  rw [definedNames, List.filterMap_flatMap] at defined
  obtain ⟨s, inside, defined⟩ := List.mem_flatMap.1 defined
  exact List.mem_flatMap.2 ⟨s, inside, s.definedNames_subset_identifiers defined⟩

theorem lower_translated {t : SyntaxTree} {input : List StmtTerm} {lowered : Lowered}
    (kinded : t.WellKinded) (valid : t.validate = .ok ()) (reads : t.Reads t.body input)
    {boilerplate verification : Bool}
    (ended : t.lower o (.build boilerplate verification) = .ok lowered) :
    ∃ rest names, lowered.tree.Reads lowered.tree.body (injectedImport o boilerplate input ++ rest) ∧
      Translated o false input rest names ∧ (names.map Prod.snd).Nodup ∧
      ∀ x ∈ names.map Prod.snd, x ∉ input.flatMap StmtTree.identifiers := by
  obtain ⟨body, rest, p, placed, rfl, lowers, read, -, -⟩ := exists_lowers kinded valid reads ended
  obtain ⟨names, translated, hands⟩ := lowers.translated
  have outside : (Progress.start o body).insideMethod = false := by rw [Progress.start_eq]
  rw [outside] at translated
  exact ⟨rest, names, read, translated, hands.once, fun x member used =>
    hands.fresh x member (identifiers_subset_start o body used)⟩

end QuantumLowering
