import QuantumLowering.Syntax.Listing
import QuantumLowering.Proofs.Lowering.Guards
import QuantumLowering.Proofs.Lowering.Hygiene
import QuantumLowering.Proofs.Lowering.Translation

namespace QuantumLowering

variable {o : Options} {p p' : Progress}

/-- The run takes the name, and the module does not use it. -/
def SyntaxTree.Generates (t : SyntaxTree) (o : Options) (boilerplate verification : Bool) (x : String) :
    Prop :=
  x ∈ (LowerM.final (Pipeline.build boilerplate verification).run ⟨t, .new o⟩).context.names.taken ∧
    ¬ t.Uses x

theorem hoist_name (e : ExprTerm) : Yields (PlanM.hoist o e) p fun r p' =>
    ∀ x, r.layer.name? = some x → e.layer.name? = some x ∨ x ∉ p.names.taken ∧ x ∈ p'.names.taken := by
  obtain ⟨⟨⟩, layer⟩ := e
  rw [PlanM.hoist_node, Yields.get_bind]
  cases open_ : p.batch with
  | none => exact .pure fun x named => .inl named
  | some b =>
    dsimp only
    split
    · refine (record_takes open_ _ _).bind fun placeholder p₁ ⟨takes, _⟩ => .pure fun x named => .inr ?_
      obtain rfl : placeholder = x := by simpa [nameTerm, ExprTree.layer, Expr.name?] using named
      exact ⟨takes.fresh _ List.mem_cons_self, takes.reserved _ List.mem_cons_self⟩
    · refine Yields.any.bind fun parts p₁ _ => .pure fun x named => .inl ?_
      rwa [ExprTree.layer, Expr.name?_refill] at named

/-- An expression calls a function after the search only if it did before, unless a placeholder has the
name of the function. -/
theorem hoist_isCallTo {name : String} (e : ExprTerm) : Yields (PlanM.hoist o e) p fun r p' =>
    (name ∈ p'.names.taken → name ∈ p.names.taken) → r.isCallTo name → e.isCallTo name := by
  obtain ⟨⟨⟩, layer⟩ := e
  rw [PlanM.hoist_node, Yields.get_bind]
  cases open_ : p.batch with
  | none => exact .pure fun _ calls => calls
  | some b =>
    dsimp only
    split
    · exact Yields.any.bind fun placeholder p₁ _ => .pure fun _ calls => by cases calls
    · cases layer with
      | call func args keywords =>
        rw [Expr.children, List.mapM_cons, bind_assoc]
        refine (hoist_name func).bind fun func' p₁ named => ?_
        have rest : Keeps Progress.Grows ((args ++ keywords.map Keyword.value).mapM (PlanM.hoist o)) :=
          Growing.batches.mapM fun part _ => Growing.batches.hoist o part
        rw [bind_assoc]
        refine (rest p₁).bind fun parts p₂ grows => .pure fun known calls => ?_
        rw [ExprTree.isCallTo_call]
        rcases named name ((ExprTree.isCallTo_call _ _ _ _).1 calls) with same | ⟨new, taken⟩
        · exact same
        · exact absurd (known (grows.names.subset taken)) new
      | _ => exact Yields.any.bind fun parts p₁ _ => .pure fun _ calls => by cases calls

def StmtTree.isQuantum {α : Type} (o : Options) : StmtTree α → Bool
  | .conditional _ test _ _ => test.isCallTo o.conditionFn
  | _ => false

/-- No statement of the block is a quantum conditional, at any depth. -/
def IsClassical (o : Options) (block : List StmtTerm) : Prop :=
  ∀ s ∈ block.flatMap StmtTree.statements, ¬ s.isQuantum o

section Blocks

variable {block block' rs : List StmtTerm}

theorem isClassical_nil : IsClassical o [] := by simp [IsClassical]

theorem isClassical_append :
    IsClassical o (block ++ block') ↔ IsClassical o block ∧ IsClassical o block' := by
  unfold IsClassical
  rw [List.flatMap_append, List.forall_mem_append]

theorem isClassical_cons {s : StmtTerm} :
    IsClassical o (s :: block) ↔
      (¬ s.isQuantum o ∧ IsClassical o s.inner) ∧ IsClassical o block := by
  unfold IsClassical
  rw [List.flatMap_cons, s.statements_eq, List.cons_append, List.forall_mem_cons,
    List.forall_mem_append, and_assoc]

theorem isClassical_singleton {s : StmtTerm} :
    IsClassical o [s] ↔ ¬ s.isQuantum o ∧ IsClassical o s.inner := by
  rw [isClassical_cons, and_iff_left isClassical_nil]

theorem isClassical_of_leaves (leaves : ∀ s ∈ block, ¬ s.isQuantum o ∧ s.inner = []) :
    IsClassical o block := by
  intro s member
  obtain ⟨s', listed, inside⟩ := List.mem_flatMap.1 member
  obtain ⟨other, none⟩ := leaves s' listed
  rw [s'.statements_eq, none, List.flatMap_nil, List.mem_singleton] at inside
  rwa [inside]

theorem IsClassical.rewritten {rule : CallRule} {reversed : ExprTerm → Bool}
    (classical : IsClassical o block) (ended : block.mapM (rule.rewriteStmt reversed) = .ok rs) :
    IsClassical o rs := by
  obtain ⟨inside, order, kept⟩ := CallRule.keepsInside_mapM ended fun s _ r ran =>
    CallRule.keepsInside_rewriteStmt ran
  intro r member marked
  obtain ⟨s, original, keeps⟩ := exists_mem_of_forall₂ kept.flip (order.mem_iff.2 member)
  refine classical s original ?_
  rcases keeps with rfl | ran
  · exact marked
  · cases CallRule.rewritten ran with
    | conditional => exact marked
    | kept => exact marked
    | _ => cases marked

theorem IsClassical.controlled {table : OperationTable} {control : String}
    (classical : IsClassical o block) (ended : controlStmts table control block = .ok rs) :
    IsClassical o rs :=
  classical.rewritten ended

theorem IsClassical.reversed (classical : IsClassical o block) : IsClassical o block.reverse := by
  intro s member
  exact classical s ((block.reverse_perm.flatMap_right _).mem_iff.1 member)

theorem isClassical_wirings (links : List Link) : IsClassical o (wirings links) := by
  refine isClassical_of_leaves fun s member => ?_
  obtain ⟨l, -, rfl⟩ := List.mem_map.1 member
  exact ⟨Bool.false_ne_true, rfl⟩

theorem AdjointForm.isClassical {d form : Definition StmtTerm} (derived : AdjointForm o d form)
    (within : IsClassical o d.body) : IsClassical o form.body := by
  obtain ⟨table, ended⟩ := derived.body
  obtain ⟨copies, ran, same⟩ := Plan.bind_eq_ok.1 ended
  rw [← Except.ok.inj same]
  exact (within.rewritten ran).reversed

theorem Expansion.isClassical {position : Nat} {d : Definition StmtTerm} {variants : List StmtTerm}
    {names : List (Purpose × String)} (expansion : Expansion o position d variants names)
    (within : IsClassical o d.body) : IsClassical o variants := by
  have form : ∀ {form : Definition StmtTerm} links, IsClassical o form.body →
      IsClassical o (.define () form :: wirings links) := fun links inside =>
    isClassical_cons.2 ⟨⟨Bool.false_ne_true, inside⟩, isClassical_wirings links⟩
  cases expansion with
  | plain => exact isClassical_nil
  | adjoint marked derived => exact form _ (derived.isClassical within)
  | controlled marked derived =>
    obtain ⟨table, ended⟩ := derived.body
    exact form _ (within.controlled ended)
  | both marked derived derived' derived'' =>
    obtain ⟨table, ended⟩ := derived'.body
    have controlled := within.controlled ended
    rw [isClassical_append, isClassical_append]
    exact ⟨⟨form _ (derived.isClassical within), form _ controlled⟩,
      form _ (derived''.isClassical controlled)⟩

end Blocks

theorem Lowers.isClassical {body rs : List StmtTerm} (lowers : Lowers o p body rs p')
    (known : o.conditionFn ∈ p'.names.taken → o.conditionFn ∈ p.names.taken) : IsClassical o rs := by
  have leaf : ∀ s : StmtTerm, ¬ s.isQuantum o → s.inner = [] → IsClassical o [s] :=
    fun s other none => isClassical_singleton.2 ⟨other, none ▸ isClassical_nil⟩
  have searchGrows : ∀ {e r : ExprTerm} {p p' : Progress}, PlanM.hoist o e p = .ok (r, p') →
      p.names.taken ⊆ p'.names.taken :=
    fun ran => (Growing.batches.hoist o _ _ _ _ ran).names.subset
  induction lowers with
  | nil => exact isClassical_nil
  | append first second ih ih' =>
    have before := ih fun used => known (second.grows.names.subset used)
    have after := ih' fun used => first.grows.names.subset (known used)
    exact isClassical_append.2 ⟨before, after⟩
  | standing index _ ih => exact ih known
  | importAs | wire | pass | expr | assign => exact leaf _ Bool.false_ne_true rfl
  | define within emits ih =>
    have grows := (Growing.links.emitVariants o _ _ _ _ emits).names.subset
    have inner := ih fun used => known (grows used)
    obtain ⟨names, expansion, -⟩ := emitVariants_expands _ _ _ emits
    exact isClassical_cons.2 ⟨⟨Bool.false_ne_true, inner⟩, expansion.isClassical inner⟩
  | classDef name within ih => exact isClassical_singleton.2 ⟨Bool.false_ne_true, ih known⟩
  | allocation binding allocates searched within emits ih =>
    have grows := (Growing.links.emitBatch o _ _ _ _ _ emits).names.subset
    have inner := ih fun used => searchGrows searched (known (grows used))
    obtain ⟨front, batch, back, rfl, rfl, assigns⟩ := emitBatch_inserts _ _ _ _ emits
    refine isClassical_singleton.2 ⟨Bool.false_ne_true, ?_⟩
    rw [isClassical_append] at inner
    have added : IsClassical o batch := by
      refine isClassical_of_leaves fun s member => ?_
      obtain ⟨target, value, rfl⟩ := assigns s member
      exact ⟨Bool.false_ne_true, rfl⟩
    exact isClassical_append.2 ⟨isClassical_append.2 ⟨inner.1, added⟩, inner.2⟩
  | «scope» binding plain searched within ih =>
    have inner := ih fun used => searchGrows searched (known used)
    exact isClassical_singleton.2 ⟨Bool.false_ne_true, inner⟩
  | classical plain searched first second ih ih' =>
    have later := first.grows.names.subset
    have latest := second.grows.names.subset
    have inBody := ih fun used => searchGrows searched (known (latest used))
    have inElse := ih' fun used => later (searchGrows searched (known used))
    refine isClassical_singleton.2 ⟨fun marked => plain ?_, isClassical_append.2 ⟨inBody, inElse⟩⟩
    exact hoist_isCallTo _ _ _ searched (fun used => known (latest (later used))) marked
  | quantum marked first second emits ih ih' =>
    have grows := (Growing.links.lowerConditional o _ _ _ _ _ _ emits).names.subset
    have inBody := ih fun used => known (grows (second.grows.names.subset used))
    obtain ⟨-, left, right, control, table, rs, rfl, ended, rfl, -⟩ :=
      lowerConditional_scope marked _ _ emits
    exact isClassical_singleton.2 ⟨Bool.false_ne_true, inBody.controlled ended⟩

theorem lower_isClassical {t : SyntaxTree} {input : List StmtTerm} {lowered : Lowered}
    (kinded : t.WellKinded) (valid : t.validate = .ok ()) (reads : t.Reads t.body input)
    {boilerplate verification : Bool}
    (ended : t.lower o (.build boilerplate verification) = .ok lowered)
    (other : ¬ t.Generates o boilerplate verification o.conditionFn) :
    ∃ output, lowered.tree.Reads lowered.tree.body output ∧ IsClassical o output := by
  obtain ⟨body, rest, p, placed, rfl, lowers, read, -, names⟩ := exists_lowers kinded valid reads ended
  refine ⟨_, read, isClassical_append.2 ⟨?_, lowers.isClassical fun taken => ?_⟩⟩
  · refine isClassical_of_leaves fun s member => ?_
    rw [eq_of_mem_injectedImport member]
    exact ⟨Bool.false_ne_true, rfl⟩
  · refine identifiers_subset_start o body (placed.mem_identifiers ?_)
    exact of_not_not fun unused => other ⟨names ▸ taken, unused⟩

theorem Translated.quantum_shape {method : Bool} {body rs : List StmtTerm}
    {names : List (Purpose × String)} (translated : Translated o method body rs names)
    {test : ExprTerm} {branch orelse : List StmtTerm}
    (inside : .conditional () test branch orelse ∈ body.flatMap StmtTree.statements)
    (marked : test.isCallTo o.conditionFn) :
    orelse = [] ∧ ∃ left right, test = equalityTest o left right := by
  have within : ∀ s : StmtTerm, .conditional () test branch orelse ∈ [s].flatMap StmtTree.statements →
      .conditional () test branch orelse = s ∨
        .conditional () test branch orelse ∈ s.inner.flatMap StmtTree.statements := by
    intro s member
    rwa [List.flatMap_singleton, s.statements_eq, List.mem_cons] at member
  induction translated with
  | nil => cases inside
  | append _ _ ih ih' =>
    rw [List.flatMap_append, List.mem_append] at inside
    exact inside.elim ih ih'
  | leaf method leaf =>
    cases leaf <;> rcases within _ inside with same | none
    all_goals first | cases same | cases none
  | define _ _ ih | classDef _ _ _ ih =>
    rcases within _ inside with same | deeper
    · cases same
    · exact ih deeper
  | «scope» context context' binding _ added ih =>
    rcases within _ inside with same | deeper
    · cases same
    · exact ih deeper
  | classical test' plain _ _ ih ih' =>
    rcases within _ inside with same | deeper
    · cases same
      exact absurd marked plain
    · rw [StmtTree.inner, List.flatMap_append, List.mem_append] at deeper
      exact deeper.elim ih ih'
  | quantum left right control _ ih =>
    rcases within _ inside with same | deeper
    · cases same
      exact ⟨rfl, left, right, rfl⟩
    · rw [StmtTree.inner, List.append_nil] at deeper
      exact ih deeper

namespace StmtTree

variable {α : Type}

def definesIn (names : List String) : StmtTree α → Bool
  | .define _ d => d.name ∈ names
  | _ => false

def scopeBinding : StmtTree α → List String
  | .scoped _ _ binding _ => binding.toList.flatMap ExprTree.names
  | _ => []

/-- The names that scopes bind in the statement, the definitions with the given names left out. -/
def scopeNames (derived : List String) (s : StmtTree α) : List String :=
  if s.definesIn derived then [] else
    s.scopeBinding ++ (s.inner.attach.map fun part => scopeNames derived part.1).flatten
termination_by sizeOf s
decreasing_by exact sizeOf_inner part.2

theorem scopeNames_eq (derived : List String) (s : StmtTree α) :
    s.scopeNames derived = if s.definesIn derived then [] else
      s.scopeBinding ++ s.inner.flatMap (scopeNames derived) := by
  rw [scopeNames, List.attach_map_val (f := scopeNames derived), ← List.flatMap_def]

theorem scopeNames_subset_identifiers (derived : List String) (s : StmtTree α) :
    s.scopeNames derived ⊆ s.identifiers := by
  induction s using StmtTree.induct with
  | step s ih =>
    rw [scopeNames_eq]
    split
    · exact List.nil_subset _
    · rw [identifiers_eq]
      refine List.append_subset.2 ⟨fun x member => ?_, fun x member => ?_⟩
      · refine List.mem_append_left _ (List.mem_append_right _ ?_)
        cases s with
        | «scoped» label context binding body =>
          rw [exprs, List.flatMap_cons]
          exact List.mem_append_right _ member
        | _ => cases member
      · obtain ⟨part, inside, used⟩ := List.mem_flatMap.1 member
        exact List.mem_append_right _ (List.mem_flatMap.2 ⟨part, inside, ih part inside used⟩)

end StmtTree

theorem Expansion.scopeNames_eq_nil {position : Nat} {d : Definition StmtTerm}
    {variants : List StmtTerm} {names : List (Purpose × String)} {derived : List String}
    (expansion : Expansion o position d variants names)
    (forms : ∀ handed ∈ names, handed.1 = .adjointForm ∨ handed.1 = .controlledForm →
      handed.2 ∈ derived) :
    variants.flatMap (StmtTree.scopeNames derived) = [] ∧ namesFor [.control] names = [] := by
  have form : ∀ {form : Definition StmtTerm} links, form.name ∈ derived →
      (StmtTree.define () form :: wirings links).flatMap (StmtTree.scopeNames derived) = [] := by
    intro form links listed
    rw [List.flatMap_cons, StmtTree.scopeNames_eq, if_pos (by simpa [StmtTree.definesIn] using listed),
      List.nil_append]
    refine List.flatMap_eq_nil_iff.2 fun s member => ?_
    obtain ⟨l, -, rfl⟩ := List.mem_map.1 member
    simp [StmtTree.scopeNames_eq, StmtTree.scopeBinding, StmtTree.inner]
  cases expansion with
  | plain => exact ⟨rfl, rfl⟩
  | @adjoint derivedForm =>
    exact ⟨form _ (forms (.adjointForm, derivedForm.name) (by simp) (by simp)), by simp [namesFor]⟩
  | @controlled derivedForm =>
    exact ⟨form _ (forms (.controlledForm, derivedForm.name) (by simp) (by simp)), by simp [namesFor]⟩
  | @both adjoint controlled adjointOfControlled =>
    refine ⟨?_, by simp [namesFor]⟩
    rw [List.flatMap_append, List.flatMap_append, form, form, form]
    · rfl
    · exact forms (.adjointForm, adjointOfControlled.name) (by simp) (by simp)
    · exact forms (.controlledForm, controlled.name) (by simp) (by simp)
    · exact forms (.adjointForm, adjoint.name) (by simp) (by simp)

theorem count_namesFor_append (purposes : List Purpose) (names names' : List (Purpose × String))
    (x : String) : (namesFor purposes (names ++ names')).count x =
      (namesFor purposes names).count x + (namesFor purposes names').count x := by
  unfold namesFor
  rw [List.filter_append, List.map_append, List.count_append]

/-- Outside the derived forms, the scopes of a lowered block bind what the scopes of the block bind, and
the controls that were handed out. -/
theorem Translated.count_scopeNames {method : Bool} {body rs : List StmtTerm}
    {names : List (Purpose × String)} (translated : Translated o method body rs names)
    {derived : List String}
    (forms : ∀ handed ∈ names, handed.1 = .adjointForm ∨ handed.1 = .controlledForm →
      handed.2 ∈ derived)
    (ordinary : ∀ x ∈ definedNames (body.flatMap StmtTree.declarations), x ∉ derived) (x : String) :
    (rs.flatMap (StmtTree.scopeNames derived)).count x =
      (body.flatMap (StmtTree.scopeNames derived)).count x + (namesFor [.control] names).count x := by
  induction translated with
  | nil => rfl
  | append _ _ ih ih' =>
    rw [List.flatMap_append, definedNames, List.filterMap_append, List.forall_mem_append] at ordinary
    rw [List.forall_mem_append] at forms
    have first := ih forms.1 ordinary.1
    have second := ih' forms.2 ordinary.2
    rw [List.flatMap_append, List.flatMap_append, List.count_append, List.count_append,
      count_namesFor_append, first, second]
    omega
  | leaf method leaf =>
    cases leaf <;> simp [StmtTree.scopeNames_eq, StmtTree.scopeBinding, StmtTree.inner, namesFor]
  | @define method d rs variants names names' within expansion ih =>
    rw [List.forall_mem_append] at forms
    rw [List.flatMap_singleton, StmtTree.declarations_define] at ordinary
    change ∀ x ∈ d.name :: definedNames (d.body.flatMap StmtTree.declarations), x ∉ derived at ordinary
    rw [List.forall_mem_cons] at ordinary
    obtain ⟨nothing, none⟩ := expansion.scopeNames_eq_nil forms.2
    have inner := ih forms.1 ordinary.2
    have outside : ∀ body : List StmtTerm, ¬ (StmtTree.define () { d with body := body }).definesIn
        derived := fun body => by simpa [StmtTree.definesIn] using ordinary.1
    rw [List.flatMap_cons, nothing, List.append_nil, List.flatMap_singleton, StmtTree.scopeNames_eq,
      if_neg (outside rs), StmtTree.scopeNames_eq, if_neg (outside d.body), count_namesFor_append, none]
    simpa [StmtTree.scopeBinding, StmtTree.inner] using inner
  | classDef method name within ih =>
    rw [List.flatMap_singleton, StmtTree.declarations_classDef] at ordinary
    have inner := ih forms ordinary
    simpa [StmtTree.scopeNames_eq _ (.classDef _ _ _), StmtTree.definesIn, StmtTree.scopeBinding,
      StmtTree.inner] using inner
  | @«scope» method context context' binding body front batch back names within added ih =>
    rw [List.flatMap_singleton, StmtTree.declarations_scoped] at ordinary
    have inner := ih forms ordinary
    have nothing : batch.flatMap (StmtTree.scopeNames derived) = [] := by
      refine List.flatMap_eq_nil_iff.2 fun s member => ?_
      obtain ⟨-, target, value, rfl⟩ := added s member
      simp [StmtTree.scopeNames_eq, StmtTree.scopeBinding, StmtTree.inner]
    simp only [List.flatMap_singleton, StmtTree.scopeNames_eq _ (.scoped _ _ _ _), StmtTree.definesIn,
      StmtTree.scopeBinding, StmtTree.inner, List.flatMap_append, nothing, List.append_nil,
      List.count_append, Bool.false_eq_true, if_false] at inner ⊢
    omega
  | classical test' plain _ _ ih ih' =>
    rw [List.flatMap_singleton, StmtTree.declarations_conditional, definedNames, List.filterMap_append,
      List.forall_mem_append] at ordinary
    rw [List.forall_mem_append] at forms
    have first := ih forms.1 ordinary.1
    have second := ih' forms.2 ordinary.2
    simp only [List.flatMap_singleton, StmtTree.scopeNames_eq _ (.conditional _ _ _ _),
      StmtTree.definesIn, StmtTree.scopeBinding, StmtTree.inner, List.flatMap_append, List.nil_append,
      List.count_append, Bool.false_eq_true, if_false, count_namesFor_append, first, second]
    omega
  | quantum left right control _ ih =>
    rw [List.flatMap_singleton, StmtTree.declarations_conditional, List.flatMap_nil,
      List.append_nil] at ordinary
    rw [List.forall_mem_append] at forms
    have inner := ih forms.1 ordinary
    have own : namesFor [.control] [(.control, control)] = [control] := rfl
    simp only [List.flatMap_singleton, controlScope, StmtTree.scopeNames_eq _ (.conditional _ _ _ _),
      StmtTree.scopeNames_eq _ (.scoped _ _ _ _), StmtTree.definesIn, StmtTree.scopeBinding,
      StmtTree.inner, List.append_nil, List.nil_append, List.count_append, Bool.false_eq_true, if_false,
      count_namesFor_append, inner, own]
    simp [nameTerm, Expr.name?, Expr.children]
    omega

/-- If a module is lowered, and the condition function does not have a name that the run generates, then
every quantum conditional of the module compares two operands and has no other branch, none is left, and
the scope that stands in its place is the only one outside derived forms that binds its control. -/
theorem lower_quantum_scopes {t : SyntaxTree} {input : List StmtTerm} {lowered : Lowered}
    (kinded : t.WellKinded) (valid : t.validate = .ok ()) (reads : t.Reads t.body input)
    {boilerplate verification : Bool}
    (ended : t.lower o (.build boilerplate verification) = .ok lowered)
    (other : ¬ t.Generates o boilerplate verification o.conditionFn) :
    ∃ rest names, lowered.tree.Reads lowered.tree.body (injectedImport o boilerplate input ++ rest) ∧
      Translated o false input rest names ∧ (names.map Prod.snd).Nodup ∧
      (∀ x ∈ names.map Prod.snd, x ∉ input.flatMap StmtTree.identifiers) ∧
      (∀ test body orelse, .conditional () test body orelse ∈ input.flatMap StmtTree.statements →
        test.isCallTo o.conditionFn → orelse = [] ∧ ∃ left right, test = equalityTest o left right) ∧
      IsClassical o (injectedImport o boilerplate input ++ rest) ∧
      ∀ control, (.control, control) ∈ names →
        (rest.flatMap (StmtTree.scopeNames (namesFor [.adjointForm, .controlledForm] names))).count
          control = 1 := by
  obtain ⟨rest, names, read, translated, once, fresh⟩ := lower_translated kinded valid reads ended
  obtain ⟨output, read', classical⟩ := lower_isClassical kinded valid reads ended other
  obtain rfl := read.unique read'
  refine ⟨rest, names, read, translated, once, fresh,
    fun test body orelse => translated.quantum_shape, classical, fun control handed => ?_⟩
  have forms : ∀ handed ∈ names, handed.1 = .adjointForm ∨ handed.1 = .controlledForm →
      handed.2 ∈ namesFor [.adjointForm, .controlledForm] names :=
    fun handed member purpose => (mem_namesFor once member).2 (by simpa using purpose)
  have unbound : (input.flatMap (StmtTree.scopeNames
      (namesFor [.adjointForm, .controlledForm] names))).count control = 0 := by
    refine List.count_eq_zero.2 fun bound => fresh control (List.mem_map_of_mem handed) ?_
    obtain ⟨s, inside, bound⟩ := List.mem_flatMap.1 bound
    exact List.mem_flatMap.2 ⟨s, inside, s.scopeNames_subset_identifiers _ bound⟩
  have single : (namesFor [.control] names).count control = 1 := by
    have sublist : (namesFor [.control] names).Sublist (names.map Prod.snd) :=
      List.filter_sublist.map _
    refine List.count_eq_one_of_mem (once.sublist sublist) ?_
    exact (mem_namesFor once handed).2 (by simp)
  rw [translated.count_scopeNames forms (not_mem_namesFor fresh), unbound, single]

theorem lower_quantum_scopes_guarded :
    ¬ conditionalModule.Generates .default true true "superposition" ∧
      ∃ lowered, conditionalModule.lower .default .standard = .ok lowered ∧
        lowered.tree.render.toOption = some ("import quoll.boilerplate as bp\n" ++
          "with bp.control_scope([q], 1) as __control:\n    Controlled[X](__control, t)\n" ++
          "    with X(t):\n        pass") ∧
        ∃ output rest names, lowered.tree.Reads lowered.tree.body output ∧
          Translated .default false [guardedConditional.erase] rest names ∧
          IsClassical .default output ∧ ∀ control, (.control, control) ∈ names →
            (rest.flatMap (StmtTree.scopeNames (namesFor [.adjointForm, .controlledForm] names))).count
              control = 1 := by
  have placed := conditionalModule_placed
  have statement : conditionalModule.Reachable 15 := .body (by decide)
  have test := statement.part rfl (show 5 ∈ _ by decide)
  have used : conditionalModule.Uses "superposition" :=
    ⟨0, .expr (.name "superposition"), test.part rfl (by decide), rfl, by decide⟩
  have other : ¬ conditionalModule.Generates .default true true "superposition" :=
    fun generated => generated.2 used
  have succeeds : (conditionalModule.lower .default .standard).toOption.any fun lowered =>
      lowered.tree.render.toOption = some ("import quoll.boilerplate as bp\n" ++
        "with bp.control_scope([q], 1) as __control:\n    Controlled[X](__control, t)\n" ++
        "    with X(t):\n        pass") := by
    decide +kernel
  obtain ⟨lowered, ended, rendered⟩ := exists_lowered succeeds
  obtain ⟨rest, names, read, translated, -, -, -, classical, bound⟩ :=
    lower_quantum_scopes placed.wellKinded placed.validate
      ⟨_, placed.labels, rfl, placed.owned.held⟩ (show _ = _ from ended) other
  exact ⟨other, lowered, ended, of_decide_eq_true rendered, _, rest, names, read, translated, classical,
    bound⟩

end QuantumLowering
