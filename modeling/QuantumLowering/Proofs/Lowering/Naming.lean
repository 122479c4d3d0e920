import QuantumLowering.Proofs.Lowering.Translation

namespace QuantumLowering

variable {o : Options} {known : List String} {p p' : Progress}

def handedFor (purpose : Purpose) (names : List String) : List (Purpose × String) :=
  names.map (Prod.mk purpose)

theorem map_snd_handedFor (purpose : Purpose) (names : List String) :
    (handedFor purpose names).map Prod.snd = names := by
  simp [handedFor]

def placeholders (found : List (Hoisted Unit)) : List (Purpose × String) :=
  handedFor .placeholder (found.map Hoisted.placeholder)

/-- The body of an allocation block with the batch of what was found in it, and the proxies of the
batch. -/
inductive BatchPlaced (o : Options) (found : List (Hoisted Unit)) (body : List StmtTerm) :
    List StmtTerm → List String → Prop where
  | nothing (none : found = []) : BatchPlaced o found body body []
  | earliest {position : Nat} {proxies : List String}
    (first : (found.map Hoisted.index).min? = some position)
    (length : proxies.length = found.length) :
    BatchPlaced o found body
      (body.take position ++ batchOf o found proxies ++ body.drop position) proxies

/-- A block and what it is lowered to, inside or outside an allocation block and directly in a class or
not, with the entries of the measurements found for the allocation block around it and all the names
that were handed out, in the order of the run. -/
inductive Named (o : Options) (known : List String) : Bool → Bool → List StmtTerm → List StmtTerm →
    List (Hoisted Unit) → List (Purpose × String) → Prop where
  | nil (inside method : Bool) : Named o known inside method [] [] [] []
  | append {inside method : Bool} {body body' rs rs' : List StmtTerm} {new later : List (Hoisted Unit)}
    {names names' : List (Purpose × String)} (first : Named o known inside method body rs new names)
    (second : Named o known inside method body' rs' later names') :
    Named o known inside method (body ++ body') (rs ++ rs') (new ++ later) (names ++ names')
  | importAs (inside method : Bool) (module name : String) :
    Named o known inside method [.importAs () module name] [.importAs () module name] [] []
  | wire (inside method : Bool) (f : GateFunctor) (operation variant : String) :
    Named o known inside method [.wire () f operation variant] [.wire () f operation variant] [] []
  | pass (inside method : Bool) : Named o known inside method [.pass ()] [.pass ()] [] []
  | expr {inside : Bool} (method : Bool) {value r : ExprTerm} {new : List (Hoisted Unit)}
    (search : Searched o known inside value r new) :
    Named o known inside method [.expr () value] [.expr () r] new (placeholders new)
  | assign {inside : Bool} (method : Bool) (target : ExprTerm) {value r : ExprTerm}
    {new : List (Hoisted Unit)} (search : Searched o known inside value r new) :
    Named o known inside method [.assign () target value] [.assign () target r] new (placeholders new)
  | define (inside : Bool) {method : Bool} {d : Definition StmtTerm} {rs variants : List StmtTerm}
    {names names' : List (Purpose × String)} (within : Named o known false false d.body rs [] names)
    (expansion : Expansion o (LowerM.controlPosition method d.params) { d with body := rs } variants
      names') :
    Named o known inside method [.define () d] (.define () { d with body := rs } :: variants) []
      (names ++ names')
  | classDef {inside : Bool} (method : Bool) (name : String) {body rs : List StmtTerm}
    {new : List (Hoisted Unit)} {names : List (Purpose × String)}
    (within : Named o known inside true body rs new names) :
    Named o known inside method [.classDef () name body] [.classDef () name rs] new names
  | allocation {inside method : Bool} {context r : ExprTerm} (binding : Option ExprTerm)
    {body rs stmts : List StmtTerm} {new found : List (Hoisted Unit)}
    {names : List (Purpose × String)} {proxies : List String}
    (allocates : context.isCallTo o.allocateFn) (search : Searched o known inside context r new)
    (within : Named o known true method body rs found names)
    (batch : BatchPlaced o found rs stmts proxies) :
    Named o known inside method [.scoped () context binding body] [.scoped () r binding stmts] new
      (placeholders new ++ names ++ handedFor .proxy proxies)
  | scope {inside method : Bool} {context r : ExprTerm} (binding : Option ExprTerm)
    {body rs : List StmtTerm} {new later : List (Hoisted Unit)} {names : List (Purpose × String)}
    (plain : ¬ context.isCallTo o.allocateFn) (search : Searched o known inside context r new)
    (within : Named o known inside method body rs later names) :
    Named o known inside method [.scoped () context binding body] [.scoped () r binding rs]
      (new ++ later) (placeholders new ++ names)
  | classical {inside method : Bool} {test r : ExprTerm} {body orelse rs rs' : List StmtTerm}
    {new new' new'' : List (Hoisted Unit)} {names names' : List (Purpose × String)}
    (plain : ¬ test.isCallTo o.conditionFn) (search : Searched o known inside test r new)
    (first : Named o known inside method body rs new' names)
    (second : Named o known inside method orelse rs' new'' names') :
    Named o known inside method [.conditional () test body orelse] [.conditional () r rs rs']
      (new ++ (new' ++ new'')) (placeholders new ++ (names ++ names'))
  | quantum {inside method : Bool} (left right : ExprTerm) (control : String)
    {body rs stmts : List StmtTerm} {new : List (Hoisted Unit)} {names : List (Purpose × String)}
    {table : OperationTable} (within : Named o known inside method body rs new names)
    (controlled : controlStmts table control rs = .ok stmts) :
    Named o known inside method [.conditional () (equalityTest o left right) body []]
      [controlScope o left right control stmts] new (names ++ [(.control, control)])

theorem Named.eq_nil {inside method : Bool} {body rs : List StmtTerm} {new : List (Hoisted Unit)}
    {names : List (Purpose × String)} (named : Named o known inside method body rs new names)
    (none : rs = []) : body = [] ∧ new = [] ∧ names = [] := by
  induction named with
  | nil => exact ⟨rfl, rfl, rfl⟩
  | append _ _ ih ih' =>
    rw [List.append_eq_nil_iff] at none
    obtain ⟨rfl, rfl, rfl⟩ := ih none.1
    exact ih' none.2
  | _ => cases none

theorem emitBatch_placed (found : List (Hoisted Unit)) (body : List StmtTerm) :
    Yields (PlanM.emitBatch o found body) p fun rs p' => ∃ proxies,
      BatchPlaced o found body rs proxies ∧ p.names.Issues proxies p'.names := by
  refine (emitBatch_cases found body).mono ?_
  rintro rs p' ⟨-, ⟨none, rfl, rfl⟩ | ⟨position, proxies, first, length, issues, rfl⟩⟩
  · exact ⟨[], .nothing none, .done _⟩
  · exact ⟨proxies, .earliest first length, issues⟩

def Names (o : Options) (known : List String) (p : Progress) (body rs : List StmtTerm)
    (p' : Progress) : Prop :=
  ∃ new names, Takes p p' new ∧ p.names.Issues (names.map Prod.snd) p'.names ∧
    Named o known p.batch.isSome p.insideMethod body rs new names

theorem Lowers.named {body rs : List StmtTerm} (lowers : Lowers o p body rs p')
    (inside : ∀ s ∈ body, s.names ⊆ known) (reserved : known ⊆ p.names.taken) :
    Names o known p body rs p' := by
  have searched : ∀ {s : StmtTerm}, (∀ part ∈ [s], part.names ⊆ known) →
      ∀ {e r : ExprTerm} {p p' : Progress}, e ∈ s.exprs → known ⊆ p.names.taken →
      PlanM.hoist o e p = .ok (r, p') → p'.insideMethod = p.insideMethod ∧ ∃ new, Takes p p' new ∧
        p.names.Issues ((placeholders new).map Prod.snd) p'.names ∧
        Searched o known p.batch.isSome e r new := by
    intro s inside e r p p' member reserved search
    obtain ⟨new, takes, issues, found⟩ := searched_here inside member reserved search
    rw [← map_snd_handedFor .placeholder (new.map _)] at issues
    exact ⟨keepsMethod_batches.hoist o _ _ _ _ search, new, takes, issues, found⟩
  induction lowers with
  | nil p => exact ⟨[], [], .refl p, .done _, .nil _ _⟩
  | append first _ ih ih' =>
    obtain ⟨new, names, takes, issues, named⟩ :=
      ih (fun s member => inside s (List.mem_append_left _ member)) reserved
    obtain ⟨later, names', takes', issues', named'⟩ :=
      ih' (fun s member => inside s (List.mem_append_right _ member)) (takes.reserves reserved)
    rw [takes.isSome, first.insideMethod_eq] at named'
    exact ⟨new ++ later, names ++ names', takes.trans takes', issues.append_map issues',
      named.append named'⟩
  | standing index _ ih =>
    obtain ⟨new, names, takes, issues, named⟩ := ih inside reserved
    rw [(Takes.standing index).isSome] at named
    exact ⟨new, names, (Takes.standing index).none_then takes, issues, named⟩
  | importAs p module name => exact ⟨[], [], .refl p, .done _, .importAs _ _ module name⟩
  | wire p f operation variant => exact ⟨[], [], .refl p, .done _, .wire _ _ f operation variant⟩
  | pass p => exact ⟨[], [], .refl p, .done _, .pass _ _⟩
  | expr search =>
    obtain ⟨-, new, takes, issues, found⟩ := searched inside (by simp [StmtTree.exprs]) reserved search
    exact ⟨new, _, takes, issues, .expr _ found⟩
  | assign target search =>
    obtain ⟨-, new, takes, issues, found⟩ := searched inside (by simp [StmtTree.exprs]) reserved search
    exact ⟨new, _, takes, issues, .assign _ target found⟩
  | @define p q p' d rs variants within emits ih =>
    obtain ⟨new, names, takes, issues, named⟩ := ih (names_inside inside) reserved
    obtain rfl := takes.closed rfl
    have left : Takes p { q with batch := p.batch, insideMethod := p.insideMethod } [] :=
      .of_grows takes.taken rfl
    obtain ⟨names', expansion, issues'⟩ := emitVariants_expands _ _ _ emits
    exact ⟨[], _, left.trans (quiet.emitVariants o _ _ _ _ emits), issues.append_map issues',
      .define _ named expansion⟩
  | classDef name _ ih =>
    obtain ⟨new, names, takes, issues, named⟩ := ih (names_inside inside) reserved
    exact ⟨new, names, ⟨takes.batch, takes.closed, takes.taken, takes.once, takes.fresh, takes.reserved⟩,
      issues, .classDef _ name named⟩
  | @allocation p p₁ p₂ p' context r binding body rs stmts allocates search _ emits ih =>
    obtain ⟨method, new, takes, issues, found⟩ :=
      searched inside (by simp [StmtTree.exprs]) reserved search
    have reserved₁ := takes.reserves reserved
    obtain ⟨inBody, names, takes₂, issues₂, named⟩ := ih (names_inside inside) reserved₁
    have left := takes₂.suspended
    obtain ⟨takes₃, -⟩ := emitBatch_withBatch _ _ (left.reserves reserved₁) _ _ emits
    obtain ⟨proxies, placed, issues₃⟩ := emitBatch_placed _ _ _ _ emits
    rw [takes₂.opened] at placed
    rw [← map_snd_handedFor .proxy proxies] at issues₃
    have all := (issues.append_map issues₂).append_map issues₃
    have outer : ({ p₁ with batch := some ⟨0, []⟩ } : Progress).insideMethod = p.insideMethod := method
    rw [outer] at named
    exact ⟨new, _, takes.then_none (left.trans takes₃), all,
      .allocation binding allocates found named placed⟩
  | «scope» binding plain search _ ih =>
    obtain ⟨method, new, takes, issues, found⟩ :=
      searched inside (by simp [StmtTree.exprs]) reserved search
    obtain ⟨later, names, takes', issues', named⟩ := ih (names_inside inside) (takes.reserves reserved)
    rw [takes.isSome, method] at named
    exact ⟨new ++ later, _, takes.trans takes', issues.append_map issues',
      .scope binding plain found named⟩
  | classical plain search first _ ih ih' =>
    obtain ⟨method, new, takes, issues, found⟩ :=
      searched inside (by simp [StmtTree.exprs]) reserved search
    have reserved₁ := takes.reserves reserved
    obtain ⟨new₂, names₂, takes₂, issues₂, named₂⟩ :=
      ih (fun s member => names_inside inside s (List.mem_append_left _ member)) reserved₁
    obtain ⟨new₃, names₃, takes₃, issues₃, named₃⟩ :=
      ih' (fun s member => names_inside inside s (List.mem_append_right _ member))
        (takes₂.reserves reserved₁)
    rw [takes₂.isSome, first.insideMethod_eq, takes.isSome, method] at named₃
    rw [takes.isSome, method] at named₂
    have all := issues.append_map (issues₂.append_map issues₃)
    exact ⟨new ++ (new₂ ++ new₃), _, takes.trans (takes₂.trans takes₃), all,
      .classical plain found named₂ named₃⟩
  | quantum marked first _ emits ih ih' =>
    obtain ⟨new, names, takes, issues, named⟩ :=
      ih (fun s member => names_inside inside s (List.mem_append_left _ member)) reserved
    obtain ⟨later, names', takes', issues', named'⟩ :=
      ih' (fun s member => names_inside inside s (List.mem_append_right _ member)) (takes.reserves reserved)
    have takes₃ := quiet.lowerConditional o _ _ _ _ _ _ emits
    obtain ⟨none, left, right, control, table, stmts, rfl, controlled, rfl, issues₃⟩ :=
      lowerConditional_scope marked _ _ emits
    obtain ⟨rfl, rfl, rfl⟩ := named'.eq_nil none
    have all := issues.append (issues'.append issues₃)
    exact ⟨new, names ++ [(.control, control)], takes.then_none (takes'.trans takes₃),
      by rwa [List.map_append], .quantum left right control named controlled⟩

end QuantumLowering
