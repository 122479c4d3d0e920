import QuantumLowering.Proofs.Lowering.BigStep

namespace QuantumLowering

namespace StmtTree

variable {α : Type}

def signature? : StmtTree α → Option (String × Markers)
  | .define _ d => some (d.name, d.markers)
  | _ => none

def defined (s : StmtTree α) : List (String × Markers) :=
  s.signature?.toList ++ (s.inner.attach.map fun part => defined part.1).flatten
termination_by sizeOf s
decreasing_by exact sizeOf_inner part.2

theorem defined_eq (s : StmtTree α) :
    s.defined = s.signature?.toList ++ s.inner.flatMap defined := by
  rw [defined, List.attach_map_val (f := defined), ← List.flatMap_def]

section Defined

variable (label : α)

@[simp]
theorem defined_define (d : Definition (StmtTree α)) :
    (StmtTree.define label d).defined = (d.name, d.markers) :: d.body.flatMap defined := by
  rw [defined_eq]
  rfl

@[simp]
theorem defined_classDef (name : String) (body : List (StmtTree α)) :
    (StmtTree.classDef label name body).defined = body.flatMap defined := by
  rw [defined_eq]
  rfl

@[simp]
theorem defined_scoped (context : ExprTree α) (binding : Option (ExprTree α))
    (body : List (StmtTree α)) :
    (StmtTree.scoped label context binding body).defined = body.flatMap defined := by
  rw [defined_eq]
  rfl

@[simp]
theorem defined_conditional (test : ExprTree α) (body orelse : List (StmtTree α)) :
    (StmtTree.conditional label test body orelse).defined =
      body.flatMap defined ++ orelse.flatMap defined := by
  rw [defined_eq]
  simp [inner, signature?]

@[simp]
theorem defined_expr (value : ExprTree α) : (StmtTree.expr label value).defined = [] := by
  rw [defined_eq]
  rfl

@[simp]
theorem defined_assign (target value : ExprTree α) :
    (StmtTree.assign label target value).defined = [] := by
  rw [defined_eq]
  rfl

@[simp]
theorem defined_importAs (module name : String) :
    (StmtTree.importAs label module name).defined = [] := by
  rw [defined_eq]
  rfl

@[simp]
theorem defined_wire (functor : GateFunctor) (operation variant : String) :
    (StmtTree.wire label functor operation variant).defined = [] := by
  rw [defined_eq]
  rfl

@[simp]
theorem defined_pass : (StmtTree.pass label).defined = [] := by
  rw [defined_eq]
  rfl

end Defined

theorem defined_erase (s : StmtTree α) : s.erase.defined = s.defined := by
  induction s using induct with
  | step s ih =>
    have block : ∀ body : List (StmtTree α), (∀ part ∈ body, part ∈ s.inner) →
        (body.map erase).flatMap defined = body.flatMap defined := by
      intro body inside
      rw [List.flatMap_map]
      exact List.flatMap_congr fun part member => ih part (inside part member)
    match s with
    | .define _ d =>
      rw [erase_define, defined_define, defined_define, block d.body fun _ member => member]
      rfl
    | .classDef _ name body =>
      rw [erase_classDef, defined_classDef, defined_classDef, block body fun _ member => member]
    | .scoped _ context binding body =>
      rw [erase_scoped, defined_scoped, defined_scoped, block body fun _ member => member]
    | .conditional _ test body orelse =>
      rw [erase_conditional, defined_conditional, defined_conditional,
        block body (by simp +contextual [inner]), block orelse (by simp +contextual [inner])]
    | .importAs .. | .expr .. | .assign .. | .wire .. | .pass _ => simp

theorem mem_defined_of_mem_cells {s : StmtTree NodeId} {id : NodeId} {d : Definition NodeId}
    (member : (id, Node.stmt (.define d)) ∈ s.cells) : (d.name, d.markers) ∈ s.defined := by
  induction s using induct with
  | step s ih =>
    rw [cells_eq, List.mem_cons, List.mem_append] at member
    rw [defined_eq, List.mem_append]
    rcases member with here | inExpr | inside
    · refine .inl ?_
      cases s <;> cases here
      exact List.mem_singleton.2 rfl
    · obtain ⟨e, -, inside⟩ := List.mem_flatMap.1 inExpr
      obtain ⟨layer, same⟩ := e.exists_of_mem_cells inside
      cases same
    · obtain ⟨part, listed, inside⟩ := List.mem_flatMap.1 inside
      exact .inr (List.mem_flatMap.2 ⟨part, listed, ih part listed inside⟩)

end StmtTree

theorem CallRule.defined_rewriteStmt {rule : CallRule} {reversed : ExprTerm → Bool}
    {s r : StmtTerm} (ended : rule.rewriteStmt reversed s = .ok r) : r.defined ⊆ s.defined := by
  induction s using StmtTree.induct generalizing r with
  | step s ih =>
    have block : ∀ body rs : List StmtTerm, (∀ part ∈ body, part ∈ s.inner) →
        body.mapM (rule.rewriteStmt reversed) = .ok rs →
        rs.flatMap StmtTree.defined ⊆ body.flatMap StmtTree.defined := by
      intro body rs inside ended d member
      obtain ⟨r, listed, member⟩ := List.mem_flatMap.1 member
      obtain ⟨s, listed', same⟩ := Plan.exists_of_mem ended listed
      exact List.mem_flatMap.2 ⟨s, listed', ih s (inside s listed') same member⟩
    match s with
    | .importAs .. | .define .. | .classDef .. | .wire .. | .pass _ =>
      simp only [CallRule.rewriteStmt] at ended
      cases ended
      exact List.Subset.refl _
    | .expr _ value =>
      rw [CallRule.rewriteStmt] at ended
      obtain ⟨e, -, ended⟩ := Plan.bind_eq_ok.1 ended
      cases ended
      simp
    | .assign _ target value =>
      rw [CallRule.rewriteStmt] at ended
      obtain ⟨e, -, ended⟩ := Plan.bind_eq_ok.1 ended
      cases ended
      simp
    | .scoped _ context binding body =>
      rw [CallRule.rewriteStmt_scoped] at ended
      obtain ⟨rs, ran, ended⟩ := Plan.bind_eq_ok.1 ended
      cases ended
      have inBody := block body rs (fun _ member => member) ran
      rw [StmtTree.defined_scoped, StmtTree.defined_scoped]
      split
      · intro d member
        refine inBody ?_
        simpa using member
      · exact inBody
    | .conditional _ test body orelse =>
      rw [CallRule.rewriteStmt_conditional] at ended
      obtain ⟨rs, ran, ended⟩ := Plan.bind_eq_ok.1 ended
      obtain ⟨rs', ran', ended⟩ := Plan.bind_eq_ok.1 ended
      cases ended
      have inBody := block body rs (by simp +contextual [StmtTree.inner]) ran
      have inElse := block orelse rs' (by simp +contextual [StmtTree.inner]) ran'
      rw [StmtTree.defined_conditional, StmtTree.defined_conditional]
      exact List.append_subset.2 ⟨List.subset_append_of_subset_left _ inBody,
        List.subset_append_of_subset_right _ inElse⟩

theorem defined_adjointStmts {known : OperationTable} {o : Options} {body rs : List StmtTerm}
    (ended : adjointStmts known o body = .ok rs) :
    rs.flatMap StmtTree.defined ⊆ body.flatMap StmtTree.defined := by
  obtain ⟨rs, ran, ended⟩ := Plan.bind_eq_ok.1 ended
  cases ended
  intro d member
  obtain ⟨r, listed, member⟩ := List.mem_flatMap.1 member
  obtain ⟨s, listed', same⟩ := Plan.exists_of_mem ran (List.mem_reverse.1 listed)
  exact List.mem_flatMap.2 ⟨s, listed', CallRule.defined_rewriteStmt same member⟩

theorem defined_controlStmts {known : OperationTable} {control : String} {body rs : List StmtTerm}
    (ended : controlStmts known control body = .ok rs) :
    rs.flatMap StmtTree.defined ⊆ body.flatMap StmtTree.defined := by
  intro d member
  obtain ⟨r, listed, member⟩ := List.mem_flatMap.1 member
  obtain ⟨s, listed', same⟩ := Plan.exists_of_mem ended listed
  exact List.mem_flatMap.2 ⟨s, listed', CallRule.defined_rewriteStmt same member⟩

def OperationTable.SettlesBlock (known : OperationTable) (block : List StmtTerm) : Prop :=
  ∀ d ∈ block.flatMap StmtTree.defined, known.Settled d.1 d.2

namespace OperationTable.SettlesBlock

variable {known known' : OperationTable} {block block' : List StmtTerm}

theorem mono (settles : known.SettlesBlock block) (grows : known.Grows known') :
    known'.SettlesBlock block :=
  fun d member => (settles d member).mono grows

theorem append (settles : known.SettlesBlock block) (settles' : known.SettlesBlock block') :
    known.SettlesBlock (block ++ block') := by
  intro d member
  rw [List.flatMap_append] at member
  rcases List.mem_append.1 member with member | member
  · exact settles d member
  · exact settles' d member

theorem subset (settles : known.SettlesBlock block)
    (fewer : block'.flatMap StmtTree.defined ⊆ block.flatMap StmtTree.defined) :
    known.SettlesBlock block' :=
  fun d member => settles d (fewer member)

end OperationTable.SettlesBlock

section Settle

variable {o : Options} {p : Progress}

theorem deriveAdjoint_yields (d : Definition StmtTerm) : Yields (PlanM.deriveAdjoint o d) p
    fun derived _ => derived.markers = .none ∧
      derived.body.flatMap StmtTree.defined ⊆ d.body.flatMap StmtTree.defined := by
  unfold PlanM.deriveAdjoint
  rw [Yields.get_bind]
  refine .lift_bind fun rs ended => ?_
  exact .bind .any fun _ _ _ => .bind .any fun _ _ _ => .pure ⟨rfl, defined_adjointStmts ended⟩

theorem deriveControlled_yields (d : Definition StmtTerm) : Yields (PlanM.deriveControlled o d) p
    fun derived _ => derived.markers = .none ∧
      derived.body.flatMap StmtTree.defined ⊆ d.body.flatMap StmtTree.defined := by
  unfold PlanM.deriveControlled
  refine .bind .any fun _ p₁ _ => ?_
  rw [Yields.get_bind]
  refine .lift_bind fun rs ended => ?_
  rw [Yields.get_bind]
  exact .bind .any fun _ _ _ => .bind .any fun _ _ _ => .pure ⟨rfl, defined_controlStmts ended⟩

theorem link_yields (f : GateFunctor) (operation variant : String) :
    Yields (PlanM.link f operation variant) p fun s p' =>
      s = .wire () f operation variant ∧ p'.operations.Resolves operation f := by
  intro s p' ended
  cases ended
  exact ⟨rfl, OperationTable.resolves_link ..⟩

theorem settlesBlock_derived {known : OperationTable} {body : List StmtTerm}
    {derived : Definition StmtTerm} (settles : known.SettlesBlock body)
    (unmarked : derived.markers = .none)
    (fewer : derived.body.flatMap StmtTree.defined ⊆ body.flatMap StmtTree.defined) :
    known.SettlesBlock [.define () derived] := by
  intro d member
  simp only [List.flatMap_cons, List.flatMap_nil, List.append_nil, StmtTree.defined_define,
    List.mem_cons, unmarked] at member
  rcases member with rfl | member
  · exact known.settled_none _
  · exact settles d (fewer member)

theorem emitAdjoint_yields {d : Definition StmtTerm} (settles : p.operations.SettlesBlock d.body) :
    Yields (PlanM.emitAdjoint o d) p fun emitted p' =>
      p'.operations.Resolves d.name .adjoint ∧ p'.operations.SettlesBlock emitted.1 := by
  unfold PlanM.emitAdjoint
  refine ((Growing.links.deriveAdjoint o d p).and (deriveAdjoint_yields d)).bind ?_
  rintro derived p₁ ⟨grows₁, unmarked, fewer⟩
  refine ((Growing.links.emitLink _ _ _ p₁).and (link_yields _ _ _)).bind ?_
  rintro _ p₂ ⟨grows₂, rfl, resolves⟩
  refine ((Growing.links.emitLink _ _ _ p₂).and (link_yields _ _ _)).bind ?_
  rintro _ p₃ ⟨grows₃, rfl, -⟩
  refine .pure ⟨grows₃.operations _ _ resolves, ?_⟩
  have settles₃ := settles.mono (grows₁.trans (grows₂.trans grows₃)).operations
  refine (settlesBlock_derived settles₃ unmarked fewer).subset ?_
  simp

theorem emitControlled_yields {d : Definition StmtTerm} {adjoint : Option String}
    (settles : p.operations.SettlesBlock d.body) :
    Yields (PlanM.emitControlled o d adjoint) p fun emitted p' =>
      p'.operations.Resolves d.name .controlled ∧ p'.operations.SettlesBlock emitted := by
  unfold PlanM.emitControlled
  refine ((Growing.links.deriveControlled o d p).and (deriveControlled_yields d)).bind ?_
  rintro controlled p₁ ⟨grows₁, unmarked, fewer⟩
  have settles₁ := settles.mono grows₁.operations
  cases adjoint with
  | none =>
    refine ((Growing.links.emitLink _ _ _ p₁).and (link_yields _ _ _)).bind ?_
    rintro _ p₂ ⟨grows₂, rfl, resolves⟩
    refine ((Growing.links.emitLink _ _ _ p₂).and (link_yields _ _ _)).bind ?_
    rintro _ p₃ ⟨grows₃, rfl, -⟩
    refine .pure ⟨grows₃.operations _ _ resolves, ?_⟩
    have settles₃ := settles₁.mono (grows₂.trans grows₃).operations
    refine (settlesBlock_derived settles₃ unmarked fewer).subset ?_
    simp
  | some adjoint =>
    refine ((Growing.links.deriveAdjoint o controlled p₁).and (deriveAdjoint_yields controlled)).bind ?_
    rintro both p₂ ⟨grows₂, unmarked', fewer'⟩
    refine ((Growing.links.emitLink _ _ _ p₂).and (link_yields _ _ _)).bind ?_
    rintro _ p₃ ⟨grows₃, rfl, resolves⟩
    refine ((Growing.links.emitLink _ _ _ p₃).and (link_yields _ _ _)).bind ?_
    rintro _ p₄ ⟨grows₄, rfl, -⟩
    refine ((Growing.links.emitLink _ _ _ p₄).and (link_yields _ _ _)).bind ?_
    rintro _ p₅ ⟨grows₅, rfl, -⟩
    refine ((Growing.links.emitLink _ _ _ p₅).and (link_yields _ _ _)).bind ?_
    rintro _ p₆ ⟨grows₆, rfl, -⟩
    refine ((Growing.links.emitLink _ _ _ p₆).and (link_yields _ _ _)).bind ?_
    rintro _ p₇ ⟨grows₇, rfl, -⟩
    refine ((Growing.links.emitLink _ _ _ p₇).and (link_yields _ _ _)).bind ?_
    rintro _ p₈ ⟨grows₈, rfl, -⟩
    have wired := grows₄.trans (grows₅.trans (grows₆.trans (grows₇.trans grows₈)))
    refine .pure ⟨wired.operations _ _ resolves, ?_⟩
    have settles₈ := settles₁.mono (grows₂.trans (grows₃.trans wired)).operations
    have first := settlesBlock_derived settles₈ unmarked fewer
    have second := settlesBlock_derived settles₈ unmarked' (List.Subset.trans fewer' fewer)
    refine (first.append second).subset ?_
    simp

theorem emitVariants_yields {d : Definition StmtTerm} (settles : p.operations.SettlesBlock d.body) :
    Yields (PlanM.emitVariants o d) p fun emitted p' =>
      p'.operations.Settled d.name d.markers ∧ p'.operations.SettlesBlock emitted := by
  have adjoints : Yields (PlanM.requestedAdjoints o d) p fun emitted p' =>
      (d.markers.adjoint → p'.operations.Resolves d.name .adjoint) ∧
        p'.operations.SettlesBlock emitted.1 := by
    unfold PlanM.requestedAdjoints
    split
    · refine (emitAdjoint_yields settles).bind ?_
      rintro emitted p₁ ⟨resolves, settles₁⟩
      exact .pure ⟨fun _ => resolves, settles₁⟩
    · exact .pure ⟨fun asked => absurd asked ‹_›, by simp [OperationTable.SettlesBlock]⟩
  have controlled : ∀ adjoint p₁, p₁.operations.SettlesBlock d.body →
      Yields (PlanM.requestedControlled o d adjoint) p₁ fun emitted p' =>
        (d.markers.controlled → p'.operations.Resolves d.name .controlled) ∧
          p'.operations.SettlesBlock emitted := by
    intro adjoint p₁ settles₁
    unfold PlanM.requestedControlled
    split
    · refine (emitControlled_yields settles₁).mono ?_
      rintro emitted p₂ ⟨resolves, settles₂⟩
      exact ⟨fun _ => resolves, settles₂⟩
    · exact .pure ⟨fun asked => absurd asked ‹_›, by simp [OperationTable.SettlesBlock]⟩
  unfold PlanM.emitVariants
  refine ((Growing.links.requestedAdjoints o d p).and adjoints).bind ?_
  rintro ⟨emitted, adjoint⟩ p₁ ⟨grows₁, resolves₁, settles₁⟩
  refine ((Growing.links.requestedControlled o d adjoint p₁).and
    (controlled adjoint p₁ (settles.mono grows₁.operations))).bind ?_
  rintro emitted' p₂ ⟨grows₂, resolves₂, settles₂⟩
  refine .pure ⟨?_, (settles₁.mono grows₂.operations).append settles₂⟩
  intro f asked
  cases f with
  | adjoint => exact grows₂.operations _ _ (resolves₁ asked)
  | controlled => exact resolves₂ asked

theorem emitProxies_yields (ordinal : Nat) (entries : List (Hoisted Unit)) :
    Yields (PlanM.emitProxies o ordinal entries) p fun emitted _ =>
      (emitted.map Prod.fst).flatMap StmtTree.defined = [] := by
  induction entries generalizing ordinal p with
  | nil => exact .pure rfl
  | cons entry entries ih =>
    refine .bind .any fun _ p₁ _ => (ih (ordinal + 1)).bind fun emitted p₂ without => ?_
    exact .pure (by simpa using without)

theorem emitBatch_yields (entries : List (Hoisted Unit)) (body : List StmtTerm) :
    Yields (PlanM.emitBatch o entries body) p fun stmts _ =>
      stmts.flatMap StmtTree.defined ⊆ body.flatMap StmtTree.defined := by
  unfold PlanM.emitBatch
  cases (entries.map Hoisted.index).min? with
  | none => exact .pure (List.Subset.refl _)
  | some position =>
    refine (emitProxies_yields 1 entries).bind fun emitted p₁ without => .bind .any fun _ _ _ => ?_
    refine .pure ?_
    have split := congrArg (List.flatMap StmtTree.defined) (List.take_append_drop position body)
    simp only [List.flatMap_append, without, PlanM.execution, List.flatMap_cons,
      StmtTree.defined_assign, List.flatMap_nil, List.append_nil] at split ⊢
    rw [split]
    exact List.Subset.refl _

theorem lowerConditional_yields (test : ExprTerm) (body orelse : List StmtTerm) :
    Yields (PlanM.lowerConditional o test body orelse) p fun s _ =>
      s.defined ⊆ body.flatMap StmtTree.defined := by
  unfold PlanM.lowerConditional
  split
  · refine .lift_bind fun operands _ => .bind .any fun control p₁ _ => ?_
    rw [Yields.get_bind]
    refine .lift_bind fun rs ended => .bind .any fun _ _ _ => .pure ?_
    rw [StmtTree.defined_scoped]
    exact defined_controlStmts ended
  · exact .throw

/-- Every definition left by lowering has the variants that its markers ask for. -/
theorem Lowers.settles {body rs : List StmtTerm} {p' : Progress} (lowers : Lowers o p body rs p') :
    p'.operations.SettlesBlock rs := by
  have without : ∀ (known : OperationTable) (s : StmtTerm), s.defined = [] →
      known.SettlesBlock [s] := by
    intro known s empty d member
    simp [empty] at member
  induction lowers with
  | nil => simp [OperationTable.SettlesBlock]
  | append _ second ih ih' => exact (ih.mono second.grows.operations).append ih'
  | standing _ _ ih => exact ih
  | importAs | wire | pass | expr | assign => exact without _ _ (by simp)
  | define _ emits ih =>
    have grows := Growing.links.emitVariants o _ _ _ _ emits
    obtain ⟨settled, settles⟩ := emitVariants_yields ih _ _ emits
    intro e member
    rw [List.flatMap_cons, StmtTree.defined_define, List.cons_append, List.mem_cons,
      List.mem_append] at member
    rcases member with rfl | member | member
    · exact settled
    · exact (ih.mono grows.operations) e member
    · exact settles e member
  | classDef _ _ ih => exact ih.subset (by simp)
  | allocation _ _ _ _ emits ih =>
    have grows := Growing.links.emitBatch o _ _ _ _ _ emits
    have fewer := emitBatch_yields _ _ _ _ emits
    exact ((ih.mono grows.operations).subset fewer).subset (by simp)
  | «scope» _ _ _ _ ih => exact ih.subset (by simp)
  | classical _ _ _ second ih ih' =>
    exact ((ih.mono second.grows.operations).append ih').subset (by simp)
  | quantum _ _ second emits ih ih' =>
    have grows := second.grows.trans (Growing.links.lowerConditional o _ _ _ _ _ _ emits)
    have fewer := lowerConditional_yields _ _ _ _ _ emits
    exact (ih.mono grows.operations).subset (by simpa using fewer)

end Settle

end QuantumLowering
