import QuantumLowering.Proofs.Lowering.Batching
import QuantumLowering.Proofs.Lowering.Effects
import QuantumLowering.Proofs.Lowering.Start

namespace QuantumLowering

namespace StmtTree

variable {α : Type}

def plainHere (o : Options) : StmtTree α → Bool
  | .define _ d => d.markers = .none
  | .conditional _ test _ _ => !test.isCallTo o.conditionFn
  | _ => true

/-- Neither is anywhere in the statement. -/
def plain (o : Options) (s : StmtTree α) : Bool :=
  s.plainHere o && s.inner.attach.all fun part => plain o part.1
termination_by sizeOf s
decreasing_by exact sizeOf_inner part.2

theorem plain_iff {o : Options} {s : StmtTree α} :
    s.plain o ↔ s.plainHere o ∧ ∀ part ∈ s.inner, part.plain o := by
  rw [plain, Bool.and_eq_true, List.all_eq_true]
  simp

end StmtTree

variable {o : Options} {known : List String}

theorem restore_scoped_kept {context : ExprTerm} {binding : Option ExprTerm} {rs : List StmtTerm}
    (kept : ∀ r ∈ rs, r.emitted known = false) :
    StmtTree.restore known (.scoped () context binding rs) =
      .scoped () context binding (rs.map (StmtTree.restore known)) := by
  have all : rs.filter (fun r => !r.emitted known) = rs :=
    List.filter_eq_self.2 fun r member => by simp [kept r member]
  have batch : rs.filter (StmtTree.emitted known) = [] :=
    List.filter_eq_nil_iff.2 fun r member => by simp [kept r member]
  rw [StmtTree.restore_scoped, all, batch]
  simp only [StmtTree.subst_bindings_nil]

/-- The block can be restored from the statements, whatever undoes the measurements taken out of it. -/
structure Recovers (known : List String) (body rs : List StmtTerm) (new : List (Hoisted Unit)) :
    Prop where
  kept : ∀ r ∈ rs, r.emitted known = false
  undone : ∀ σ, Undoes known new σ → rs.map (fun r => (r.restore known).subst σ) = body

namespace Recovers

variable {body body' rs rs' : List StmtTerm} {new later : List (Hoisted Unit)}

theorem single {s r : StmtTerm} (kept : r.emitted known = false)
    (undone : ∀ σ, Undoes known new σ → (r.restore known).subst σ = s) :
    Recovers known [s] [r] new :=
  ⟨by simpa using kept, fun σ undoes => by simpa using undone σ undoes⟩

theorem append (first : Recovers known body rs new) (second : Recovers known body' rs' later) :
    Recovers known (body ++ body') (rs ++ rs') (new ++ later) := by
  constructor
  · intro r member
    rcases List.mem_append.1 member with member | member
    · exact first.kept r member
    · exact second.kept r member
  · intro σ undoes
    rw [List.map_append, first.undone σ undoes.left, second.undone σ undoes.right]

theorem subst_restore (recovers : Recovers known body rs new) {σ : Substitution}
    (undoes : Undoes known new σ) :
    (rs.map (StmtTree.restore known)).map (StmtTree.mapExprs (ExprTree.subst σ)) = body := by
  rw [List.map_map]
  exact recovers.undone σ undoes

end Recovers

theorem Searched.subst {inside : Bool} {e r : ExprTerm} {new : List (Hoisted Unit)}
    (search : Searched o known inside e r new) (named : e.names ⊆ known) {σ : Substitution}
    (undoes : Undoes known new σ) : r.subst σ = e := by
  cases search with
  | outside => exact undoes.subst_expr named
  | inside _ _ undone => exact undone σ undoes

section Undoes

variable {new : List (Hoisted Unit)} {σ : Substitution}

theorem Undoes.subst_binding (undoes : Undoes known new σ) {binding : Option ExprTerm}
    (named : ∀ e ∈ binding.toList, e.names ⊆ known) : binding.map (ExprTree.subst σ) = binding := by
  cases binding with
  | none => rfl
  | some e => exact congrArg some (undoes.subst_expr (named e (by simp)))

theorem Undoes.subst_block (undoes : Undoes known new σ) {body : List StmtTerm}
    (named : ∀ s ∈ body, s.names ⊆ known) : body.map (StmtTree.mapExprs (ExprTree.subst σ)) = body := by
  conv_rhs => rw [← body.map_id]
  exact List.map_congr_left fun s member => undoes.subst_stmt (named s member)

end Undoes

theorem StmtTree.plain_parts {s : StmtTerm} (plain : s.plain o) (named : s.names ⊆ known) :
    s.plainHere o ∧ (∀ e ∈ s.exprs, e.names ⊆ known) ∧
      ∀ part ∈ s.inner, part.plain o ∧ part.names ⊆ known := by
  obtain ⟨here, parts⟩ := plain_iff.1 plain
  refine ⟨here, fun e member => List.Subset.trans (names_exprs member) named, fun part member => ?_⟩
  exact ⟨parts part member, List.Subset.trans (names_inner member) named⟩

theorem Batched.recovers {inside : Bool} {body rs : List StmtTerm} {new : List (Hoisted Unit)}
    (batched : Batched o known inside body rs new)
    (each : ∀ s ∈ body, s.plain o ∧ s.names ⊆ known) : Recovers known body rs new := by
  have parts : ∀ {s : StmtTerm}, (∀ s' ∈ [s], s'.plain o ∧ s'.names ⊆ known) →
      s.plainHere o ∧ (∀ e ∈ s.exprs, e.names ⊆ known) ∧
        ∀ part ∈ s.inner, part.plain o ∧ part.names ⊆ known := fun each =>
    have alone := each _ (List.mem_singleton_self _)
    StmtTree.plain_parts alone.1 alone.2
  induction batched with
  | nil => exact ⟨by simp, fun _ _ => rfl⟩
  | append _ _ first second =>
    rw [List.forall_mem_append] at each
    exact (first each.1).append (second each.2)
  | importAs | wire | pass =>
    refine .single rfl fun σ _ => ?_
    simp only [StmtTree.restore]
    simp [StmtTree.subst]
  | @expr inside value r new search =>
    obtain ⟨-, exprs, -⟩ := parts each
    refine .single rfl fun σ undoes => ?_
    simp only [StmtTree.restore]
    simp [StmtTree.subst, search.subst (exprs value (by simp [StmtTree.exprs])) undoes]
  | @assign inside target value r new search =>
    obtain ⟨-, exprs, -⟩ := parts each
    have target_known := exprs target (by simp [StmtTree.exprs])
    refine .single ?_ fun σ undoes => ?_
    · simpa [StmtTree.emitted] using fun x member => target_known member
    · simp only [StmtTree.restore]
      simp [StmtTree.subst, search.subst (exprs value (by simp [StmtTree.exprs])) undoes,
        undoes.subst_expr target_known]
  | @define inside d rs variants within added unmarked ih =>
    obtain ⟨here, -, inner⟩ := parts each
    rw [unmarked (by simpa [StmtTree.plainHere] using here)]
    refine .single rfl fun σ undoes => ?_
    rw [StmtTree.restore_define, StmtTree.subst, StmtTree.mapExprs_define,
      (ih inner).subst_restore undoes]
  | classDef name within ih =>
    obtain ⟨-, -, inner⟩ := parts each
    refine .single rfl fun σ undoes => ?_
    rw [StmtTree.restore_classDef, StmtTree.subst, StmtTree.mapExprs_classDef,
      (ih inner).subst_restore undoes]
  | @allocation inside context r binding body rs stmts new found allocates search within once fresh
      batch ih =>
    obtain ⟨-, exprs, inner⟩ := parts each
    have recovers := ih inner
    have inBody : ∀ s ∈ body, s.names ⊆ known := fun s member => (inner s member).2
    obtain ⟨all, undone⟩ := batch.recovers recovers.kept once fresh
    refine .single rfl fun σ undoes => ?_
    rw [StmtTree.restore_scoped, all, recovers.undone _ undone, StmtTree.subst,
      StmtTree.mapExprs_scoped, search.subst (exprs context (by simp [StmtTree.exprs])) undoes,
      undoes.subst_binding fun e member => exprs e (List.mem_cons_of_mem _ member),
      undoes.subst_block inBody]
  | @scope inside context r binding body rs new later plain search within ih =>
    obtain ⟨-, exprs, inner⟩ := parts each
    have recovers := ih inner
    refine .single rfl fun σ undoes => ?_
    rw [restore_scoped_kept recovers.kept, StmtTree.subst, StmtTree.mapExprs_scoped,
      search.subst (exprs context (by simp [StmtTree.exprs])) undoes.left,
      undoes.subst_binding fun e member => exprs e (List.mem_cons_of_mem _ member),
      recovers.subst_restore undoes.right]
  | @classical inside test r body orelse rs rs' new new' new'' plain search _ _ first second =>
    obtain ⟨-, exprs, inner⟩ := parts each
    obtain ⟨inBody, inElse⟩ := List.forall_mem_append.1 inner
    refine .single rfl fun σ undoes => ?_
    rw [StmtTree.restore_conditional, StmtTree.subst, StmtTree.mapExprs_conditional,
      search.subst (exprs test (by simp [StmtTree.exprs])) undoes.left,
      (first inBody).subst_restore undoes.right.left, (second inElse).subst_restore undoes.right.right]
  | quantum control marked =>
    obtain ⟨here, -, -⟩ := parts each
    simp [StmtTree.plainHere, marked] at here

/-- The import that is put in front of the module. -/
def injectedImport (o : Options) (boilerplate : Bool) (body : List StmtTerm) : List StmtTerm :=
  if boilerplate && !body.any (StmtTree.importsBoilerplate o) then
    [.importAs () o.boilerplateModule o.boilerplateAlias]
  else []

theorem preparedBody_eq (o : Options) (boilerplate : Bool) (body : List StmtTerm) :
    preparedBody o boilerplate body = injectedImport o boilerplate body ++ body := by
  unfold preparedBody withImport injectedImport
  cases boilerplate <;> cases body.any (StmtTree.importsBoilerplate o) <;> rfl

theorem eq_of_mem_injectedImport {boilerplate : Bool} {body : List StmtTerm} {s : StmtTerm}
    (member : s ∈ injectedImport o boilerplate body) :
    s = .importAs () o.boilerplateModule o.boilerplateAlias := by
  unfold injectedImport at member
  split at member
  · exact List.mem_singleton.1 member
  · cases member

theorem lowerStmts_preparedBody (o : Options) (boilerplate : Bool) (body : List StmtTerm) :
    PlanM.lowerStmts o (preparedBody o boilerplate body) =
      (injectedImport o boilerplate body ++ ·) <$> PlanM.lowerStmts o body := by
  have import_ : (injectedImport o boilerplate body).mapM (PlanM.lowerStmt o) =
      pure ((injectedImport o boilerplate body).map ([·])) := by
    unfold injectedImport
    split
    · simp [PlanM.lowerStmt]
    · rfl
  have flat : ((injectedImport o boilerplate body).map ([·])).flatten =
      injectedImport o boilerplate body := by
    rw [← List.flatMap_def, List.flatMap_singleton']
  unfold PlanM.lowerStmts
  rw [preparedBody_eq, List.mapM_append, import_]
  simp [flat]

/-- A module that is lowered: the statements behind the injected import are those that its body is
lowered to, and the counts and the supply of names are those at the end. -/
theorem exists_lowers {t : SyntaxTree} {input : List StmtTerm} {lowered : Lowered}
    (kinded : t.WellKinded) (valid : t.validate = .ok ()) (reads : t.Reads t.body input)
    {boilerplate verification : Bool}
    (ended : t.lower o (.build boilerplate verification) = .ok lowered) :
    ∃ body rest p, Placed t body ∧ body.map StmtTree.erase = input ∧
      Lowers o (.start o body) input rest p ∧
      lowered.tree.Reads lowered.tree.body (injectedImport o boilerplate input ++ rest) ∧
      lowered.stats = p.stats ∧
      (LowerM.final (Pipeline.build boilerplate verification).run ⟨t, .new o⟩).context.names =
        p.names := by
  obtain ⟨body, placed⟩ := exists_placed kinded valid
  obtain rfl := reads.unique ⟨body, placed.labels, rfl, placed.owned.held⟩
  obtain ⟨planned, c, stmts, same, ran, -, stats, finished⟩ := exists_finished placed ended
  unfold modulePlan at same
  rw [lowerStmts_preparedBody] at same
  obtain ⟨⟨rest, p⟩, lowers, same⟩ := Plan.bind_eq_ok.1 same
  cases same
  refine ⟨body, rest, p, placed, rfl, lowerStmts_lowers _ _ _ _ lowers,
    ⟨stmts, finished.placed.labels, finished.erased, finished.placed.owned.held⟩,
    stats.trans finished.matched.stats, ?_⟩
  unfold LowerM.final
  rw [ran]
  exact finished.matched.names

theorem Recovers.restore_eq {body rs : List StmtTerm} (recovers : Recovers known body rs []) :
    rs.map (StmtTree.restore known) = body := by
  have restored := recovers.undone (fun _ => none) ⟨fun _ _ => rfl, by simp⟩
  have same : ∀ s : StmtTerm, s.subst (fun _ => none) = s :=
    fun s => StmtTree.subst_eq_self fun _ _ => rfl
  simpa only [same] using restored

/-- If a module without marked definitions and quantum conditionals is lowered, then behind the
injected import stand statements that give the module back: without the assignments to names that
the module does not use, and with the value of every measurement replaced by the measurement at its
position of the batch. -/
theorem restore_lower {t : SyntaxTree} {input : List StmtTerm} {lowered : Lowered}
    (kinded : t.WellKinded) (valid : t.validate = .ok ()) (reads : t.Reads t.body input)
    (plain : ∀ s ∈ input, s.plain o) {boilerplate verification : Bool}
    (ended : t.lower o (.build boilerplate verification) = .ok lowered) :
    ∃ rest, lowered.tree.Reads lowered.tree.body (injectedImport o boilerplate input ++ rest) ∧
      rest.map (StmtTree.restore (input.flatMap StmtTree.names)) = input := by
  obtain ⟨body, rest, p, -, rfl, lowers, read, -, -⟩ := exists_lowers kinded valid reads ended
  have named : ∀ s ∈ body.map StmtTree.erase,
      s.names ⊆ (body.map StmtTree.erase).flatMap StmtTree.names :=
    fun s member x inside => List.mem_flatMap.2 ⟨s, member, inside⟩
  obtain ⟨new, takes, batched⟩ := lowers.batches named (names_subset_start o body)
  obtain rfl := takes.closed rfl
  have recovers := batched.recovers fun s member => ⟨plain s member, named s member⟩
  exact ⟨rest, read, recovers.restore_eq⟩

theorem restore_lower_measuring :
    (∀ s ∈ [measuringBlock.erase], s.plain .default) ∧
      ∃ lowered, measuringModule.lower .default .standard = .ok lowered ∧
        lowered.stats.measurementsHoisted = 2 ∧
        ∃ rest, lowered.tree.Reads lowered.tree.body
          (.importAs () "quoll.boilerplate" "bp" :: rest) ∧
          rest.map (StmtTree.restore measuringBlock.erase.names) = [measuringBlock.erase] := by
  have placed := measuringModule_placed
  have reads : measuringModule.Reads measuringModule.body [measuringBlock.erase] :=
    ⟨[measuringBlock], placed.labels, rfl, placed.owned.held⟩
  have plain : ∀ s ∈ [measuringBlock.erase], s.plain .default := by
    decide +kernel
  have succeeds : (match measuringModule.lower .default .standard with
      | .ok lowered => lowered.stats.measurementsHoisted == 2
      | .error _ => false) = true := by decide +kernel
  refine ⟨plain, ?_⟩
  cases ended : measuringModule.lower .default .standard with
  | error e =>
    rw [ended] at succeeds
    cases succeeds
  | ok lowered =>
    rw [ended] at succeeds
    obtain ⟨rest, lowers, restored⟩ :=
      restore_lower placed.wellKinded placed.validate reads plain ended
    have imported : injectedImport .default true [measuringBlock.erase] =
        [.importAs () "quoll.boilerplate" "bp"] := by
      simp [injectedImport, measuringBlock, StmtTree.importsBoilerplate]
      exact ⟨rfl, rfl⟩
    rw [imported] at lowers
    exact ⟨lowered, rfl, by simpa using succeeds, rest, lowers, by simpa using restored⟩

end QuantumLowering
