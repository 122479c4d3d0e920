import QuantumLowering.Proofs.Lowering.Hygiene

/-!
The statements that lowering comes to, whether it succeeds in the end or not. A statement is lowered in a
state if an error raised there, whichever it is, is how the run ends. While a module that passes
validation is lowered, such a statement is one of the module: the tree still holds it as it was, and the
names of the module are taken.
-/

namespace QuantumLowering

/-- A statement, the state it is lowered in, and how deep the statements in it may be nested. -/
structure Visit where
  depth : Nat
  id : NodeId
  state : LoweringState

open Classical in
noncomputable def LowerM.lowerUntil (visit : Visit) (e : LoweringError) :
    Nat → NodeId → LowerM (List NodeId)
  | 0, id => throw (.tree (.cyclic id))
  | depth + 1, id => fun s =>
    if ⟨depth, id, s⟩ = visit then .error e s else lowerOne (lowerUntil visit e depth) id s

open LowerM TreeM in
noncomputable def Pass.lowerModuleUntil (visit : Visit) (e : LoweringError) : Pass :=
  { Pass.lowerModule with
    run := do
      let t ← tree
      let body ← lowerBlock (lowerUntil visit e t.depthBound) t.body
      setBody body }

/-- While the module is lowered, the statement of the visit is lowered in its state: whatever error is
raised there, it ends the run. The run leaves the state as it is there, except that the method flag is
put back on the way out. -/
def SyntaxTree.Visits (t : SyntaxTree) (o : Options) (boilerplate : Bool) (visit : Visit) : Prop :=
  ∀ e, ∃ inside, (Pipeline.front boilerplate ++ [Pass.lowerModuleUntil visit e]).run ⟨t, .new o⟩ =
    .error e { visit.state with context.insideMethod := inside }

/-- The run is the other one, or it stops with the error in the state, apart from the method flag. -/
def LowerM.CutOff {α : Type} (e : LoweringError) (state : LoweringState) (act act' : LowerM α) : Prop :=
  ∀ s, act s = act' s ∨ ∃ inside, act s = .error e { state with context.insideMethod := inside }

namespace LowerM.CutOff

variable {α β : Type} {e : LoweringError} {state : LoweringState}

theorem refl (act : LowerM α) : CutOff e state act act := fun _ => .inl rfl

theorem bind {act act' : LowerM α} {f f' : α → LowerM β} (first : CutOff e state act act')
    (rest : ∀ a, CutOff e state (f a) (f' a)) : CutOff e state (act >>= f) (act' >>= f') := by
  intro s
  rcases first s with same | ⟨inside, stopped⟩
  · simp only [Bind.bind, EStateM.bind, same]
    cases act' s with
    | ok a s' => exact rest a s'
    | error e' s' => exact .inl rfl
  · exact .inr ⟨inside, by simp only [Bind.bind, EStateM.bind, stopped]⟩

theorem after (act : LowerM α) {f f' : α → LowerM β} (rest : ∀ a, CutOff e state (f a) (f' a)) :
    CutOff e state (act >>= f) (act >>= f') :=
  (refl act).bind rest

theorem mapM {f f' : α → LowerM β} (each : ∀ a, CutOff e state (f a) (f' a)) (xs : List α) :
    CutOff e state (xs.mapM f) (xs.mapM f') := by
  induction xs with
  | nil => exact .refl _
  | cons x xs ih =>
    rw [List.mapM_cons, List.mapM_cons]
    exact (each x).bind fun _ => ih.bind fun _ => .refl _

theorem withInsideMethod {act act' : LowerM α} (inside : Bool) (cut : CutOff e state act act') :
    CutOff e state (withInsideMethod inside act) (withInsideMethod inside act') := by
  refine .after _ fun outer s => ?_
  rcases cut s with same | ⟨flag, stopped⟩
  · exact .inl (by simp only [same])
  · exact .inr ⟨outer, by simp only [stopped]⟩

section Step

variable {lower lower' : NodeId → LowerM (List NodeId)}
  (each : ∀ id, CutOff e state (lower id) (lower' id))

include each

theorem lowerBlock (block : List NodeId) :
    CutOff e state (LowerM.lowerBlock lower block) (LowerM.lowerBlock lower' block) :=
  (mapM each block).bind fun _ => .refl _

theorem lowerAllocation (id : NodeId) (body : List NodeId) :
    CutOff e state (LowerM.lowerAllocation lower id body) (LowerM.lowerAllocation lower' id body) := by
  have allocated : ∀ lowered, CutOff e state (lowerAllocated lower lowered body)
      (lowerAllocated lower' lowered body) := by
    induction body with
    | nil => exact fun lowered => .refl _
    | cons nested rest ih => exact fun lowered => .after _ fun _ => (each nested).bind fun ids => ih _
  exact .after _ fun _ => (allocated []).bind fun _ => .refl _

theorem lowerOne (id : NodeId) :
    CutOff e state (LowerM.lowerOne lower id) (LowerM.lowerOne lower' id) := by
  refine .after _ fun s => ?_
  cases s with
  | define d =>
    exact .after _ fun _ => ((lowerBlock each d.body).withInsideMethod false).bind fun _ => .refl _
  | classDef name body =>
    exact ((lowerBlock each body).withInsideMethod true).bind fun _ => .refl _
  | «scoped» context binding body =>
    refine bind (.after _ fun t => .after _ fun o => .after _ fun allocates => ?_) fun _ => .refl _
    split
    · exact .after _ fun _ => lowerAllocation each id body
    · exact .after _ fun _ => (lowerBlock each body).bind fun _ => .refl _
  | conditional test body orelse =>
    refine bind (.after _ fun t => .after _ fun o => .after _ fun quantum => ?_) fun _ => .refl _
    have branches : ∀ finish : LowerM Unit, CutOff e state
        (do
          let body ← LowerM.lowerBlock lower body
          let orelse ← LowerM.lowerBlock lower orelse
          TreeM.setBranches id body orelse
          finish)
        (do
          let body ← LowerM.lowerBlock lower' body
          let orelse ← LowerM.lowerBlock lower' orelse
          TreeM.setBranches id body orelse
          finish) :=
      fun finish => (lowerBlock each body).bind fun _ => (lowerBlock each orelse).bind fun _ => .refl _
    cases quantum with
    | true => exact branches _
    | false => exact .after _ fun _ => branches _
  | expr _ | assign _ _ | importAs _ _ | wire _ _ _ | pass => exact .refl _

end Step

end LowerM.CutOff

theorem lowerUntil_cutOff (visit : Visit) (e : LoweringError) (depth : Nat) (id : NodeId) :
    LowerM.CutOff e visit.state (LowerM.lowerUntil visit e depth id)
      (LowerM.lowerStatementWithin depth id) := by
  induction depth generalizing id with
  | zero => exact .refl _
  | succ depth ih =>
    intro s
    by_cases here : ⟨depth, id, s⟩ = visit
    · subst here
      exact .inr ⟨s.context.insideMethod, if_pos rfl⟩
    · have passed : LowerM.lowerUntil visit e (depth + 1) id s =
          LowerM.lowerOne (LowerM.lowerUntil visit e depth) id s := if_neg here
      rw [passed]
      exact LowerM.CutOff.lowerOne ih id s

theorem lowerModuleUntil_cutOff (visit : Visit) (e : LoweringError) :
    LowerM.CutOff e visit.state (Pass.lowerModuleUntil visit e).run Pass.lowerModule.run :=
  .after _ fun t => (LowerM.CutOff.lowerBlock (lowerUntil_cutOff visit e t.depthBound) t.body).bind
    fun _ => .refl _

structure Visit.Enters (o : Options) (known : List String) (visit : Visit) (s : StmtTree NodeId)
    (p : Progress) : Prop where
  label : s.label = visit.id
  bound : s.height ≤ visit.depth + 1
  names : s.erase.names ⊆ known
  identifiers : s.erase.identifiers ⊆ o.boilerplateAlias :: known
  matched : Matches o visit.state.context p
  owned : Owns visit.state.tree s.cells

section Until

variable {o : Options} {known : List String} {visit : Visit} {e : LoweringError} {t : SyntaxTree}
  {c : Context} {p : Progress}

theorem issued_lowerUntil (depth : Nat) (id : NodeId) :
    Respects Issued (LowerM.lowerUntil visit e depth id) := by
  induction depth generalizing id with
  | zero => exact progressive_issued.throw _
  | succ depth ih =>
    intro s
    by_cases here : ⟨depth, id, s⟩ = visit
    · simp only [LowerM.final, LowerM.lowerUntil, if_pos here]
      exact .of_eq rfl
    · simp only [LowerM.final, LowerM.lowerUntil, if_neg here]
      exact issued_lowerOne ih id s

theorem lowerUntil_runs (never : ¬ ∃ s p, visit.Enters o known s p) {depth : Nat}
    (s : StmtTree NodeId) (bound : s.height ≤ depth) (names : s.erase.names ⊆ known)
    (identifiers : s.erase.identifiers ⊆ o.boilerplateAlias :: known) (matched : Matches o c p)
    (owned : Owns t s.cells) :
    RunsM (LowerM.lowerUntil visit e depth s.label) t c (PlanM.lowerStmt o s.erase) p
      fun r p₁ ids t₁ c₁ => ∃ new, InPlace s.cells t r ids t₁ new ∧ Tracks c p c₁ p₁ new := by
  induction s using StmtTree.induct generalizing t c p depth with
  | step s ih =>
    obtain ⟨depth, rfl⟩ : ∃ d, depth = d + 1 := ⟨depth - 1, by have := s.height_pos; omega⟩
    have follows : Follows o (LowerM.lowerUntil visit e depth) s.inner := by
      intro part inside t c p matched own
      have := StmtTree.height_inner inside
      have erased : part.erase ∈ s.erase.inner := s.inner_erase ▸ List.mem_map_of_mem inside
      exact ih part inside (by omega) (List.Subset.trans (StmtTree.names_inner erased) names)
        (List.Subset.trans (StmtTree.identifiers_inner erased) identifiers) matched own
    have elsewhere : (⟨depth, s.label, ⟨t, c⟩⟩ : Visit) ≠ visit := by
      rintro rfl
      exact never ⟨s, p, rfl, bound, names, identifiers, matched, owned⟩
    have passed : LowerM.lowerUntil visit e (depth + 1) s.label ⟨t, c⟩ =
        LowerM.lowerOne (LowerM.lowerUntil visit e depth) s.label ⟨t, c⟩ := if_neg elsewhere
    have run := lowerOne_runs s follows matched owned
    unfold RunsM Runs at run ⊢
    rwa [passed]

end Until

section Module

variable {o : Options} {boilerplate : Bool} {visit : Visit} {t : SyntaxTree}
  {body : List (StmtTree NodeId)}

theorem preparedBody_uses {body : List StmtTerm} {s : StmtTerm}
    (member : s ∈ preparedBody o boilerplate body) :
    s.names ⊆ body.flatMap StmtTree.identifiers ∧
      s.identifiers ⊆ o.boilerplateAlias :: body.flatMap StmtTree.identifiers := by
  rw [preparedBody_eq, List.mem_append] at member
  rcases member with injected | inside
  · rw [eq_of_mem_injectedImport injected, StmtTree.names_eq, StmtTree.identifiers_importAs]
    exact ⟨by simp [StmtTree.exprs, StmtTree.inner], by simp⟩
  · have used : s.identifiers ⊆ body.flatMap StmtTree.identifiers :=
      fun x named => List.mem_flatMap.2 ⟨s, inside, named⟩
    exact ⟨List.Subset.trans s.names_subset_identifiers used, List.subset_cons_of_subset _ used⟩

theorem issued_lowerModuleUntil (visit : Visit) (e : LoweringError) :
    Respects Issued (Pass.lowerModuleUntil visit e).step :=
  have prog := progressive_issued
  issued_step <| prog.tree_bind fun _ =>
    prog.bind (issued_lowerBlock (issued_lowerUntil _) _) fun _ => prog.treeM _

theorem Placed.enters (placed : Placed t body) (visits : t.Visits o boilerplate visit) :
    (∃ s p, visit.Enters o ((body.map StmtTree.erase).flatMap StmtTree.identifiers) s p) ∧
      (body.map StmtTree.erase).flatMap StmtTree.identifiers ⊆ visit.state.context.names.taken := by
  obtain ⟨t₁, body₁, front, placed₁, same⟩ := run_front placed o boilerplate
  have matched := matches_start o body
  set c := (Context.new o).enterAll (body.flatMap StmtTree.cells)
  have stops : ∀ e, ∃ inside, (Pass.lowerModuleUntil visit e).step ⟨t₁, c⟩ =
      .error e { visit.state with context.insideMethod := inside } := by
    intro e
    obtain ⟨inside, ended⟩ := visits e
    rw [Pipeline.run_append, LowerM.run_bind front] at ended
    exact ⟨inside, by simpa [Pipeline.run_eq] using ended⟩
  obtain ⟨inside, stopped⟩ := stops (.tree (.cyclic 0))
  constructor
  · by_contra never
    have follows : Follows o (LowerM.lowerUntil visit (.tree (.cyclic 0)) t₁.depthBound) body₁ := by
      intro s member t c p matched own
      have height := (Holds.flatMap_iff.1 placed₁.owned.held s member).height_stmt
      have used := preparedBody_uses (same ▸ List.mem_map_of_mem member)
      exact lowerUntil_runs never s (Nat.le_succ_of_le height) used.1 used.2 matched own
    have run := lowerBlock_runs follows matched placed₁.owned
    rw [placed₁.labels] at run
    have whole : RunsM (Pass.lowerModuleUntil visit (.tree (.cyclic 0))).step t₁ c
        ((body₁.map StmtTree.erase).mapM (PlanM.lowerStmt o)) (.start o body)
        fun _ _ _ _ _ => True := by
      rw [Pass.step_eq fun _ => rfl, Pass.lowerModuleUntil, RunsM.tree_bind]
      exact run.andThen fun _ _ _ _ _ _ => Runs.treeM (show TreeM.setBody _ _ = _ from rfl) trivial
    -- a plan is refused for other reasons
    obtain ⟨reason, -, failed⟩ := whole.exists_of_error stopped
    cases reason <;> cases failed
  · obtain ⟨names, issues⟩ := issued_lowerModuleUntil visit (.tree (.cyclic 0)) ⟨t₁, c⟩
    rw [LowerM.final, stopped] at issues
    exact fun x used => issues.mem_taken.2 (.inr (matched.names ▸ identifiers_subset_start o body used))

theorem visits_first {s : LoweringState} {id : NodeId} {rest : List NodeId}
    (front : (Pipeline.front boilerplate).run ⟨t, .new o⟩ = .ok () s) (first : s.tree.body = id :: rest) :
    t.Visits o boilerplate ⟨s.tree.size, id, s⟩ := by
  intro e
  have stopped : LowerM.lowerUntil ⟨s.tree.size, id, s⟩ e s.tree.depthBound id s = .error e s :=
    if_pos rfl
  have ended : (Pass.lowerModuleUntil ⟨s.tree.size, id, s⟩ e).step s = .error e s := by
    show (LowerM.lowerBlock (LowerM.lowerUntil ⟨s.tree.size, id, s⟩ e s.tree.depthBound) s.tree.body >>=
      fun body => (liftM (TreeM.setBody body) : LowerM Unit)) s = .error e s
    rw [first, LowerM.lowerBlock, List.mapM_cons]
    simp only [Bind.bind, EStateM.bind, stopped]
  refine ⟨s.context.insideMethod, ?_⟩
  rw [Pipeline.run_append, LowerM.run_bind front]
  simpa [Pipeline.run_eq] using ended

end Module

end QuantumLowering
