import QuantumLowering.Proofs.Lowering.Effects
import QuantumLowering.Proofs.Lowering.Inference
import QuantumLowering.Proofs.Lowering.Naming
import QuantumLowering.Proofs.Lowering.Provenance

namespace QuantumLowering

open LowerM

variable {α β : Type}

def Issued (c c' : Context) : Prop := ∃ names, c.names.Issues names c'.names

theorem Issued.of_eq {c c' : Context} (same : c'.names = c.names) : Issued c c' :=
  ⟨[], same ▸ .done c.names⟩

theorem progressive_issued : Progressive Issued where
  refl c := .of_eq rfl
  trans := by
    rintro c c' c'' ⟨names, issues⟩ ⟨more, issues'⟩
    exact ⟨names ++ more, issues.append issues'⟩
  fresh c base := ⟨[_], .next base (.done _)⟩
  stats c stats := .of_eq rfl
  operations c known := .of_eq rfl

theorem issued_contextM {act : ContextM α}
    (each : ∀ c, match act c with | .ok _ c' | .error _ c' => Issued c c') :
    Respects Issued (liftM act : LowerM α) := by
  intro s
  have here := each s.context
  simp only [LowerM.final, liftM, monadLift, MonadLift.monadLift]
  cases ran : act s.context with
  | ok a c' => rwa [ran] at here
  | error e c' => rwa [ran] at here

theorem issued_recordMeasurement (call : NodeId) :
    Respects Issued (liftM (ContextM.recordMeasurement call) : LowerM (Option String)) := by
  refine issued_contextM fun c => ?_
  obtain nothing | ⟨frame, frames, table, tables, base, -, -, ran⟩ :=
    ContextM.recordMeasurement_cases call c
  · rw [nothing]
    exact .of_eq rfl
  · rw [ran]
    exact ⟨[_], .next base (.done _)⟩

theorem issued_enterStatement (index : Nat) :
    Respects Issued (liftM (ContextM.enterStatement index) : LowerM Unit) := by
  refine issued_contextM fun c => ?_
  obtain failed | ⟨frame, frames, -, ran⟩ := ContextM.enterStatement_cases index c
  · rw [failed]
    exact .of_eq rfl
  · rw [ran]
    exact .of_eq rfl

theorem issued_popAllocation (block : NodeId) :
    Respects Issued (liftM (ContextM.popAllocation block) : LowerM (List HoistEntry)) := by
  refine issued_contextM fun c => ?_
  obtain ⟨-, failed⟩ | ⟨-, failed⟩ | ⟨frame, frames, table, tables, -, -, ran⟩ :=
    ContextM.popAllocation_cases block c
  · rw [failed]
    exact .of_eq rfl
  · rw [failed]
    exact .of_eq rfl
  · rw [ran]
    by_cases same : frame.block = block
    · rw [if_pos same]
      exact .of_eq rfl
    · rw [if_neg same]
      exact .of_eq rfl

theorem issued_checkBalanced : Respects Issued (liftM ContextM.checkBalanced : LowerM Unit) := by
  refine issued_contextM fun c => ?_
  obtain balanced | ⟨e, failed⟩ := ContextM.checkBalanced_cases c
  · rw [balanced]
    exact .of_eq rfl
  · rw [failed]
    exact .of_eq rfl

theorem issued_resumeAllocations (suspended : Suspended) :
    Respects Issued (liftM (ContextM.resumeAllocations suspended) : LowerM Unit) := by
  refine issued_contextM fun c => ?_
  obtain ran | ⟨e, failed⟩ := ContextM.resumeAllocations_cases suspended c
  · rw [ran]
    exact .of_eq rfl
  · rw [failed]
    exact .of_eq rfl

theorem issued_withInsideMethod {inside : Bool} {act : LowerM α} (issued : Respects Issued act) :
    Respects Issued (withInsideMethod inside act) := by
  refine progressive_issued.bind (fun s => .of_eq rfl) fun outer s => ?_
  have run := issued s
  unfold LowerM.final at run ⊢
  cases ran : act s with
  | ok a s' =>
    simp only [ran] at run ⊢
    exact run
  | error e s' =>
    simp only [ran] at run ⊢
    exact run

theorem issued_replaceMeasurements (expr : NodeId) : Respects Issued (replaceMeasurements expr) := by
  have prog := progressive_issued
  have hoisted : ∀ site, Respects Issued (hoistMeasurement site) := by
    intro site
    refine prog.treeM_bind fun call => prog.treeM_bind fun moved => ?_
    refine prog.bind (issued_recordMeasurement moved) fun placeholder => ?_
    cases placeholder with
    | none => exact prog.throw _
    | some placeholder => exact prog.treeM _
  refine prog.context_bind fun c => ?_
  split
  · exact prog.pure ()
  · refine prog.tree_bind fun t => prog.options_bind fun o => prog.except_bind fun sites => ?_
    exact prog.forM fun site _ => hoisted site

section Step

variable {lower : NodeId → LowerM (List NodeId)}

theorem issued_lowerBlock (each : ∀ id, Respects Issued (lower id)) (block : List NodeId) :
    Respects Issued (lowerBlock lower block) :=
  progressive_issued.bind (progressive_issued.mapM fun id _ => each id) fun _ =>
    progressive_issued.pure _

theorem issued_lowerDefinition (each : ∀ id, Respects Issued (lower id)) (id : NodeId)
    (d : Definition NodeId) : Respects Issued (lowerDefinition lower id d) := by
  have prog := progressive_issued
  have aside : Respects Issued (liftM ContextM.suspendAllocations : LowerM Suspended) :=
    fun s => .of_eq rfl
  refine prog.bind aside fun suspended => ?_
  refine prog.bind (issued_withInsideMethod (issued_lowerBlock each d.body)) fun body => ?_
  refine prog.bind (issued_resumeAllocations suspended) fun _ => prog.treeM_bind fun _ => ?_
  exact prog.bind (prog.emitVariants _) fun variants => prog.pure _

theorem issued_lowerAllocation (each : ∀ id, Respects Issued (lower id)) (id : NodeId)
    (body : List NodeId) : Respects Issued (lowerAllocation lower id body) := by
  have prog := progressive_issued
  have allocated : ∀ lowered, Respects Issued (lowerAllocated lower lowered body) := by
    induction body with
    | nil => exact fun lowered => prog.pure lowered
    | cons nested rest ih =>
      intro lowered
      exact prog.bind (issued_enterStatement _) fun _ => prog.bind (each nested) fun ids => ih _
  have opened : Respects Issued (liftM (ContextM.pushAllocation id) : LowerM Unit) :=
    fun s => .of_eq rfl
  refine prog.bind opened fun _ => prog.bind (allocated []) fun lowered => ?_
  refine prog.bind (issued_popAllocation id) fun entries => ?_
  exact prog.bind (prog.emitBatch entries lowered) fun _ => prog.treeM _

theorem issued_lowerOne (each : ∀ id, Respects Issued (lower id)) (id : NodeId) :
    Respects Issued (lowerOne lower id) := by
  have prog := progressive_issued
  refine prog.treeM_bind fun s => ?_
  cases s with
  | expr value => exact prog.bind (issued_replaceMeasurements value) fun _ => prog.pure _
  | assign target value => exact prog.bind (issued_replaceMeasurements value) fun _ => prog.pure _
  | define d => exact issued_lowerDefinition each id d
  | classDef name body =>
    refine prog.bind (issued_withInsideMethod (issued_lowerBlock each body)) fun _ => ?_
    exact prog.treeM_bind fun _ => prog.pure _
  | «scoped» context binding body =>
    refine prog.bind ?_ fun _ => prog.pure _
    refine prog.tree_bind fun t => prog.options_bind fun o => prog.except_bind fun allocates => ?_
    split
    · exact prog.bind (issued_replaceMeasurements context) fun _ =>
        issued_lowerAllocation each id body
    · exact prog.bind (issued_replaceMeasurements context) fun _ =>
        prog.bind (issued_lowerBlock each body) fun _ => prog.treeM _
  | conditional test body orelse =>
    refine prog.bind ?_ fun _ => prog.pure _
    refine prog.tree_bind fun t => prog.options_bind fun o => prog.except_bind fun quantum => ?_
    have branches : ∀ finish : LowerM Unit, Respects Issued finish → Respects Issued (do
        let body ← lowerBlock lower body
        let orelse ← lowerBlock lower orelse
        TreeM.setBranches id body orelse
        finish) := by
      intro finish finished
      refine prog.bind (issued_lowerBlock each body) fun _ => ?_
      exact prog.bind (issued_lowerBlock each orelse) fun _ => prog.treeM_bind fun _ => finished
    cases quantum with
    | true => exact branches _ (prog.lowerConditional id)
    | false =>
      exact prog.bind (issued_replaceMeasurements test) fun _ => branches _ (prog.pure ())
  | importAs _ _ | wire _ _ _ | pass => exact prog.pure _

end Step

theorem issued_lowerStatementWithin (depth : Nat) (id : NodeId) :
    Respects Issued (lowerStatementWithin depth id) := by
  induction depth generalizing id with
  | zero => exact progressive_issued.throw _
  | succ depth ih => exact issued_lowerOne ih id

theorem issued_verifyNode (t : SyntaxTree) (known : OperationTable) (seen : List NodeId) (id : NodeId) :
    Respects Issued (Pass.verifyNode t known seen id) := by
  have prog := progressive_issued
  unfold Pass.verifyNode
  split
  · exact prog.throw_bind _ _
  · refine prog.except_bind fun node => ?_
    split
    · split
      · exact prog.throw _
      · exact prog.pure _
    · exact prog.pure _

theorem issued_step {pass : Pass} (issued : Respects Issued pass.run) : Respects Issued pass.step := by
  refine progressive_issued.bind (fun s => .of_eq rfl) fun s => ?_
  split
  · exact issued
  · exact progressive_issued.pure ()

theorem issued_passes (boilerplate verification : Bool) :
    ∀ pass ∈ (Pipeline.build boilerplate verification).tail, Respects Issued pass.step := by
  have prog := progressive_issued
  have injected : Respects Issued Pass.injectBoilerplate.step := issued_step <|
    prog.options_bind fun o => prog.treeM_bind fun id => prog.tree_bind fun t => prog.treeM _
  have lowered : Respects Issued Pass.lowerModule.step := issued_step <|
    prog.tree_bind fun t => prog.bind (issued_lowerBlock (issued_lowerStatementWithin _) _) fun _ =>
      prog.treeM _
  have verified : Respects Issued Pass.verifyOutcome.step := issued_step <| by
    refine prog.bind issued_checkBalanced fun _ => prog.tree_bind fun t =>
      prog.operations_bind fun known => ?_
    refine prog.bind (prog.foldlM (fun seen root => ?_) []) fun _ => prog.pure ()
    exact prog.except_bind fun ids => prog.foldlM (issued_verifyNode t known) seen
  have listed : (Pipeline.build boilerplate verification).tail ⊆
      [.injectBoilerplate, .lowerModule, .verifyOutcome] := by
    cases boilerplate <;> cases verification <;> simp [Pipeline.build]
  intro pass member
  have known := listed member
  simp only [List.mem_cons, List.not_mem_nil, or_false] at known
  rcases known with rfl | rfl | rfl
  · exact injected
  · exact lowered
  · exact verified

theorem Placed.mem_identifiers {t : SyntaxTree} {body : List (StmtTree NodeId)} (placed : Placed t body)
    {x : String} (uses : t.Uses x) : x ∈ (body.map StmtTree.erase).flatMap StmtTree.identifiers := by
  obtain ⟨id, node, reach, found, inside⟩ := uses
  obtain ⟨node', listed⟩ := reachable_placed placed.labels placed.owned.held reach
  cases found.symm.trans (placed.owned.held _ listed)
  rw [← identifiers_cells]
  exact List.mem_flatMap.2 ⟨_, listed, inside⟩

theorem identifiers_modulePlan {o : Options} {boilerplate : Bool} {body : List (StmtTree NodeId)}
    {output : List StmtTerm} {p : Progress} (planned : modulePlan o boilerplate body = .ok (output, p)) :
    output.flatMap StmtTree.identifiers ⊆ p.allowed o := by
  have uses : (preparedBody o boilerplate (body.map StmtTree.erase)).flatMap StmtTree.identifiers ⊆
      (Progress.start o body).allowed o := by
    intro x member
    rw [preparedBody_eq, List.flatMap_append, List.mem_append] at member
    rcases member with injected | inside
    · obtain ⟨s, listed, used⟩ := List.mem_flatMap.1 injected
      rw [eq_of_mem_injectedImport listed, StmtTree.identifiers_importAs] at used
      rw [List.mem_singleton.1 used]
      exact List.mem_cons_self
    · exact List.mem_cons_of_mem _ (identifiers_subset_start o body inside)
  have empty : (Progress.start o body).pending = [] := rfl
  exact ((lowerStmts_lowers _ _ _ _ planned).draws uses (by simp [empty])).names

theorem mem_taken_of_lowered_uses {t : SyntaxTree} {o : Options} {boilerplate verification : Bool}
    {lowered : Lowered} {x : String} (kinded : t.WellKinded) (valid : t.validate = .ok ())
    (ended : t.lower o (.build boilerplate verification) = .ok lowered) (uses : lowered.tree.Uses x) :
    x = o.boilerplateAlias ∨ x ∈ (LowerM.final (Pipeline.build boilerplate verification).run
      ⟨t, .new o⟩).context.names.taken := by
  obtain ⟨body, placed⟩ := exists_placed kinded valid
  obtain ⟨plan, c, stmts, planned, ran, -, -, finished⟩ := exists_finished placed ended
  unfold LowerM.final
  rw [ran]
  have listed := finished.placed.mem_identifiers uses
  rw [finished.erased] at listed
  have allowed := identifiers_modulePlan planned listed
  rw [Progress.allowed, ← finished.matched.names] at allowed
  exact List.mem_cons.1 allowed

/-- What a run takes from the supply, however it ends: names that are all different and that the module
does not use, on top of the names that the first pass has reserved. -/
theorem run_taken (t : SyntaxTree) (o : Options) (boilerplate verification : Bool) :
    ∃ reserved handed : List String,
      (LowerM.final (Pipeline.build boilerplate verification).run ⟨t, .new o⟩).context.names.taken =
        handed.reverse ++ reserved ∧
      (∀ c, Pass.inferOperations.run ⟨t, .new o⟩ = .ok () ⟨t, c⟩ → c.names.taken = reserved) ∧
      (∀ x ∈ reserved, t.Uses x) ∧ handed.Nodup ∧ ∀ x ∈ handed, ¬ t.Uses x := by
  obtain ⟨reserved, c, supply, used, outcome⟩ := inferOperations_outcome t o
  have known : ∀ x, x ∈ c.names.taken ↔ x ∈ reserved := by
    intro x
    rw [supply, NameSupply.mem_taken_foldl_reserve]
    simp [NameSupply.empty]
  have split : (Pipeline.build boilerplate verification).run = Pass.inferOperations.run >>= fun _ =>
      (Pipeline.build boilerplate verification).tail.forM Pass.step := rfl
  refine ⟨c.names.taken, ?_⟩
  rcases outcome with ⟨ran, all⟩ | ⟨e, failed⟩
  · have same : LowerM.final (Pipeline.build boilerplate verification).run ⟨t, .new o⟩ =
        LowerM.final ((Pipeline.build boilerplate verification).tail.forM Pass.step) ⟨t, c⟩ := by
      unfold LowerM.final
      rw [split, LowerM.run_bind ran]
    obtain ⟨handed, issues⟩ :=
      progressive_issued.forM (issued_passes boilerplate verification) ⟨t, c⟩
    rw [← same] at issues
    refine ⟨handed, issues.taken_eq, fun c' ran' => ?_, fun x member => used x ((known x).1 member),
      issues.nodup, fun x member uses => issues.not_mem member ((known x).2 (all x uses))⟩
    cases ran.symm.trans ran'
    rfl
  · have same : LowerM.final (Pipeline.build boilerplate verification).run ⟨t, .new o⟩ = ⟨t, c⟩ := by
      unfold LowerM.final
      rw [split]
      simp only [Bind.bind, EStateM.bind, failed]
    refine ⟨[], by rw [same]; rfl, fun c' ran => ?_, fun x member => used x ((known x).1 member),
      List.nodup_nil, by simp⟩
    cases failed.symm.trans ran

/-- What a run that succeeds takes from the supply are the names in the lowered module that it accounts
for. -/
theorem lower_named {t : SyntaxTree} {o : Options} {boilerplate verification : Bool}
    {input : List StmtTerm} {lowered : Lowered} (kinded : t.WellKinded) (valid : t.validate = .ok ())
    (reads : t.Reads t.body input)
    (ended : t.lower o (.build boilerplate verification) = .ok lowered) :
    ∃ body rest names, Placed t body ∧
      lowered.tree.Reads lowered.tree.body (injectedImport o boilerplate input ++ rest) ∧
      Named o (input.flatMap StmtTree.names) false false input rest [] names ∧
      (LowerM.final (Pipeline.build boilerplate verification).run ⟨t, .new o⟩).context.names.taken =
        (names.map Prod.snd).reverse ++ (Progress.start o body).names.taken := by
  obtain ⟨body, rest, p, placed, rfl, lowers, read, -, supply⟩ := exists_lowers kinded valid reads ended
  obtain ⟨new, names, takes, issues, named⟩ := lowers.named
    (fun s member x used => List.mem_flatMap.2 ⟨s, member, used⟩) (names_subset_start o body)
  have closed : (Progress.start o body).batch = none := by rw [Progress.start_eq]
  have outside : (Progress.start o body).insideMethod = false := by rw [Progress.start_eq]
  obtain rfl := takes.closed closed
  rw [closed, outside] at named
  refine ⟨body, rest, names, placed, read, named, ?_⟩
  rw [supply]
  exact issues.taken_eq

/-- The names handed out while a module is lowered, which are what the run adds to the supply, are all
different, and none of them is an identifier of the module, however the run ends. Where it succeeds they
are the derived names, controls, placeholders and proxies of the lowered module, one each, and every
other identifier of the lowered module was in use before or is the boilerplate import. -/
theorem lower_names_hygienic (t : SyntaxTree) (o : Options) (boilerplate verification : Bool) :
    ∃ reserved handed : List String,
      (LowerM.final (Pipeline.build boilerplate verification).run ⟨t, .new o⟩).context.names.taken =
        handed.reverse ++ reserved ∧
      (∀ x ∈ reserved, t.Uses x) ∧ handed.Nodup ∧ (∀ x ∈ handed, ¬ t.Uses x) ∧
      ∀ input, t.WellKinded → t.validate = .ok () → t.Reads t.body input → ∀ lowered,
        t.lower o (.build boilerplate verification) = .ok lowered →
          (∀ x, lowered.tree.Uses x → t.Uses x ∨ x = o.boilerplateAlias ∨ x ∈ handed) ∧
          ∃ rest names,
            lowered.tree.Reads lowered.tree.body (injectedImport o boilerplate input ++ rest) ∧
            Named o (input.flatMap StmtTree.names) false false input rest [] names ∧
            names.map Prod.snd = handed := by
  obtain ⟨reserved, handed, taken, start, used, once, fresh⟩ := run_taken t o boilerplate verification
  refine ⟨reserved, handed, taken, used, once, fresh, fun input kinded valid reads lowered ended => ?_⟩
  obtain ⟨body, rest, names, placed, read, named, taken'⟩ := lower_named kinded valid reads ended
  have started : (Progress.start o body).names.taken = reserved :=
    start _ (run_inferOperations placed (.new o))
  have same : names.map Prod.snd = handed := by
    rw [started, taken] at taken'
    exact (List.reverse_injective (List.append_cancel_right taken')).symm
  refine ⟨fun x uses => ?_, rest, names, read, named, same⟩
  rcases mem_taken_of_lowered_uses kinded valid ended uses with boilerplate | listed
  · exact .inr (.inl boilerplate)
  · rw [taken, List.mem_append, List.mem_reverse] at listed
    rcases listed with new | old
    · exact .inr (.inr new)
    · exact .inl (used x old)

/-- An operation `f` that calls `_f_adj`, the first choice for the name of its adjoint. -/
theorem lower_names_hygienic_clash :
    ∃ input lowered rest names,
      (singleOperation "f" "_f_adj" ⟨true, true⟩).lower .default .standard = .ok lowered ∧
      lowered.tree.Reads lowered.tree.body (injectedImport .default true input ++ rest) ∧
      Named .default (input.flatMap StmtTree.names) false false input rest [] names ∧
      (names.map Prod.snd).Nodup ∧ "_f_adj" ∉ names.map Prod.snd ∧ "_f_adj_1" ∈ names.map Prod.snd := by
  have placed := singleOperation_placed "f" "_f_adj" ⟨true, true⟩
  have uses : (singleOperation "f" "_f_adj" ⟨true, true⟩).Uses "_f_adj" := by
    have definition : (singleOperation "f" "_f_adj" ⟨true, true⟩).Reachable 4 := .body (by decide)
    have statement := definition.part rfl (show 3 ∈ _ by decide)
    have call := statement.part rfl (show 2 ∈ _ by decide)
    exact ⟨0, .expr (.name "_f_adj"), call.part rfl (by decide), rfl, by decide⟩
  have unused : ¬ (singleOperation "f" "_f_adj" ⟨true, true⟩).Uses "_f_adj_1" := by
    intro uses
    have listed := placed.mem_identifiers uses
    simp [singleOperationBody, Expr.map, Expr.name?, Expr.children] at listed
  obtain ⟨reserved, handed, taken, used, once, fresh, accounted⟩ :=
    lower_names_hygienic (singleOperation "f" "_f_adj" ⟨true, true⟩) .default true true
  have succeeds : ((singleOperation "f" "_f_adj" ⟨true, true⟩).lower .default .standard).toOption.any
      (fun _ => true) := by
    decide +kernel
  obtain ⟨lowered, ended, -⟩ := exists_lowered succeeds
  obtain ⟨-, rest, names, read, named, rfl⟩ := accounted _ placed.wellKinded placed.validate
    ⟨_, placed.labels, rfl, placed.owned.held⟩ lowered ended
  have second : "_f_adj_1" ∈ (LowerM.final (Pipeline.build true true).run
      ⟨singleOperation "f" "_f_adj" ⟨true, true⟩, .new .default⟩).context.names.taken := by
    decide +kernel
  refine ⟨_, lowered, rest, names, ended, read, named, once, fun listed => fresh _ listed uses, ?_⟩
  rw [taken, List.mem_append, List.mem_reverse] at second
  exact second.resolve_right fun old => unused (used _ old)

end QuantumLowering
