import QuantumLowering.Proofs.Lowering.Variants

namespace QuantumLowering

theorem forM_eq_mapM {β : Type} (act : β → LowerM Unit) (xs : List β) :
    xs.forM act = do
      let _ ← xs.mapM act
      return () := by
  induction xs with
  | nil => rfl
  | cons x xs ih =>
    rw [List.forM, ih, List.mapM_cons]
    simp only [bind_assoc, pure_bind]

def ExprTree.sites (measureFn : String) : ExprTree NodeId → List NodeId
  | .node id layer =>
    if (ExprTree.node id layer).isCallTo measureFn then [id]
    else (layer.children.attach.map fun part => sites measureFn part.1).flatten
termination_by e => sizeOf e
decreasing_by exact sizeOf_part part.2

theorem ExprTree.sites_node (measureFn : String) (id : NodeId) (layer : Expr (ExprTree NodeId)) :
    (node id layer).sites measureFn =
      if (node id layer).isCallTo measureFn then [id]
      else layer.children.flatMap (sites measureFn) := by
  rw [sites, List.attach_map_val (f := sites measureFn), ← List.flatMap_def]

theorem SyntaxTree.measurementsWithin_eq {t : SyntaxTree} {e : ExprTree NodeId} {depth : Nat}
    (measureFn : String) (held : Holds t e.cells) (bound : e.height ≤ depth) :
    t.measurementsWithin measureFn depth e.label = .ok (e.sites measureFn) := by
  induction e using ExprTree.induct generalizing depth with
  | step id layer ih =>
    cases depth with
    | zero => have := (ExprTree.node id layer).height_pos; omega
    | succ depth =>
      have parts : (layer.children.map ExprTree.label).mapM (t.measurementsWithin measureFn depth) =
          .ok (layer.children.map (ExprTree.sites measureFn)) := by
        rw [List.mapM_map]
        apply mapM_ok_of_forall
        intro part inside
        exact ih part inside (held.part inside) (ExprTree.height_part_le bound inside)
      rw [measurementsWithin, held.isCallTo_eq, ExprTree.sites_node]
      cases (ExprTree.node id layer).isCallTo measureFn with
      | true => rfl
      | false =>
        simp only [Bind.bind, Except.bind, held.expr_eq, ExprTree.layer_node, Expr.children_map,
          parts, List.flatMap_def]
        rfl

theorem Holds.measurements_eq {t : SyntaxTree} {e : ExprTree NodeId} (held : Holds t e.cells)
    (measureFn : String) : t.measurements measureFn e.label = .ok (e.sites measureFn) :=
  SyntaxTree.measurementsWithin_eq measureFn held (Nat.le_succ_of_le held.height_expr)

theorem PlanM.hoist_node (o : Options) (layer : Expr ExprTerm) :
    hoist o (.node () layer) = do
      match (← get).batch with
      | none => return .node () layer
      | some batch =>
        if (ExprTree.node () layer).isCallTo o.measureFn then
          return nameTerm (← record (.node () layer) batch o.placeholderStem)
        else
          let parts ← layer.children.mapM (hoist o)
          return .node () (layer.refill parts) := by
  have unfolded := hoist.eq_1 o () layer
  rw [mapM_attach] at unfolded
  exact unfolded

section Hoist

variable {o : Options} {t : SyntaxTree} {c : Context} {p : Progress}

theorem PlanM.hoist_closed (closed : p.batch = none) (e : ExprTerm) :
    hoist o e p = .ok (e, p) := by
  obtain ⟨⟨⟩, layer⟩ := e
  rw [hoist_node]
  show (match p.batch with
    | none => (Pure.pure (.node () layer) : PlanM ExprTerm)
    | some batch => _) p = _
  rw [closed]
  rfl

theorem run_recordMeasurement (call : NodeId) {b : Batch} {block : NodeId}
    {frames : List AllocationFrame} {table : List HoistEntry} {tables : List (List HoistEntry)}
    (frames_eq : c.frames = ⟨block, b.statement⟩ :: frames) (tables_eq : c.tables = table :: tables) :
    let fresh := c.names.fresh (c.options.placeholderStem ++ Nat.repr (table.length + 1))
    ContextM.recordMeasurement call c = .ok (some fresh.1)
      { c with
        names := fresh.2
        tables := (table ++ [⟨block, b.statement, call, fresh.1⟩]) :: tables } := by
  unfold ContextM.recordMeasurement
  simp only [Bind.bind, EStateM.bind, ContextM.run_get, frames_eq,
    tables_eq, ContextM.run_freshName]
  rfl

theorem record_runs {b : Batch} (matched : Matches o c p) (open_ : p.batch = some b)
    (call : ExprTree NodeId) :
    RunsM (liftM (ContextM.recordMeasurement call.label)) t c
      (PlanM.record call.erase b o.placeholderStem) p fun placeholder p₁ given t₁ c₁ =>
        given = some placeholder ∧ t₁ = t ∧ Tracks c p c₁ p₁ [⟨b.statement, call, placeholder⟩] := by
  have stack := matched.stack
  rw [open_] at stack
  obtain ⟨block, frames, table, tables, frames_eq, tables_eq, -, count⟩ := stack
  have ran := run_recordMeasurement call.label frames_eq tables_eq
  rw [matched.options, matched.names, count] at ran
  refine Runs.contextM ran ⟨rfl, rfl, ?_⟩
  have same := Tracks.refl matched
  refine { same with
    options := matched.options.symm, names := rfl, tables := ?_, batch := ?_, closed := ?_ }
  · simp [Context.recording, frames_eq, tables_eq, Hoisted.entry]
  · simp [open_, Hoisted.erase]
  · simp [open_]

theorem hoistMeasurement_runs {b : Batch} {id : NodeId} {layer : Expr (ExprTree NodeId)}
    (matched : Matches o c p) (open_ : p.batch = some b)
    (owned : Owns t (ExprTree.node id layer).cells) :
    RunsM (LowerM.hoistMeasurement id) t c
      (PlanM.record (ExprTree.node id layer).erase b o.placeholderStem) p
      fun placeholder p₁ _ t₁ c₁ => ∃ new : List (Hoisted NodeId), Tracks c p c₁ p₁ new ∧
        Becomes t t₁ (ExprTree.node id layer).cells
          ((ExprTree.node id (.name placeholder)).cells ++ new.flatMap Hoisted.cells) := by
  unfold LowerM.hoistMeasurement
  rw [RunsM.treeM_bind (TreeM.run_expr owned.held.expr_node),
    RunsM.treeM_bind (TreeM.run_addExpr _)]
  have record := record_runs (t := t.push (.expr (layer.map ExprTree.label))) matched open_
    (.node t.size layer)
  rw [ExprTree.erase_node] at record ⊢
  refine record.andThen ?_
  rintro placeholder p₁ _ _ c₁ ⟨rfl, rfl, tracks⟩
  rw [ExprTree.cells_node] at owned ⊢
  have moved := (Becomes.push t (.expr (layer.map ExprTree.label))).beside owned.held
  refine Runs.treeM (TreeM.run_setExpr (moved.held _ List.mem_cons_self)) ⟨_, tracks, ?_⟩
  refine (moved.put_head owned _).perm .rfl ?_
  simp only [ExprTree.cells_node, Expr.map, Expr.children, List.flatMap_nil, List.flatMap_cons,
    Hoisted.cells, List.append_nil, List.cons_append, List.nil_append]
  exact (List.perm_append_comm).cons _

theorem sites_runs {b : Batch} (matched : Matches o c p) (open_ : p.batch = some b)
    (e : ExprTree NodeId) (owned : Owns t e.cells) :
    RunsM ((e.sites o.measureFn).forM LowerM.hoistMeasurement) t c (PlanM.hoist o e.erase) p
      fun r p₁ _ t₁ c₁ => ∃ (d : ExprTree NodeId) (new : List (Hoisted NodeId)), d.erase = r ∧
        d.label = e.label ∧ Tracks c p c₁ p₁ new ∧
        Becomes t t₁ e.cells (d.cells ++ new.flatMap Hoisted.cells) := by
  induction e using ExprTree.induct generalizing t c p b with
  | step id layer ih =>
    have called : (ExprTree.node () (layer.map ExprTree.erase)).isCallTo o.measureFn =
        (ExprTree.node id layer).isCallTo o.measureFn := by
      rw [← ExprTree.erase_node id, ExprTree.isCallTo_erase]
    rw [ExprTree.sites_node, ExprTree.erase_node, PlanM.hoist_node, RunsM.get_bind]
    simp only [open_, called]
    cases (ExprTree.node id layer).isCallTo o.measureFn with
    | true =>
      have hoisted := hoistMeasurement_runs matched open_ owned
      rw [ExprTree.erase_node] at hoisted
      refine hoisted.bind ?_
      rintro placeholder p₁ _ t₁ c₁ ⟨new, tracks, becomes⟩
      exact .pure ⟨.node id (.name placeholder), new, by simp [Expr.map, nameTerm], rfl, tracks, becomes⟩
    | false =>
      have parts : RunsM
          (layer.children.mapM fun part => (part.sites o.measureFn).forM LowerM.hoistMeasurement) t c
          (layer.children.mapM fun part => PlanM.hoist o part.erase) p fun rs p₁ _ t₁ c₁ =>
            ∃ (ds : List (ExprTree NodeId)) (new : List (Hoisted NodeId)),
              ds.map ExprTree.erase = rs ∧ ds.map ExprTree.label = layer.children.map ExprTree.label ∧ Tracks c p c₁ p₁ new ∧
              Becomes t t₁ (layer.children.flatMap ExprTree.cells)
                (ds.flatMap ExprTree.cells ++ new.flatMap Hoisted.cells) := by
        rw [ExprTree.cells_node] at owned
        refine (RunsM.each ExprTree.cells ExprTree.cells ExprTree.erase (fun _ => ()) ExprTree.label
          ExprTree.label matched owned.tail fun part inside t₁ c₁ p₁ matched₁ same own => ?_).mono ?_
        · obtain ⟨b₁, open₁⟩ := Option.isSome_iff_exists.1 (same.trans (by rw [open_]; rfl))
          refine (ih part inside matched₁ open₁ own).mono ?_
          rintro r p₂ _ t₂ c₂ ⟨d, new, erased, label, rest⟩
          exact ⟨d, new, erased, rfl, label, rest⟩
        · rintro rs p₁ _ t₁ c₁ ⟨ds, new, erased, -, rest⟩
          exact ⟨ds, new, erased, rest⟩
      simp only [Bool.false_eq_true, ↓reduceIte, Expr.children_map, List.mapM_map]
      rw [forM_flatMap, forM_eq_mapM]
      refine parts.bind ?_
      rintro _ p₁ _ t₁ c₁ ⟨ds, new, rfl, labels, tracks, becomes⟩
      have length : ds.length = layer.children.length := by
        simpa using congrArg List.length labels
      have sameLabels : (layer.refill ds).map ExprTree.label = layer.map ExprTree.label := by
        rw [Expr.map_refill _ length, labels, ← Expr.children_map, Expr.refill_children]
      refine .pure ⟨.node id (layer.refill ds), new, ?_, rfl, tracks, ?_⟩
      · rw [ExprTree.erase_node, Expr.map_refill _ length]
      · rw [ExprTree.cells_node] at owned ⊢
        rw [ExprTree.cells_node, Expr.children_refill length, sameLabels]
        exact becomes.cons_owned owned

theorem run_replaceMeasurements_outside {s : LoweringState} (outside : s.context.frames = [])
    (id : NodeId) : LowerM.replaceMeasurements id s = .ok () s := by
  have empty : s.context.frames.isEmpty = true := by rw [outside, List.isEmpty_nil]
  simp only [LowerM.replaceMeasurements, LowerM.context, Bind.bind, EStateM.bind]
  show (if s.context.frames.isEmpty = true then _ else _ : LowerM Unit) s = _
  rw [if_pos empty]
  rfl

theorem replaceMeasurements_runs (matched : Matches o c p) (e : ExprTree NodeId)
    (owned : Owns t e.cells) :
    RunsM (LowerM.replaceMeasurements e.label) t c (PlanM.hoist o e.erase) p fun r p₁ _ t₁ c₁ =>
      ∃ (d : ExprTree NodeId) (new : List (Hoisted NodeId)), d.erase = r ∧ d.label = e.label ∧
        Tracks c p c₁ p₁ new ∧ Becomes t t₁ e.cells (d.cells ++ new.flatMap Hoisted.cells) := by
  unfold LowerM.replaceMeasurements
  rw [RunsM.context_bind]
  have stack := matched.stack
  cases open_ : p.batch with
  | none =>
    rw [open_] at stack
    simp only [stack.1, List.isEmpty_nil, ↓reduceIte]
    unfold RunsM
    rw [PlanM.hoist_closed open_]
    exact .pure ⟨e, [], rfl, rfl, .refl matched, by simpa using Becomes.refl owned.held⟩
  | some b =>
    rw [open_] at stack
    obtain ⟨block, frames, table, tables, frames_eq, -⟩ := stack
    simp only [frames_eq, List.isEmpty_cons, Bool.false_eq_true, ↓reduceIte, RunsM.tree_bind,
      RunsM.options_bind, matched.options, owned.held.measurements_eq, RunsM.ok_bind]
    exact sites_runs matched open_ e owned

end Hoist

section Emit

variable {o : Options} {t : SyntaxTree} {c : Context} {p : Progress}

theorem exists_run_addNames (names : List String) (t : SyntaxTree) :
    ∃ (es : List (ExprTree NodeId)) (t' : SyntaxTree),
      TreeM.addNames names t = .ok (es.map ExprTree.label) t' ∧
      es.map ExprTree.erase = names.map nameTerm ∧ Becomes t t' [] (es.flatMap ExprTree.cells) := by
  induction names generalizing t with
  | nil => exact ⟨[], t, rfl, rfl, .refl .nil⟩
  | cons name names ih =>
    have named := Becomes.push t (.expr (.name name))
    obtain ⟨es, t', ran, erased, becomes⟩ := ih (t.push (.expr (.name name)))
    refine ⟨.node t.size (.name name) :: es, t', ?_, by simp [erased, nameTerm, Expr.map], ?_⟩
    · unfold TreeM.addNames at ran ⊢
      rw [List.mapM_cons, TreeM.run_bind (TreeM.run_addName name), TreeM.run_bind ran]
      rfl
    · simpa [Expr.map, Expr.children] using named.append_new becomes

theorem emitExecution_runs (proxies placeholders : List String) (matched : Matches o c p) :
    Runs (LowerM.emitExecution proxies placeholders) t c
      (.ok (PlanM.execution o proxies placeholders)) fun r id t₁ c₁ => c₁ = c ∧
        ∃ s : StmtTree NodeId, s.erase = r ∧ s.label = id ∧ Becomes t t₁ [] s.cells := by
  unfold LowerM.emitExecution
  rw [Runs.options_bind, Runs.treeM_bind (TreeM.run_addName _), Runs.options_bind,
    Runs.treeM_bind (show TreeM.addAttribute _ _ _ = _ from TreeM.run_addExpr _)]
  obtain ⟨args, t₁, ran, erased, first⟩ := exists_run_addNames proxies _
  rw [Runs.treeM_bind ran, Runs.treeM_bind (show TreeM.addCall _ _ _ = _ from TreeM.run_addExpr _)]
  obtain ⟨targets, t₂, ran', erased', second⟩ := exists_run_addNames placeholders _
  rw [Runs.treeM_bind ran', Runs.treeM_bind (show TreeM.addTuple _ _ = _ from TreeM.run_addExpr _)]
  refine .treeM (show TreeM.addAssign _ _ _ = _ from TreeM.run_addStmt _) ⟨rfl,
    .assign (t₂.size + 1) (.node t₂.size (.tuple targets)) (.node t₁.size (.call (.node (t.size + 1)
      (.attribute (.node t.size (.name o.boilerplateAlias)) o.executeFn)) args [])), ?_,
    SyntaxTree.size_push.symm, ?_⟩
  · simp [PlanM.execution, nameTerm, Expr.map, erased, erased']
  · have callee := (Becomes.push t (.expr (.name c.options.boilerplateAlias))).append_new
      (.push _ (.expr (.attribute t.size c.options.executeFn)))
    have call := ((callee.append_new first).cons_new _).append_new second
    have all := (call.cons_new (.expr (.tuple (targets.map ExprTree.label)))).cons_new
      (.stmt (.assign t₂.size t₁.size))
    refine all.perm .rfl (List.perm_iff_count.2 fun cell => ?_)
    simp only [matched.options, StmtTree.cells_assign, ExprTree.cells_node, Expr.map, Expr.children,
      ExprTree.label_node, List.flatMap_cons, List.flatMap_nil, List.map_nil, List.append_nil,
      List.count_append, List.count_cons, List.count_nil, SyntaxTree.size_push]
    omega

theorem emitProxies_runs {block : NodeId} (rows : List (Hoisted NodeId)) (ordinal : Nat)
    (matched : Matches o c p) (owned : Owns t (rows.flatMap Hoisted.cells)) :
    RunsM (LowerM.emitProxies ordinal (rows.map (Hoisted.entry block))) t c
      (PlanM.emitProxies o ordinal (rows.map Hoisted.erase)) p fun emitted p₁ given t₁ c₁ =>
        ∃ stmts : List (StmtTree NodeId), stmts.map StmtTree.erase = emitted.map Prod.fst ∧
          stmts.map StmtTree.label = given.map Prod.fst ∧
          given.map Prod.snd = emitted.map Prod.snd ∧ Tracks c p c₁ p₁ [] ∧
          Becomes t t₁ (rows.flatMap Hoisted.cells) (stmts.flatMap StmtTree.cells) := by
  induction rows generalizing t c p ordinal with
  | nil => exact .pure ⟨[], rfl, rfl, rfl, .refl matched, .refl .nil⟩
  | cons row rows ih =>
    rw [List.flatMap_cons] at owned
    rw [List.map_cons, List.map_cons, LowerM.emitProxies, PlanM.emitProxies, RunsM.options_bind,
      matched.options]
    refine (freshName_runs matched _).bind ?_
    rintro _ p₁ proxy t c₁ ⟨rfl, rfl, named⟩
    rw [RunsM.treeM_bind (TreeM.run_addName _),
      RunsM.treeM_bind (show TreeM.addAssign _ _ _ = _ from TreeM.run_addStmt _)]
    have assigned := ((Becomes.push t (.expr (.name proxy))).cons_new
      (.stmt (.assign t.size row.call.label))).beside owned.left.held
    have framed := assigned.frame_owned owned
    refine (ih (ordinal + 1) (named.matched matched) (framed.owns owned).right).bind ?_
    rintro emitted p₂ given t₂ c₂ ⟨stmts, erased, labels, proxies, tracks, second⟩
    refine .pure ⟨.assign (t.size + 1) (.node t.size (.name proxy)) row.call :: stmts, ?_, ?_, ?_,
      named.trans tracks, ?_⟩
    · simp [erased, nameTerm, Expr.map, Hoisted.erase]
    · simp [labels, StmtTree.label]
    · simp [proxies]
    · refine (assigned.append second owned).perm .rfl (List.perm_iff_count.2 fun cell => ?_)
      simp only [List.flatMap_cons, StmtTree.cells_assign, ExprTree.cells_node, Expr.map,
        Expr.children, List.flatMap_nil, ExprTree.label_node, Hoisted.cells, List.count_append,
        List.count_cons, List.count_nil, SyntaxTree.size_push]
      omega

theorem emitBatch_runs {block : NodeId} (rows : List (Hoisted NodeId)) (body : List (StmtTree NodeId))
    (matched : Matches o c p)
    (owned : Owns t (body.flatMap StmtTree.cells ++ rows.flatMap Hoisted.cells)) :
    RunsM (LowerM.emitBatch (rows.map (Hoisted.entry block)) (body.map StmtTree.label)) t c
      (PlanM.emitBatch o (rows.map Hoisted.erase) (body.map StmtTree.erase)) p
      fun r p₁ ids t₁ c₁ => ∃ stmts : List (StmtTree NodeId), stmts.map StmtTree.erase = r ∧
        stmts.map StmtTree.label = ids ∧ Tracks c p c₁ p₁ [] ∧
        Becomes t t₁ (body.flatMap StmtTree.cells ++ rows.flatMap Hoisted.cells)
          (stmts.flatMap StmtTree.cells) := by
  have indices : (rows.map (Hoisted.entry block)).map HoistEntry.index = rows.map Hoisted.index := by
    simp [Hoisted.entry, Function.comp_def]
  have indices' : (rows.map Hoisted.erase).map Hoisted.index = rows.map Hoisted.index := by
    simp [Hoisted.erase, Function.comp_def]
  have placeholders : (rows.map (Hoisted.entry block)).map HoistEntry.placeholder =
      (rows.map Hoisted.erase).map Hoisted.placeholder := by
    simp [Hoisted.entry, Hoisted.erase, Function.comp_def]
  unfold LowerM.emitBatch PlanM.emitBatch
  rw [indices, indices']
  cases (rows.map Hoisted.index).min? with
  | none =>
    exact .pure ⟨body, rfl, rfl, .refl matched,
      (Becomes.refl owned.held).giveUp (List.sublist_append_left ..).subperm⟩
  | some position =>
    refine (emitProxies_runs rows 1 matched owned.right).bind ?_
    rintro emitted p₁ given t₁ c₁ ⟨stmts, erased, labels, proxies, tracks, first⟩
    simp only [proxies, placeholders, List.length_map]
    refine RunsM.skip (emitExecution_runs _ _ (tracks.matched matched)) ?_
    rintro id t₂ _ ⟨rfl, executed, erased', label, second⟩
    refine (modifyStats_runs (tracks.matched matched) _).bind ?_
    rintro _ p₃ _ _ c₃ ⟨rfl, counted⟩
    refine .pure ⟨body.take position ++ stmts ++ [executed] ++ body.drop position, ?_, ?_,
      tracks.trans counted, ?_⟩
    · simp [erased, erased']
    · simp [labels, label]
    · have all := (first.frame_owned_left owned).append_new second
      refine all.perm .rfl (List.perm_iff_count.2 fun cell => ?_)
      have split := congrArg (fun stmts => (List.flatMap StmtTree.cells stmts).count cell)
        (List.take_append_drop position body)
      simp only [List.flatMap_append, List.count_append, List.flatMap_cons, List.flatMap_nil,
        List.count_nil] at split ⊢
      omega

end Emit

end QuantumLowering
