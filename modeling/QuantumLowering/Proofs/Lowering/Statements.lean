import QuantumLowering.Proofs.Lowering.Conditionals
import QuantumLowering.Proofs.Lowering.Enclosing
import QuantumLowering.Proofs.Lowering.Measurements

namespace QuantumLowering

namespace PlanM

variable (o : Options)

theorem lowerStmt_expr (value : ExprTerm) :
    lowerStmt o (.expr () value) = do return [.expr () (← hoist o value)] := by
  rw [lowerStmt]

theorem lowerStmt_assign (target value : ExprTerm) :
    lowerStmt o (.assign () target value) = do return [.assign () target (← hoist o value)] := by
  rw [lowerStmt]

theorem lowerStmt_define (d : Definition StmtTerm) :
    lowerStmt o (.define () d) = do
      let lowered ← withBatch none (withMethod false (d.body.mapM (lowerStmt o)))
      let variants ← emitVariants o { d with body := lowered.1.flatten }
      return .define () { d with body := lowered.1.flatten } :: variants := by
  rw [lowerStmt, mapM_attach]

theorem lowerStmt_classDef (name : String) (body : List StmtTerm) :
    lowerStmt o (.classDef () name body) = do
      let body ← withMethod true (body.mapM (lowerStmt o))
      return [.classDef () name body.flatten] := by
  rw [lowerStmt, mapM_attach]

theorem lowerAllocated_map {β γ : Type} (f : β → γ) (lower : γ → PlanM (List StmtTerm))
    (lowered : List StmtTerm) (body : List β) :
    lowerAllocated (fun s => lower (f s)) lowered body = lowerAllocated lower lowered (body.map f) := by
  induction body generalizing lowered with
  | nil => rfl
  | cons nested rest ih => simp only [List.map_cons, lowerAllocated, ih]

theorem lowerStmt_scoped (context : ExprTerm) (binding : Option ExprTerm) (body : List StmtTerm) :
    lowerStmt o (.scoped () context binding body) =
      if context.isCallTo o.allocateFn then do
        let context ← hoist o context
        let lowered ← withBatch (some ⟨0, []⟩) (lowerAllocated (lowerStmt o) [] body)
        let body ← emitBatch o (lowered.2.elim [] Batch.hoisted) lowered.1
        return [.scoped () context binding body]
      else do
        let context ← hoist o context
        let body ← body.mapM (lowerStmt o)
        return [.scoped () context binding body.flatten] := by
  rw [lowerStmt, mapM_attach, lowerAllocated_map Subtype.val, List.attach_map_subtype_val]

theorem lowerStmt_conditional (test : ExprTerm) (body orelse : List StmtTerm) :
    lowerStmt o (.conditional () test body orelse) =
      if test.isCallTo o.conditionFn then do
        let body ← body.mapM (lowerStmt o)
        let orelse ← orelse.mapM (lowerStmt o)
        return [← lowerConditional o test body.flatten orelse.flatten]
      else do
        let test ← hoist o test
        let body ← body.mapM (lowerStmt o)
        let orelse ← orelse.mapM (lowerStmt o)
        return [.conditional () test body.flatten orelse.flatten] := by
  rw [lowerStmt, mapM_attach, mapM_attach]

end PlanM

/-- Statements stand in the place of placed ones, as the plan has them, and the measurements that
were in them have been moved out. -/
def InPlace (before : List Cell) (t : SyntaxTree) (r : List StmtTerm) (ids : List NodeId)
    (t₁ : SyntaxTree) (new : List (Hoisted NodeId)) : Prop :=
  ∃ stmts : List (StmtTree NodeId), stmts.map StmtTree.erase = r ∧
    stmts.map StmtTree.label = ids ∧
    Becomes t t₁ before (stmts.flatMap StmtTree.cells ++ new.flatMap Hoisted.cells)

section Block

variable {o : Options} {lower : NodeId → LowerM (List NodeId)} {body : List (StmtTree NodeId)}
  {t : SyntaxTree} {c : Context} {p : Progress}

def Follows (o : Options) (lower : NodeId → LowerM (List NodeId)) (body : List (StmtTree NodeId)) :
    Prop :=
  ∀ s ∈ body, ∀ t c p, Matches o c p → Owns t s.cells →
    RunsM (lower s.label) t c (PlanM.lowerStmt o s.erase) p fun r p₁ ids t₁ c₁ =>
      ∃ new, InPlace s.cells t r ids t₁ new ∧ Tracks c p c₁ p₁ new

theorem lowerBlock_runs (follows : Follows o lower body) (matched : Matches o c p)
    (owned : Owns t (body.flatMap StmtTree.cells)) :
    RunsM (LowerM.lowerBlock lower (body.map StmtTree.label)) t c
      ((body.map StmtTree.erase).mapM (PlanM.lowerStmt o)) p fun rs p₁ ids t₁ c₁ =>
        ∃ new, InPlace (body.flatMap StmtTree.cells) t rs.flatten ids t₁ new ∧
          Tracks c p c₁ p₁ new := by
  unfold LowerM.lowerBlock
  rw [List.mapM_map, List.mapM_map]
  refine (RunsM.each StmtTree.cells (List.flatMap StmtTree.cells) (List.map StmtTree.erase)
    (List.map StmtTree.label) (fun _ => ()) (fun _ => ()) matched owned
    fun s inside t c p' matched' _ own => ?_).andThen ?_
  · refine (follows s inside t c p' matched' own).mono ?_
    rintro r p₁ ids t₁ c₁ ⟨new, ⟨stmts, erased, labels, becomes⟩, tracks⟩
    exact ⟨stmts, new, erased, labels, rfl, tracks, becomes⟩
  · rintro _ p₁ _ t₁ c₁ ⟨blocks, new, rfl, rfl, -, tracks, becomes⟩
    refine .pure ⟨new, ⟨blocks.flatten, by simp, by simp, ?_⟩, tracks⟩
    rw [List.flatten_eq_flatMap, List.flatMap_assoc]
    exact becomes

theorem lowerAllocated_runs {lowered : List StmtTerm} {ids : List NodeId} {b : Batch}
    (follows : Follows o lower body) (matched : Matches o c p) (open_ : p.batch = some b)
    (same : ids.length = lowered.length) (owned : Owns t (body.flatMap StmtTree.cells)) :
    RunsM (LowerM.lowerAllocated lower ids (body.map StmtTree.label)) t c
      (PlanM.lowerAllocated (PlanM.lowerStmt o) lowered (body.map StmtTree.erase)) p
      fun rs p₁ ids' t₁ c₁ => ∃ index new,
        (∃ r i, rs = lowered ++ r ∧ ids' = ids ++ i ∧
          InPlace (body.flatMap StmtTree.cells) t r i t₁ new) ∧
        Tracks (c.standing index) (p.standing index) c₁ p₁ new := by
  induction body generalizing t c p lowered ids b with
  | nil =>
    obtain ⟨sameContext, sameProgress⟩ := matched.standing_self open_
    refine .pure ⟨b.statement, [], ⟨[], [], by simp, by simp, [], rfl, rfl, .refl .nil⟩, ?_⟩
    rw [sameContext, sameProgress]
    exact .refl matched
  | cons s body ih =>
    rw [List.flatMap_cons] at owned
    rw [List.map_cons, List.map_cons, LowerM.lowerAllocated, PlanM.lowerAllocated, same]
    refine enterStatement_runs matched open_ _ ?_
    have matched₁ := matched.standing lowered.length
    refine (follows s (by simp) _ _ _ matched₁ owned.left).bind ?_
    rintro r p₁ i t₁ c₁ ⟨new, ⟨stmts, rfl, rfl, first⟩, tracks⟩
    have matched₂ := tracks.matched matched₁
    have open₁ := tracks.batch
    simp only [Progress.standing, open_, Option.map_some] at open₁
    refine (ih (fun s inside => follows s (by simp [inside])) matched₂ open₁ (by simp [same])
      ((first.frame_owned owned).owns owned).right).mono ?_
    rintro rs p₂ ids' t₂ c₂ ⟨index, later, ⟨_, _, rfl, rfl, stmts', rfl, rfl, second⟩, tracks'⟩
    refine ⟨index, new ++ later, ⟨_, _, List.append_assoc .., List.append_assoc .., stmts ++ stmts',
      by simp, by simp, ?_⟩, ?_⟩
    · refine (first.append second owned).perm .rfl (List.perm_iff_count.2 fun cell => ?_)
      simp only [List.flatMap_append, List.count_append]
      omega
    · have moved := tracks.standing index
      rw [Context.standing_standing, Progress.standing_standing] at moved
      exact moved.trans tracks'

end Block

section Kinds

variable {o : Options} {lower : NodeId → LowerM (List NodeId)} {t : SyntaxTree} {c : Context}
  {p : Progress} {id : NodeId}

theorem run_setDefinitionBody {d : Definition NodeId} {body : List NodeId}
    (found : t.nodes[id]? = some (.stmt (.define d))) :
    TreeM.setDefinitionBody id body t =
      .ok () (t.put id (.stmt (.define { d with body := body }))) := by
  unfold TreeM.setDefinitionBody
  rw [TreeM.run_bind (TreeM.run_stmt found)]
  exact TreeM.run_setStmt found

theorem run_setClassBody {name : String} {old body : List NodeId}
    (found : t.nodes[id]? = some (.stmt (.classDef name old))) :
    TreeM.setClassBody id body t = .ok () (t.put id (.stmt (.classDef name body))) := by
  unfold TreeM.setClassBody
  rw [TreeM.run_bind (TreeM.run_stmt found)]
  exact TreeM.run_setStmt found

theorem run_setBranches {test : NodeId} {oldBody oldOrelse body orelse : List NodeId}
    (found : t.nodes[id]? = some (.stmt (.conditional test oldBody oldOrelse))) :
    TreeM.setBranches id body orelse t = .ok () (t.put id (.stmt (.conditional test body orelse))) := by
  unfold TreeM.setBranches
  rw [TreeM.run_bind (TreeM.run_stmt found)]
  exact TreeM.run_setStmt found

theorem lowerDefinition_runs {d : Definition (StmtTree NodeId)} (follows : Follows o lower d.body)
    (matched : Matches o c p) (owned : Owns t (StmtTree.define id d).cells) :
    RunsM (LowerM.lowerDefinition lower id (d.map StmtTree.label)) t c
      (PlanM.lowerStmt o (.define () (d.map StmtTree.erase))) p fun r p₁ ids t₁ c₁ =>
        ∃ new, InPlace (StmtTree.define id d).cells t r ids t₁ new ∧ Tracks c p c₁ p₁ new := by
  rw [PlanM.lowerStmt_define, LowerM.lowerDefinition]
  rw [StmtTree.cells_define] at owned ⊢
  refine suspended_runs matched (withInsideMethod_runs false
    (lowerBlock_runs follows (matched.suspended.withMethod false) owned.tail)) ?_
  rintro lowered batch p₁ _ t₁ c₁ ⟨stmts, erased, rfl, becomes⟩ tracks
  have framed := becomes.cons_owned owned
  rw [RunsM.treeM_bind (run_setDefinitionBody (framed.held _ List.mem_cons_self)), ← erased]
  have placed := framed.put_head owned
    (.stmt (.define ⟨d.name, d.params, stmts.map StmtTree.label, d.operation⟩))
  have heldBody : Holds _ (stmts.flatMap StmtTree.cells) :=
    (Holds.append_iff.1 (Holds.cons_iff.1 placed.held).2).1
  refine (emitVariants_runs { d with body := stmts } (tracks.matched matched) heldBody).bind ?_
  rintro _ p₂ _ t₂ c₂ ⟨variants, rfl, rfl, tracks', second⟩
  refine .pure ⟨[], ⟨.define id { d with body := stmts } :: variants, ?_, rfl, ?_⟩,
    tracks.trans tracks'⟩
  · simp [Definition.map]
  · simpa using placed.append_new second

theorem setScopedBody_runs {context d : ExprTree NodeId} {binding : Option (ExprTree NodeId)}
    (body : List (StmtTree NodeId)) {stmts : List (StmtTree NodeId)} {t₁ : SyntaxTree} {c₁ : Context} {p₁ : Progress}
    {new : List (Hoisted NodeId)} {before : List Cell} (owned : Owns t before)
    (label : d.label = context.label)
    (becomes : Becomes t t₁ before ((id, .stmt (.scoped context.label
      (binding.map ExprTree.label) (body.map StmtTree.label))) :: (d.cells ++
        binding.toList.flatMap ExprTree.cells ++ stmts.flatMap StmtTree.cells ++
        new.flatMap Hoisted.cells)))
    (tracks : Tracks c p c₁ p₁ new) :
    RunsM (do TreeM.setScopedBody id (stmts.map StmtTree.label); return [id]) t₁ c₁
      (return [.scoped () d.erase (binding.map ExprTree.erase) (stmts.map StmtTree.erase)]) p₁
      fun r p₂ ids t₂ c₂ => ∃ new, InPlace before t r ids t₂ new ∧ Tracks c p c₂ p₂ new := by
  rw [RunsM.treeM_bind (run_setScopedBody (becomes.held _ List.mem_cons_self))]
  refine .pure ⟨new, ⟨[.scoped id d binding stmts], by simp, rfl, ?_⟩, tracks⟩
  have placed := becomes.put_head owned (.stmt (.scoped context.label
    (binding.map ExprTree.label) (stmts.map StmtTree.label)))
  simpa [label] using placed

theorem lowerScoped_runs {context : ExprTree NodeId} {binding : Option (ExprTree NodeId)}
    {body : List (StmtTree NodeId)} (follows : Follows o lower body) (matched : Matches o c p)
    (owned : Owns t (StmtTree.scoped id context binding body).cells) :
    RunsM (do LowerM.lowerScoped lower id context.label (body.map StmtTree.label); return [id]) t c
      (PlanM.lowerStmt o (StmtTree.scoped id context binding body).erase) p fun r p₁ ids t₁ c₁ =>
        ∃ new, InPlace (StmtTree.scoped id context binding body).cells t r ids t₁ new ∧
          Tracks c p c₁ p₁ new := by
  have heldContext : Holds t context.cells := owned.held.exprs (by simp [StmtTree.exprs])
  have isAllocation : t.isAllocation c.options context.label =
      .ok (context.isCallTo o.allocateFn) := by
    rw [matched.options]
    exact heldContext.isCallTo_eq _
  rw [StmtTree.erase_scoped, PlanM.lowerStmt_scoped, ExprTree.isCallTo_erase]
  rw [StmtTree.cells_scoped] at owned ⊢
  unfold LowerM.lowerScoped
  simp only [bind_assoc, RunsM.tree_bind, RunsM.options_bind, isAllocation, RunsM.ok_bind]
  have replaced := replaceMeasurements_runs matched context owned.tail.left.left
  cases context.isCallTo o.allocateFn with
  | false =>
    simp only [Bool.false_eq_true, ↓reduceIte, bind_assoc]
    refine replaced.bind ?_
    rintro _ p₁ _ t₁ c₁ ⟨d, new, rfl, label, tracks, first⟩
    have inContext := ((first.frame_owned owned.tail.left).frame_owned owned.tail).cons_owned owned
    have owned₁ := inContext.owns owned
    have matched₁ := tracks.matched matched
    refine (lowerBlock_runs follows matched₁ owned₁.tail.right).bind ?_
    rintro lowered p₂ _ t₂ c₂ ⟨later, ⟨stmts, erased, rfl, second⟩, tracks'⟩
    rw [← erased]
    have both := inContext.trans ((second.frame_owned_left owned₁.tail).cons_owned owned₁)
    refine setScopedBody_runs body owned label (both.perm .rfl ?_) (tracks.trans tracks')
    refine .cons _ (List.perm_iff_count.2 fun cell => ?_)
    simp only [List.flatMap_append, List.count_append]
    omega
  | true =>
    simp only [↓reduceIte, LowerM.lowerAllocation, bind_assoc]
    refine replaced.bind ?_
    rintro _ p₁ _ t₁ c₁ ⟨d, new, rfl, label, tracks, first⟩
    have inContext := ((first.frame_owned owned.tail.left).frame_owned owned.tail).cons_owned owned
    have owned₁ := inContext.owns owned
    have matched₁ := tracks.matched matched
    refine allocation_runs matched₁ (fun c' p' matched' open_ => lowerAllocated_runs follows matched'
      open_ rfl owned₁.tail.right) ?_
    rintro _ index rows p₂ _ t₂ c₂ ⟨_, _, rfl, rfl, lowered, rfl, rfl, second⟩ tracks'
    have inBody := (second.frame_owned_left owned₁.tail).cons_owned owned₁
    have owned₂ := inBody.owns owned₁
    refine (emitBatch_runs rows lowered (tracks'.matched matched₁) owned₂.tail.right).bind ?_
    rintro _ p₃ _ t₃ c₃ ⟨stmts, rfl, rfl, tracks'', third⟩
    have all := inContext.trans (inBody.trans
      ((third.frame_owned_left owned₂.tail).cons_owned owned₂))
    refine setScopedBody_runs body owned label (all.perm .rfl ?_) (tracks.trans (tracks'.trans tracks''))
    refine .cons _ (List.perm_iff_count.2 fun cell => ?_)
    simp only [List.append_nil, List.count_append]
    omega

theorem branches_runs {test : ExprTree NodeId} {body orelse : List (StmtTree NodeId)} {α β : Type}
    {f : Unit → LowerM α} {g : List StmtTerm → List StmtTerm → PlanM β}
    {post : β → Progress → α → SyntaxTree → Context → Prop} (follows : Follows o lower body)
    (follows' : Follows o lower orelse) (matched : Matches o c p)
    (owned : Owns t (StmtTree.conditional id test body orelse).cells)
    (rest : ∀ stmts stmts' new p₁ t₁ c₁, Tracks c p c₁ p₁ new →
      Becomes t t₁ (StmtTree.conditional id test body orelse).cells
        ((StmtTree.conditional id test stmts stmts').cells ++ new.flatMap Hoisted.cells) →
      RunsM (f ()) t₁ c₁ (g (stmts.map StmtTree.erase) (stmts'.map StmtTree.erase)) p₁ post) :
    RunsM (do
        let body ← LowerM.lowerBlock lower (body.map StmtTree.label)
        let orelse ← LowerM.lowerBlock lower (orelse.map StmtTree.label)
        TreeM.setBranches id body orelse
        f ()) t c (do
          let body ← (body.map StmtTree.erase).mapM (PlanM.lowerStmt o)
          let orelse ← (orelse.map StmtTree.erase).mapM (PlanM.lowerStmt o)
          g body.flatten orelse.flatten) p post := by
  rw [StmtTree.cells_conditional] at owned rest
  refine (lowerBlock_runs follows matched owned.tail.right.left).bind ?_
  rintro lowered p₁ _ t₁ c₁ ⟨new, ⟨stmts, erased, rfl, first⟩, tracks⟩
  have inBody := ((first.frame_owned owned.tail.right).frame_owned_left owned.tail).cons_owned owned
  have owned₁ := inBody.owns owned
  have matched₁ := tracks.matched matched
  refine (lowerBlock_runs follows' matched₁ owned₁.tail.right.right).bind ?_
  rintro lowered' p₂ _ t₂ c₂ ⟨later, ⟨stmts', erased', rfl, second⟩, tracks'⟩
  have both := inBody.trans (((second.frame_owned_left owned₁.tail.right).frame_owned_left
    owned₁.tail).cons_owned owned₁)
  rw [RunsM.treeM_bind (run_setBranches (both.held _ List.mem_cons_self)), ← erased, ← erased']
  refine rest stmts stmts' (new ++ later) p₂ _ c₂ (tracks.trans tracks') ?_
  refine (both.put_head owned (.stmt (.conditional test.label (stmts.map StmtTree.label)
    (stmts'.map StmtTree.label)))).perm .rfl (List.perm_iff_count.2 fun cell => ?_)
  simp only [StmtTree.cells_conditional, List.flatMap_append, List.cons_append, List.count_cons,
    List.count_append]
  omega

theorem lowerBranches_runs {test : ExprTree NodeId} {body orelse : List (StmtTree NodeId)}
    (follows : Follows o lower body) (follows' : Follows o lower orelse) (matched : Matches o c p)
    (owned : Owns t (StmtTree.conditional id test body orelse).cells) :
    RunsM (do
        LowerM.lowerBranches lower id test.label (body.map StmtTree.label)
          (orelse.map StmtTree.label)
        return [id]) t c
      (PlanM.lowerStmt o (StmtTree.conditional id test body orelse).erase) p fun r p₁ ids t₁ c₁ =>
        ∃ new, InPlace (StmtTree.conditional id test body orelse).cells t r ids t₁ new ∧
          Tracks c p c₁ p₁ new := by
  have quantum := owned.held.isQuantumConditional_eq c.options
  rw [matched.options] at quantum
  rw [StmtTree.erase_conditional, PlanM.lowerStmt_conditional, ExprTree.isCallTo_erase]
  unfold LowerM.lowerBranches
  simp only [bind_assoc, RunsM.tree_bind, RunsM.options_bind, matched.options, quantum,
    RunsM.ok_bind]
  cases test.isCallTo o.conditionFn with
  | true =>
    simp only [↓reduceIte, bind_assoc]
    refine branches_runs (f := fun _ => do LowerM.lowerConditional id; return [id])
      (g := fun body orelse => do return [← PlanM.lowerConditional o test.erase body orelse])
      follows follows' matched owned ?_
    rintro stmts stmts' new p₁ t₁ c₁ tracks first
    have owned₁ := first.owns owned
    refine (lowerConditional_runs (tracks.matched matched) owned₁.left).bind ?_
    rintro _ p₂ _ t₂ c₂ ⟨tracks', s, rfl, rfl, second⟩
    refine .pure ⟨new, ⟨[s], rfl, rfl, ?_⟩, by simpa using tracks.trans tracks'⟩
    simpa using first.trans (second.frame_owned owned₁)
  | false =>
    simp only [Bool.false_eq_true, ↓reduceIte, bind_assoc, pure_bind]
    have ownedTest := owned
    rw [StmtTree.cells_conditional] at ownedTest
    refine (replaceMeasurements_runs matched test ownedTest.tail.left).bind ?_
    rintro _ p₁ _ t₁ c₁ ⟨d, new, rfl, label, tracks, first⟩
    have inTest : Becomes t t₁ (StmtTree.conditional id test body orelse).cells
        ((StmtTree.conditional id d body orelse).cells ++ new.flatMap Hoisted.cells) := by
      rw [StmtTree.cells_conditional, StmtTree.cells_conditional, label]
      refine ((first.frame_owned ownedTest.tail).cons_owned ownedTest).perm .rfl
        (.cons _ (List.perm_iff_count.2 fun cell => ?_))
      simp only [List.append_eq, List.count_append]
      omega
    have owned₁ := inTest.owns owned
    refine branches_runs (f := fun _ => return [id])
      (g := fun body orelse => return [StmtTree.conditional () d.erase body orelse]) follows follows'
      (tracks.matched matched) owned₁.left ?_
    rintro stmts stmts' later p₂ t₂ c₂ tracks' second
    refine .pure ⟨new ++ later, ⟨[.conditional id d stmts stmts'], by simp, rfl, ?_⟩,
      tracks.trans tracks'⟩
    refine (inTest.trans (second.frame_owned owned₁)).perm .rfl (List.perm_iff_count.2 fun cell => ?_)
    simp only [List.flatMap_append, List.flatMap_cons, List.flatMap_nil, List.count_append,
      List.count_nil]
    omega

end Kinds

section Run

variable {o : Options} {t : SyntaxTree} {c : Context} {p : Progress}

theorem lowerOne_runs {lower : NodeId → LowerM (List NodeId)} (s : StmtTree NodeId)
    (follows : Follows o lower s.inner) (matched : Matches o c p) (owned : Owns t s.cells) :
    RunsM (LowerM.lowerOne lower s.label) t c (PlanM.lowerStmt o s.erase) p fun r p₁ ids t₁ c₁ =>
      ∃ new, InPlace s.cells t r ids t₁ new ∧ Tracks c p c₁ p₁ new := by
  have unchanged : InPlace s.cells t [s.erase] [s.label] t [] :=
    ⟨[s], rfl, rfl, by simpa using Becomes.refl owned.held⟩
  rw [LowerM.lowerOne, RunsM.treeM_bind (TreeM.run_stmt owned.held.stmt_node)]
  match s with
  | .importAs id _ _ | .wire id _ _ _ | .pass id =>
    simp only [StmtTree.erase_importAs, StmtTree.erase_wire, StmtTree.erase_pass, PlanM.lowerStmt]
      at unchanged ⊢
    exact .pure ⟨[], unchanged, .refl matched⟩
  | .expr id value =>
    rw [StmtTree.cells_expr] at owned
    rw [StmtTree.erase_expr, PlanM.lowerStmt_expr]
    refine (replaceMeasurements_runs matched value owned.tail).bind ?_
    rintro _ p₁ _ t₁ c₁ ⟨d, new, rfl, label, tracks, becomes⟩
    refine .pure ⟨new, ⟨[.expr id d], by simp, rfl, ?_⟩, tracks⟩
    simpa [label] using becomes.cons_owned owned
  | .assign id target value =>
    rw [StmtTree.cells_assign] at owned
    rw [StmtTree.erase_assign, PlanM.lowerStmt_assign]
    refine (replaceMeasurements_runs matched value owned.tail.right).bind ?_
    rintro _ p₁ _ t₁ c₁ ⟨d, new, rfl, label, tracks, becomes⟩
    refine .pure ⟨new, ⟨[.assign id target d], by simp, rfl, ?_⟩, tracks⟩
    simpa [label] using (becomes.frame_owned_left owned.tail).cons_owned owned
  | .define id d =>
    rw [StmtTree.erase_define]
    exact lowerDefinition_runs follows matched owned
  | .classDef id name body =>
    rw [StmtTree.cells_classDef] at owned ⊢
    rw [StmtTree.erase_classDef, PlanM.lowerStmt_classDef]
    refine (withInsideMethod_runs true
      (lowerBlock_runs follows (matched.withMethod true) owned.tail)).bind ?_
    rintro lowered p₁ _ t₁ c₁ ⟨new, ⟨stmts, erased, rfl, becomes⟩, tracks⟩
    have framed := becomes.cons_owned owned
    simp only [StmtTree.label]
    rw [RunsM.treeM_bind (run_setClassBody (framed.held _ List.mem_cons_self)), ← erased]
    refine .pure ⟨new, ⟨[.classDef id name stmts], by simp, rfl, ?_⟩, tracks⟩
    simpa [StmtTree.inner] using
      framed.put_head owned (.stmt (.classDef name (stmts.map StmtTree.label)))
  | .scoped id context binding body => exact lowerScoped_runs follows matched owned
  | .conditional id test body orelse =>
    exact lowerBranches_runs (fun s inside => follows s (by simp [StmtTree.inner, inside]))
      (fun s inside => follows s (by simp [StmtTree.inner, inside])) matched owned

theorem lowerStatementWithin_runs {depth : Nat} (s : StmtTree NodeId) (bound : s.height ≤ depth)
    (matched : Matches o c p) (owned : Owns t s.cells) :
    RunsM (LowerM.lowerStatementWithin depth s.label) t c (PlanM.lowerStmt o s.erase) p
      fun r p₁ ids t₁ c₁ => ∃ new, InPlace s.cells t r ids t₁ new ∧ Tracks c p c₁ p₁ new := by
  induction s using StmtTree.induct generalizing t c p depth with
  | step s ih =>
    obtain ⟨depth, rfl⟩ : ∃ d, depth = d + 1 := ⟨depth - 1, by have := s.height_pos; omega⟩
    refine lowerOne_runs s (fun part inside t c p matched own => ?_) matched owned
    have := StmtTree.height_inner inside
    exact ih part inside (by omega) matched own

end Run

end QuantumLowering
