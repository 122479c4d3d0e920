import QuantumLowering.Proofs.Lowering.Growth
import QuantumLowering.Proofs.Lowering.Hygiene
import QuantumLowering.Proofs.Lowering.Translation

namespace QuantumLowering

open LowerM

/-- No name is given back, and the method flag stays. -/
structure Onward (c c' : Context) : Prop where
  taken : c.names.taken ⊆ c'.names.taken
  insideMethod : c'.insideMethod = c.insideMethod

theorem Issued.onward {c c' : Context} (issued : Issued c c') (flag : c'.insideMethod = c.insideMethod) :
    Onward c c' := by
  obtain ⟨names, issues⟩ := issued
  exact ⟨fun _ member => issues.mem_taken.2 (.inr member), flag⟩

theorem progressive_onward : Progressive Onward where
  refl _ := ⟨fun _ member => member, rfl⟩
  trans first second :=
    ⟨fun _ member => second.taken (first.taken member), second.insideMethod.trans first.insideMethod⟩
  fresh c base := (progressive_issued.fresh c base).onward rfl
  stats c stats := (progressive_issued.stats c stats).onward rfl
  operations c known := (progressive_issued.operations c known).onward rfl

structure Proceeds (s s' : LoweringState) : Prop where
  settled : Settled [] s.tree s'.tree
  onward : Onward s.context s'.context

theorem Proceeds.trans {s s' s'' : LoweringState} (first : Proceeds s s') (second : Proceeds s' s'') :
    Proceeds s s'' :=
  ⟨first.settled.trans second.settled, progressive_onward.trans first.onward second.onward⟩

section Forms

variable {s s' : LoweringState} {d derived : Definition NodeId}

end Forms

section Step

variable {old : String → Prop} {depth : Nat} {lower : NodeId → LowerM (List NodeId)}
  {s s' : LoweringState} {id : NodeId} {rs : List NodeId}

theorem Covers.leaf {t t' : SyntaxTree} {stmt : Stmt NodeId} (method : Bool)
    (found : t.nodes[id]? = some (.stmt stmt)) (empty : stmt.blocks method = [])
    (plain : ∀ d, stmt ≠ .define d) (settled : Settled [] t t') :
    Covers old (depth + 1) t [(method, [id])] [(method, [id])] t' := by
  have nothing : Covers old depth t (stmt.blocks method) [] t := by
    rw [empty]
    exact .nil (.refl [] t)
  refine nothing.enclose found (settled.touch [id]) (fun untouched => ?_) (by simp) ?_
  · exact ⟨stmt, settled id stmt (by simp) untouched, .refl stmt, by simp⟩
  · exact fun d same => absurd same (plain d)

theorem Covers.scope {t : SyntaxTree} {context : NodeId} {binding : Option NodeId}
    {body out lowered : List NodeId} {method : Bool}
    (found : t.nodes[id]? = some (.stmt (.scoped context binding body)))
    (covers : Covers old depth t [(method, body)] [(method, out)] s.tree) (kept : out ⊆ lowered)
    (written : (liftM (TreeM.setScopedBody id lowered) : LowerM Unit) s = .ok () s') :
    Covers old (depth + 1) t [(method, [id])] [(method, [id])] s'.tree := by
  refine covers.enclose found (Settles.treeM .setScopedBody _ _ _ written) (fun untouched => ?_)
    (by simp) (by simp)
  have there := LowerM.nodes_of_put_ok written (run_setScopedBody untouched) untouched
  refine ⟨_, there, .scopedBody fun _ member => kept (covers.served.1 member), ?_⟩
  simpa [Stmt.blocks] using kept

end Step

section Modules

variable {t : SyntaxTree} {o : Options} {s s' : LoweringState}

/-- What lowering starts from: all nodes of the module have been entered, and an import may have been put
before its body. -/
structure Starts (t : SyntaxTree) (o : Options) (s : LoweringState) : Prop where
  context : ∃ ids, t.Walked ids ∧ t.body ⊆ ids ∧ s.context = (Context.new o).enterAll (t.cellsAt ids)
  tree : s.tree = t ∨ ∃ module name,
    s.tree = ⟨(t.push (.stmt (.importAs module name))).nodes, t.size :: t.body⟩

namespace Starts

theorem settled (starts : Starts t o s) : Settled [] t s.tree := by
  rcases starts.tree with same | ⟨module, name, same⟩
  · rw [same]
    exact .refl [] t
  · rw [same]
    exact .push t _

theorem insideMethod (starts : Starts t o s) : s.context.insideMethod = false := by
  obtain ⟨ids, -, -, entered⟩ := starts.context
  rw [entered, Context.enterAll_eq]
  rfl

theorem taken (starts : Starts t o s) {x : String} (uses : t.Uses x) : x ∈ s.context.names.taken := by
  obtain ⟨ids, walked, all, entered⟩ := starts.context
  obtain ⟨id, node, reach, found, inside⟩ := uses
  rw [entered, Context.enterAll_eq]
  exact NameSupply.mem_taken_foldl_reserve.2 (.inl
    (SyntaxTree.mem_identifiers_cellsAt (walked.complete all reach) found inside))

end Starts

theorem inferOperations_ok (ended : Pass.inferOperations.run ⟨t, .new o⟩ = .ok () s) :
    Starts t o s ∧ s.tree = t := by
  obtain ⟨ids, walked, ⟨ran, all⟩ | ⟨e, failed⟩⟩ :=
    inferRoots_outcome (t := t) (fun _ member => .body member) (.new o)
  · cases ran.symm.trans ended
    exact ⟨⟨⟨ids, walked, all, rfl⟩, .inl rfl⟩, rfl⟩
  · cases failed.symm.trans ended

theorem injectBoilerplate_ok (starts : Starts t o s) (same : s.tree = t)
    (ended : Pass.injectBoilerplate.step s = .ok () s') : Starts t o s' := by
  have ran : (if Pass.injectBoilerplate.shouldRun s then Pass.injectBoilerplate.run else pure ()) s =
      .ok () s' := ended
  split at ran
  · cases ran
    exact ⟨starts.context, .inr ⟨_, _, by rw [← same]; rfl⟩⟩
  · cases ran
    exact starts

theorem lowerModule_ok (ended : Pass.lowerModule.step s = .ok () s') :
    ∃ rs s₁, lowerBlock (lowerStatementWithin s.tree.depthBound) s.tree.body s = .ok rs s₁ ∧
      s' = ⟨⟨s₁.tree.nodes, rs⟩, s₁.context⟩ := by
  rw [Pass.step_eq fun _ => rfl] at ended
  obtain ⟨t, s₁, read, ended⟩ := LowerM.exists_of_bind_ok ended
  cases read
  obtain ⟨rs, s₁, ran, ended⟩ := LowerM.exists_of_bind_ok ended
  cases ended
  exact ⟨rs, s₁, ran, rfl⟩

theorem exists_of_build_ok {boilerplate verification : Bool}
    (ended : (Pipeline.build boilerplate verification).run ⟨t, .new o⟩ = .ok () s') :
    ∃ s rs s₁, Starts t o s ∧
      lowerBlock (lowerStatementWithin s.tree.depthBound) s.tree.body s = .ok rs s₁ ∧
      s' = ⟨⟨s₁.tree.nodes, rs⟩, s₁.context⟩ := by
  have single (pass : Pass) : Pipeline.run [pass] = pass.step := by simp [Pipeline.run_eq]
  have shape : Pipeline.build boilerplate verification =
      (([.inferOperations] ++ if boilerplate then [.injectBoilerplate] else []) ++ [.lowerModule]) ++
        if verification then [.verifyOutcome] else [] := rfl
  rw [shape, Pipeline.run_append, Pipeline.run_append, Pipeline.run_append, single, single] at ended
  obtain ⟨⟨⟩, s₂, ended, checked⟩ := LowerM.exists_of_bind_ok ended
  obtain ⟨⟨⟩, s₁, ended, lowered⟩ := LowerM.exists_of_bind_ok ended
  obtain ⟨⟨⟩, s₀, inferred, injected⟩ := LowerM.exists_of_bind_ok ended
  obtain ⟨starts, same⟩ := inferOperations_ok inferred
  have prepared : Starts t o s₁ := by
    cases boilerplate with
    | true => exact injectBoilerplate_ok starts same ((congrFun (single _) _).symm.trans injected)
    | false =>
      cases injected
      exact starts
  have unchanged : s' = s₂ := by
    cases verification with
    | true => exact verifyOutcome_observes.eq_of_ok ((congrFun (single _) _).symm.trans checked)
    | false =>
      cases checked
      rfl
  obtain ⟨rs, s₃, ran, outcome⟩ := lowerModule_ok lowered
  exact ⟨s₁, rs, s₃, prepared, ran, unchanged.trans outcome⟩

end Modules

end QuantumLowering
