import QuantumLowering.Proofs.Lowering.Tracking
import QuantumLowering.Proofs.Syntax.Copies

namespace QuantumLowering

def Definition.map {ι κ : Type} (f : ι → κ) (d : Definition ι) : Definition κ :=
  ⟨d.name, d.params, d.body.map f, d.operation⟩

@[simp]
theorem Definition.markers_map {ι κ : Type} (f : ι → κ) (d : Definition ι) :
    (d.map f).markers = d.markers := rfl

section Emission

variable {o : Options} {t : SyntaxTree} {c : Context} {p : Progress}

theorem Tracks.named (matched : Matches o c p) (base : String) :
    Tracks c p { c with names := (c.names.fresh base).2 }
      { p with names := (p.names.fresh base).2 } [] := by
  have same := Tracks.refl matched
  exact { same with names := by rw [matched.names] }

theorem Tracks.counted (matched : Matches o c p) (f : Stats → Stats) :
    Tracks c p { c with stats := f c.stats } { p with stats := f p.stats } [] := by
  have same := Tracks.refl matched
  exact { same with stats := by rw [matched.stats] }

theorem Tracks.linked (matched : Matches o c p) (f : GateFunctor) (operation variant : String) :
    Tracks c p { c with operations := c.operations.link operation f variant }
      { p with operations := p.operations.link operation f variant } [] := by
  have same := Tracks.refl matched
  exact { same with operations := by rw [matched.operations] }

theorem freshName_runs (matched : Matches o c p) (base : String) :
    RunsM (liftM (ContextM.freshName base)) t c (PlanM.freshName base) p fun name p₁ name' t₁ c₁ =>
      name' = name ∧ t₁ = t ∧ Tracks c p c₁ p₁ [] := by
  refine Runs.contextM (ContextM.run_freshName base) ⟨?_, rfl, .named matched base⟩
  rw [matched.names]

theorem modifyStats_runs (matched : Matches o c p) (f : Stats → Stats) :
    RunsM (liftM (ContextM.modifyStats f)) t c (PlanM.modifyStats f) p fun _ p₁ _ t₁ c₁ =>
      t₁ = t ∧ Tracks c p c₁ p₁ [] :=
  Runs.contextM (ContextM.run_modifyStats f) ⟨rfl, .counted matched f⟩

theorem link_runs (matched : Matches o c p) (f : GateFunctor) (operation variant : String) :
    RunsM (LowerM.link f operation variant) t c (PlanM.link f operation variant) p
      fun wire p₁ id t₁ c₁ => wire = .wire () f operation variant ∧ Tracks c p c₁ p₁ [] ∧
        Becomes t t₁ [] (StmtTree.wire id f operation variant).cells := by
  unfold LowerM.link
  rw [RunsM.after (Runs.lift_contextM (ContextM.run_modifyOperations _))]
  refine Runs.treeM (TreeM.run_addStmt _) ⟨rfl, .linked matched f operation variant, ?_⟩
  rw [StmtTree.cells_wire]
  exact .push t _

theorem deriveAdjoint_runs (d : Definition (StmtTree NodeId)) (matched : Matches o c p)
    (held : Holds t (d.body.flatMap StmtTree.cells)) :
    RunsM (LowerM.deriveAdjoint (d.map StmtTree.label)) t c
      (PlanM.deriveAdjoint o (d.map StmtTree.erase)) p fun derived p₁ a t₁ c₁ =>
        ∃ d' : Definition (StmtTree NodeId), d'.map StmtTree.erase = derived ∧
          d'.map StmtTree.label = a ∧ Tracks c p c₁ p₁ [] ∧
          Becomes t t₁ [] (d'.body.flatMap StmtTree.cells) := by
  obtain ⟨copies, t₁, copied, same, first⟩ := copyBlock_run held
  unfold LowerM.deriveAdjoint PlanM.deriveAdjoint
  rw [Definition.map, RunsM.treeM_bind copied, RunsM.get_bind, ← matched.operations,
    ← matched.options, Definition.map, ← same]
  refine RunsM.lift_bind (adjointBlock_runs copies (first.owns .nil)) ?_
  rintro _ _ t₂ _ ⟨rfl, stmts, rfl, rfl, second⟩
  refine (freshName_runs matched _).bind ?_
  rintro name p₃ _ _ c₃ ⟨rfl, rfl, named⟩
  refine (modifyStats_runs (named.matched matched) _).bind ?_
  rintro _ p₄ _ _ c₄ ⟨rfl, counted⟩
  exact .pure ⟨⟨_, d.params, stmts, some .none⟩, rfl, rfl, named.trans counted,
    first.trans second⟩

theorem deriveControlled_runs (d : Definition (StmtTree NodeId)) (matched : Matches o c p)
    (held : Holds t (d.body.flatMap StmtTree.cells)) :
    RunsM (LowerM.deriveControlled (d.map StmtTree.label)) t c
      (PlanM.deriveControlled o (d.map StmtTree.erase)) p fun derived p₁ a t₁ c₁ =>
        ∃ d' : Definition (StmtTree NodeId), d'.map StmtTree.erase = derived ∧
          d'.map StmtTree.label = a ∧ Tracks c p c₁ p₁ [] ∧
          Becomes t t₁ [] (d'.body.flatMap StmtTree.cells) := by
  obtain ⟨copies, t₁, copied, same, first⟩ := copyBlock_run held
  unfold LowerM.deriveControlled PlanM.deriveControlled
  rw [Definition.map, RunsM.treeM_bind copied, RunsM.options_bind, matched.options, Definition.map,
    ← same]
  refine (freshName_runs matched _).bind ?_
  rintro control p₂ _ _ c₂ ⟨rfl, rfl, named⟩
  have matched₂ := named.matched matched
  rw [RunsM.get_bind, ← matched₂.operations]
  refine RunsM.lift_bind (controlBlock_runs _ copies (first.owns .nil)) ?_
  rintro _ _ t₃ _ ⟨rfl, stmts, rfl, labels, second⟩
  rw [RunsM.context_bind, RunsM.get_bind, ← matched₂.insideMethod]
  refine (freshName_runs matched₂ _).bind ?_
  rintro name p₄ _ _ c₄ ⟨rfl, rfl, named'⟩
  refine (modifyStats_runs (named'.matched matched₂) _).bind ?_
  rintro _ p₅ _ _ c₅ ⟨rfl, counted⟩
  refine .pure ⟨⟨_, _, stmts, some .none⟩, rfl, ?_, named.trans (named'.trans counted),
    first.trans second⟩
  simp only [Definition.map, labels]
  rfl

theorem emitAdjoint_runs (d : Definition (StmtTree NodeId)) (matched : Matches o c p)
    (held : Holds t (d.body.flatMap StmtTree.cells)) :
    RunsM (LowerM.emitAdjoint (d.map StmtTree.label)) t c
      (PlanM.emitAdjoint o (d.map StmtTree.erase)) p fun emitted p₁ a t₁ c₁ =>
        ∃ stmts : List (StmtTree NodeId), stmts.map StmtTree.erase = emitted.1 ∧
          stmts.map StmtTree.label = a.1 ∧ emitted.2 = a.2 ∧ Tracks c p c₁ p₁ [] ∧
          Becomes t t₁ [] (stmts.flatMap StmtTree.cells) := by
  unfold LowerM.emitAdjoint PlanM.emitAdjoint
  refine (deriveAdjoint_runs d matched held).bind ?_
  rintro _ p₁ _ t₁ c₁ ⟨d', rfl, rfl, derived, first⟩
  have matched₁ := derived.matched matched
  rw [RunsM.treeM_bind (TreeM.run_addStmt _)]
  refine (link_runs matched₁ ..).bind ?_
  rintro _ p₂ there t₂ c₂ ⟨rfl, linked, second⟩
  refine (link_runs (linked.matched matched₁) ..).bind ?_
  rintro _ p₃ back t₃ c₃ ⟨rfl, linked', third⟩
  refine .pure ⟨[.define t₁.size d', .wire there .adjoint d.name d'.name,
    .wire back .adjoint d'.name d.name], ?_, rfl, rfl, derived.trans (linked.trans linked'), ?_⟩
  · simp [Definition.map]
  · simpa [Definition.map] using ((first.cons_new _).append_new second).append_new third

theorem emitControlled_runs (d : Definition (StmtTree NodeId)) (adjoint : Option String)
    (matched : Matches o c p) (held : Holds t (d.body.flatMap StmtTree.cells)) :
    RunsM (LowerM.emitControlled (d.map StmtTree.label) adjoint) t c
      (PlanM.emitControlled o (d.map StmtTree.erase) adjoint) p fun emitted p₁ ids t₁ c₁ =>
        ∃ stmts : List (StmtTree NodeId), stmts.map StmtTree.erase = emitted ∧
          stmts.map StmtTree.label = ids ∧ Tracks c p c₁ p₁ [] ∧
          Becomes t t₁ [] (stmts.flatMap StmtTree.cells) := by
  unfold LowerM.emitControlled PlanM.emitControlled
  refine (deriveControlled_runs d matched held).bind ?_
  rintro _ p₁ _ t₁ c₁ ⟨d', rfl, rfl, derived, first⟩
  have matched₁ := derived.matched matched
  cases adjoint with
  | none =>
    simp only [pure_bind]
    rw [RunsM.treeM_bind (TreeM.run_addStmt _)]
    refine (link_runs matched₁ ..).bind ?_
    rintro _ p₂ there t₂ c₂ ⟨rfl, linked, second⟩
    refine (link_runs (linked.matched matched₁) ..).bind ?_
    rintro _ p₃ self t₃ c₃ ⟨rfl, linked', third⟩
    refine .pure ⟨[.define t₁.size d', .wire there .controlled d.name d'.name,
      .wire self .controlled d'.name d'.name], ?_, rfl, derived.trans (linked.trans linked'), ?_⟩
    · simp [Definition.map]
    · simpa [Definition.map] using ((first.cons_new _).append_new second).append_new third
  | some adjoint =>
    simp only [map_eq_pure_bind, bind_assoc, pure_bind]
    refine (deriveAdjoint_runs d' matched₁ first.held).bind ?_
    rintro _ p₂ _ t₂ c₂ ⟨d'', rfl, rfl, derived', second⟩
    have matched₂ := derived'.matched matched₁
    rw [RunsM.treeM_bind (TreeM.run_addStmt _)]
    refine (link_runs matched₂ ..).bind ?_
    rintro _ p₃ there t₃ c₃ ⟨rfl, linked₃, third⟩
    have matched₃ := linked₃.matched matched₂
    refine (link_runs matched₃ ..).bind ?_
    rintro _ p₄ self t₄ c₄ ⟨rfl, linked₄, fourth⟩
    have matched₄ := linked₄.matched matched₃
    rw [RunsM.treeM_bind (TreeM.run_addStmt _)]
    refine (link_runs matched₄ ..).bind ?_
    rintro _ p₅ down t₅ c₅ ⟨rfl, linked₅, fifth⟩
    have matched₅ := linked₅.matched matched₄
    refine (link_runs matched₅ ..).bind ?_
    rintro _ p₆ up t₆ c₆ ⟨rfl, linked₆, sixth⟩
    have matched₆ := linked₆.matched matched₅
    refine (link_runs matched₆ ..).bind ?_
    rintro _ p₇ across t₇ c₇ ⟨rfl, linked₇, seventh⟩
    have matched₇ := linked₇.matched matched₆
    refine (link_runs matched₇ ..).bind ?_
    rintro _ p₈ stay t₈ c₈ ⟨rfl, linked₈, eighth⟩
    have linked := linked₃.trans (linked₄.trans (linked₅.trans
      (linked₆.trans (linked₇.trans linked₈))))
    refine .pure ⟨[.define t₂.size d', .wire there .controlled d.name d'.name,
      .wire self .controlled d'.name d'.name, .define t₄.size d'',
      .wire down .adjoint d'.name d''.name, .wire up .adjoint d''.name d'.name,
      .wire across .controlled adjoint d''.name, .wire stay .controlled d''.name d''.name], ?_, rfl,
      derived.trans (derived'.trans linked), ?_⟩
    · simp [Definition.map]
    · have definitions := ((((first.append_new second).cons_new (.stmt (.define
        (d'.map StmtTree.label)))).append_new third).append_new fourth).cons_new (.stmt (.define
        (d''.map StmtTree.label)))
      have all := (((definitions.append_new fifth).append_new sixth).append_new seventh).append_new
        eighth
      refine all.perm .rfl (List.perm_iff_count.2 fun cell => ?_)
      simp only [Definition.map, List.flatMap_cons, List.flatMap_nil, List.append_nil,
        StmtTree.cells_define, StmtTree.cells_wire, List.count_append, List.count_cons]
      omega

theorem emitVariants_runs (d : Definition (StmtTree NodeId)) (matched : Matches o c p)
    (held : Holds t (d.body.flatMap StmtTree.cells)) :
    RunsM (LowerM.emitVariants (d.map StmtTree.label)) t c
      (PlanM.emitVariants o (d.map StmtTree.erase)) p fun emitted p₁ ids t₁ c₁ =>
        ∃ stmts : List (StmtTree NodeId), stmts.map StmtTree.erase = emitted ∧
          stmts.map StmtTree.label = ids ∧ Tracks c p c₁ p₁ [] ∧
          Becomes t t₁ [] (stmts.flatMap StmtTree.cells) := by
  unfold LowerM.emitVariants PlanM.emitVariants
  -- the controlled forms come after the adjoint ones, if any
  have controlled : ∀ (adjoint : Option String) (before : List (StmtTree NodeId)) (t₁ : SyntaxTree)
      (c₁ : Context) (p₁ : Progress), Tracks c p c₁ p₁ [] →
      Becomes t t₁ [] (before.flatMap StmtTree.cells) →
      RunsM (if d.markers.controlled then do
            let ids ← LowerM.emitControlled (d.map StmtTree.label) adjoint
            pure (before.map StmtTree.label ++ ids)
          else do
            let ids ← pure []
            pure (before.map StmtTree.label ++ ids)) t₁ c₁
        (do
          let stmts ← PlanM.requestedControlled o (d.map StmtTree.erase) adjoint
          pure (before.map StmtTree.erase ++ stmts)) p₁ fun emitted p₂ ids t₂ c₂ =>
          ∃ stmts : List (StmtTree NodeId), stmts.map StmtTree.erase = emitted ∧
            stmts.map StmtTree.label = ids ∧ Tracks c p c₂ p₂ [] ∧
            Becomes t t₂ [] (stmts.flatMap StmtTree.cells) := by
    intro adjoint before t₁ c₁ p₁ tracks first
    have matched₁ := tracks.matched matched
    rw [PlanM.requestedControlled, Definition.markers_map]
    by_cases asked : d.markers.controlled
    · rw [if_pos asked, if_pos asked]
      refine (emitControlled_runs d adjoint matched₁ (first.ext.holds held (by simp))).bind ?_
      rintro _ p₂ _ t₂ c₂ ⟨stmts, rfl, rfl, tracks', second⟩
      refine .pure ⟨before ++ stmts, by simp, by simp, tracks.trans tracks', ?_⟩
      rw [List.flatMap_append]
      exact first.append_new second
    · rw [if_neg asked, if_neg asked]
      exact .pure ⟨before, by simp, by simp, tracks, first⟩
  rw [PlanM.requestedAdjoints]
  simp only [Definition.markers_map]
  by_cases asked : d.markers.adjoint
  · simp only [asked, ↓reduceIte, bind_assoc, pure_bind]
    refine (emitAdjoint_runs d matched held).bind ?_
    rintro ⟨_, name⟩ p₁ ⟨_, _⟩ t₁ c₁ ⟨stmts, rfl, rfl, rfl, tracks, first⟩
    exact controlled (some name) stmts t₁ c₁ p₁ tracks first
  · simp only [asked, Bool.false_eq_true, ↓reduceIte, pure_bind]
    exact controlled none [] t c p (.refl matched) (.refl .nil)

end Emission

end QuantumLowering
