import QuantumLowering.Lowering.Pass

/-!
What lowering does to the context apart from the open allocation blocks: it takes fresh names, counts
what it has done and writes into the table of operations. A relation that holds across each of these
steps, and composes, holds across every run of the computations that rewrite and emit code, also across
one that fails.
-/

namespace QuantumLowering

open LowerM

variable {α β : Type}

namespace ContextM

theorem get_bind (f : Context → ContextM α) (c : Context) :
    ((get : ContextM Context) >>= f) c = f c c := rfl

theorem enterStatement_cases (index : Nat) (c : Context) :
    enterStatement index c = .error (.invariant .statementOutsideAllocation) c ∨
      ∃ frame frames, c.frames = frame :: frames ∧ enterStatement index c =
        .ok () { c with frames := { frame with statement := index } :: frames } := by
  obtain ⟨options, operations, stats, names, frames, tables, insideMethod⟩ := c
  cases frames with
  | nil => exact .inl rfl
  | cons frame frames => exact .inr ⟨frame, frames, rfl, rfl⟩

theorem recordMeasurement_cases (call : NodeId) (c : Context) :
    recordMeasurement call c = .ok none c ∨
      ∃ frame frames table tables base, c.frames = frame :: frames ∧ c.tables = table :: tables ∧
        recordMeasurement call c = .ok (some (c.names.fresh base).1)
          { c with
            names := (c.names.fresh base).2,
            tables := (table ++ [⟨frame.block, frame.statement, call, (c.names.fresh base).1⟩]) ::
              tables } := by
  obtain ⟨options, operations, stats, names, frames, tables, insideMethod⟩ := c
  cases frames with
  | nil => exact .inl rfl
  | cons frame frames =>
    cases tables with
    | nil => exact .inl rfl
    | cons table tables => exact .inr ⟨frame, frames, table, tables, _, rfl, rfl, rfl⟩

theorem popAllocation_cases (block : NodeId) (c : Context) :
    (c.frames.length ≠ c.tables.length ∧ popAllocation block c =
        .error (.invariant (.unevenStacks c.frames.length c.tables.length)) c) ∨
      (c.frames = [] ∧ popAllocation block c = .error (.invariant (.closingNone block)) c) ∨
      ∃ frame frames table tables, c.frames = frame :: frames ∧ c.tables = table :: tables ∧
        popAllocation block c =
          if frame.block = block then .ok table { c with frames := frames, tables := tables }
          else .error (.invariant (.closingOuter block frame.block))
            { c with frames := frames, tables := tables } := by
  unfold popAllocation
  rw [get_bind]
  by_cases uneven : c.frames.length ≠ c.tables.length
  · rw [if_pos uneven]
    exact .inl ⟨uneven, rfl⟩
  rw [if_neg uneven]
  obtain ⟨options, operations, stats, names, frames, tables, insideMethod⟩ := c
  cases frames with
  | nil => exact .inr (.inl ⟨rfl, rfl⟩)
  | cons frame frames =>
    cases tables with
    | nil => cases uneven nofun
    | cons table tables =>
      refine .inr (.inr ⟨frame, frames, table, tables, rfl, rfl, ?_⟩)
      by_cases same : frame.block = block
      · simp only [same, if_true]
        rfl
      · simp only [same, if_false]
        rfl

theorem checkBalanced_cases (c : Context) :
    checkBalanced c = .ok () c ∨ ∃ e, checkBalanced c = .error e c := by
  unfold checkBalanced
  rw [get_bind]
  by_cases closed : (c.frames.isEmpty && c.tables.isEmpty) = true
  · rw [if_pos closed]
    exact .inl rfl
  · rw [if_neg closed]
    exact .inr ⟨_, rfl⟩

theorem resumeAllocations_cases (suspended : Suspended) (c : Context) :
    resumeAllocations suspended c =
        .ok () { c with frames := suspended.frames, tables := suspended.tables } ∨
      ∃ e, resumeAllocations suspended c = .error e c := by
  unfold resumeAllocations
  simp only [Bind.bind, EStateM.bind]
  obtain balanced | ⟨e, failed⟩ := checkBalanced_cases c
  · rw [balanced]
    exact .inl rfl
  · rw [failed]
    exact .inr ⟨e, rfl⟩

end ContextM

/-- Where a run leaves the state, with a result or without. -/
def LowerM.final (act : LowerM α) (s : LoweringState) : LoweringState :=
  match act s with
  | .ok _ s' => s'
  | .error _ s' => s'

/-- However a run ends, the contexts before and after it are related. -/
def Respects (R : Context → Context → Prop) (act : LowerM α) : Prop :=
  ∀ s, R s.context (act.final s).context

structure Progressive (R : Context → Context → Prop) : Prop where
  refl : ∀ c, R c c
  trans : ∀ {c c' c''}, R c c' → R c' c'' → R c c''
  fresh : ∀ c base, R c { c with names := (c.names.fresh base).2 }
  stats : ∀ c stats, R c { c with stats := stats }
  operations : ∀ c known, R c { c with operations := known }

namespace Progressive

variable {R : Context → Context → Prop}

theorem bind (prog : Progressive R) {act : LowerM α} {f : α → LowerM β} (first : Respects R act)
    (rest : ∀ a, Respects R (f a)) : Respects R (act >>= f) := by
  intro s
  have before := first s
  unfold LowerM.final at before ⊢
  cases ran : act s with
  | error e s' =>
    simp only [Bind.bind, EStateM.bind, ran] at before ⊢
    exact before
  | ok a s' =>
    have after := rest a s'
    unfold LowerM.final at after
    simp only [Bind.bind, EStateM.bind, ran] at before ⊢
    exact prog.trans before after

theorem pure (prog : Progressive R) (a : α) : Respects R (Pure.pure a) := fun s => prog.refl s.context

theorem throw (prog : Progressive R) (e : LoweringError) :
    Respects R (MonadExcept.throw e : LowerM α) := fun s => prog.refl s.context

theorem throw_bind (prog : Progressive R) (e : LoweringError) (f : α → LowerM β) :
    Respects R (MonadExcept.throw e >>= f) := fun s => prog.refl s.context

theorem forM (prog : Progressive R) {xs : List α} {act : α → LowerM Unit}
    (each : ∀ x ∈ xs, Respects R (act x)) : Respects R (xs.forM act) := by
  induction xs with
  | nil => exact prog.pure ()
  | cons x xs ih =>
    have rest := ih fun x inside => each x (by simp [inside])
    exact prog.bind (each x (by simp)) fun _ => rest

theorem mapM (prog : Progressive R) {xs : List α} {act : α → LowerM β}
    (each : ∀ x ∈ xs, Respects R (act x)) : Respects R (xs.mapM act) := by
  induction xs with
  | nil => exact prog.pure []
  | cons x xs ih =>
    have rest := ih fun x inside => each x (by simp [inside])
    rw [List.mapM_cons]
    exact prog.bind (each x (by simp)) fun _ => prog.bind rest fun _ => prog.pure _

theorem foldlM (prog : Progressive R) {xs : List α} {act : β → α → LowerM β}
    (each : ∀ b x, Respects R (act b x)) (b : β) : Respects R (xs.foldlM act b) := by
  induction xs generalizing b with
  | nil => exact prog.pure b
  | cons x xs ih =>
    rw [List.foldlM_cons]
    exact prog.bind (each b x) ih

theorem tree (prog : Progressive R) : Respects R LowerM.tree := fun s => prog.refl s.context

theorem context (prog : Progressive R) : Respects R LowerM.context := fun s => prog.refl s.context

theorem options (prog : Progressive R) : Respects R LowerM.options := fun s => prog.refl s.context

theorem tree_bind (prog : Progressive R) {f : SyntaxTree → LowerM β} (rest : ∀ t, Respects R (f t)) :
    Respects R (LowerM.tree >>= f) :=
  prog.bind prog.tree rest

theorem context_bind (prog : Progressive R) {f : Context → LowerM β} (rest : ∀ c, Respects R (f c)) :
    Respects R (LowerM.context >>= f) :=
  prog.bind prog.context rest

theorem options_bind (prog : Progressive R) {f : Options → LowerM β} (rest : ∀ o, Respects R (f o)) :
    Respects R (LowerM.options >>= f) :=
  prog.bind prog.options rest

theorem operations_bind (prog : Progressive R) {f : OperationTable → LowerM β}
    (rest : ∀ known, Respects R (f known)) : Respects R (LowerM.operations >>= f) :=
  prog.bind (fun s => prog.refl s.context) rest

theorem treeM (prog : Progressive R) (act : TreeM α) : Respects R (liftM act : LowerM α) := by
  intro s
  have kept : ((liftM act : LowerM α).final s).context = s.context := by
    simp only [LowerM.final, liftM, monadLift, MonadLift.monadLift]
    cases act s.tree <;> rfl
  rw [kept]
  exact prog.refl s.context

theorem treeM_bind (prog : Progressive R) {act : TreeM α} {f : α → LowerM β}
    (rest : ∀ a, Respects R (f a)) : Respects R (liftM act >>= f) :=
  prog.bind (prog.treeM act) rest

theorem except (prog : Progressive R) (r : Except TreeError α) : Respects R (liftM r : LowerM α) := by
  intro s
  cases r <;> exact prog.refl s.context

theorem except_bind (prog : Progressive R) {r : Except TreeError α} {f : α → LowerM β}
    (rest : ∀ a, Respects R (f a)) : Respects R (liftM r >>= f) :=
  prog.bind (prog.except r) rest

theorem variant_bind (prog : Progressive R) {r : Except UndefinedVariant α} {f : α → LowerM β}
    (rest : ∀ a, Respects R (f a)) : Respects R (liftM r >>= f) := by
  refine prog.bind (fun s => ?_) rest
  cases r <;> exact prog.refl s.context

theorem freshName_bind (prog : Progressive R) {base : String} {f : String → LowerM β}
    (rest : ∀ name, Respects R (f name)) : Respects R (liftM (ContextM.freshName base) >>= f) :=
  prog.bind (fun s => prog.fresh s.context base) rest

theorem modifyStats_bind (prog : Progressive R) {g : Stats → Stats} {f : Unit → LowerM β}
    (rest : ∀ a, Respects R (f a)) : Respects R (liftM (ContextM.modifyStats g) >>= f) :=
  prog.bind (fun s => prog.stats s.context (g s.context.stats)) rest

theorem modifyOperations_bind (prog : Progressive R) {g : OperationTable → OperationTable}
    {f : Unit → LowerM β} (rest : ∀ a, Respects R (f a)) :
    Respects R (liftM (ContextM.modifyOperations g) >>= f) :=
  prog.bind (fun s => prog.operations s.context (g s.context.operations)) rest

variable (prog : Progressive R) (control : String)

include prog

theorem controlPlainCall (name : String) (call func : NodeId) :
    Respects R (LowerM.controlPlainCall control name call func) := by
  unfold LowerM.controlPlainCall
  refine prog.treeM_bind fun wrapped => prog.tree_bind fun t => prog.except_bind ?_
  rintro ⟨chain, base⟩
  refine prog.operations_bind fun known => prog.variant_bind fun _ => prog.treeM_bind fun id => ?_
  exact prog.treeM_bind fun _ => prog.treeM _

theorem controlControlledCall (name : String) (call : NodeId) :
    Respects R (LowerM.controlControlledCall control name call) := by
  unfold LowerM.controlControlledCall
  refine prog.treeM_bind fun e => ?_
  split
  · exact prog.treeM_bind fun id => prog.treeM_bind fun merged => prog.treeM _
  · exact prog.throw _

theorem controlCall (call : NodeId) : Respects R (LowerM.controlCall control call) := by
  unfold LowerM.controlCall
  refine prog.tree_bind fun t => prog.except_bind fun func => prog.tree_bind fun t' =>
    prog.except_bind fun name? => ?_
  cases name? with
  | none => exact prog.pure ()
  | some name =>
    refine prog.operations_bind fun known => ?_
    split
    · refine prog.tree_bind fun t'' => prog.except_bind fun signature => ?_
      cases signature with
      | identity => exact prog.controlPlainCall control name call func
      | controlled => exact prog.controlControlledCall control name call
    · exact prog.pure ()

theorem controlCalls (expr : NodeId) : Respects R (LowerM.controlCalls control expr) :=
  prog.tree_bind fun _ => prog.except_bind fun _ =>
    prog.forM fun call _ => prog.controlCall control call

theorem controlStatementWithin (depth : Nat) (id : NodeId) :
    Respects R (LowerM.controlStatementWithin control depth id) := by
  induction depth generalizing id with
  | zero => exact prog.throw _
  | succ depth ih =>
    unfold LowerM.controlStatementWithin
    refine prog.treeM_bind fun s => ?_
    split
    · exact prog.controlCalls control _
    · exact prog.controlCalls control _
    · exact prog.forM fun part _ => ih part
    · exact prog.bind (prog.forM fun part _ => ih part) fun _ => prog.forM fun part _ => ih part
    · exact prog.pure ()

theorem controlBlock (block : List NodeId) : Respects R (LowerM.controlBlock control block) :=
  prog.tree_bind fun _ => prog.forM fun id _ => prog.controlStatementWithin control _ id

theorem deriveControlled (d : Definition NodeId) : Respects R (LowerM.deriveControlled d) := by
  unfold LowerM.deriveControlled
  refine prog.treeM_bind fun body => prog.options_bind fun o => prog.freshName_bind fun control => ?_
  refine prog.bind (prog.controlBlock control body) fun _ => prog.context_bind fun c => ?_
  exact prog.freshName_bind fun name => prog.modifyStats_bind fun _ => prog.pure _

theorem comparisonOperands (test : NodeId) : Respects R (LowerM.comparisonOperands test) := by
  unfold LowerM.comparisonOperands
  refine prog.treeM_bind fun e => ?_
  split
  · refine prog.treeM_bind fun argument => ?_
    split
    · refine prog.treeM_bind fun left => ?_
      split <;> exact prog.pure _
    · exact prog.throw _
    · exact prog.throw _
  · exact prog.options_bind fun o => prog.throw _

theorem lowerConditional (id : NodeId) : Respects R (LowerM.lowerConditional id) := by
  unfold LowerM.lowerConditional
  refine prog.treeM_bind fun s => ?_
  split
  · rename_i test body orelse
    split
    · refine prog.bind (prog.comparisonOperands test) ?_
      rintro ⟨lines, value⟩
      refine prog.options_bind fun o => prog.freshName_bind fun control => ?_
      refine prog.bind (prog.controlBlock control body) fun _ => prog.options_bind fun o' => ?_
      refine prog.treeM_bind fun boilerplate => prog.options_bind fun o'' => ?_
      refine prog.treeM_bind fun scope => prog.treeM_bind fun context => ?_
      refine prog.treeM_bind fun binding => prog.treeM_bind fun _ => ?_
      exact fun s => prog.stats s.context _
    · exact prog.throw_bind _ _
  · exact prog.throw _

theorem adjointCall (call : NodeId) : Respects R (LowerM.adjointCall call) := by
  unfold LowerM.adjointCall
  refine prog.tree_bind fun t => prog.except_bind fun func => prog.tree_bind fun t' =>
    prog.except_bind fun name? => ?_
  cases name? with
  | none => exact prog.pure ()
  | some name =>
    refine prog.operations_bind fun known => ?_
    split
    · refine prog.treeM_bind fun wrapped => prog.treeM_bind fun cancelled =>
        prog.tree_bind fun t'' => prog.except_bind ?_
      rintro ⟨chain, base⟩
      exact prog.operations_bind fun known' => prog.variant_bind fun _ => prog.treeM _
    · exact prog.pure ()

theorem adjointStatementWithin (depth : Nat) (id : NodeId) :
    Respects R (LowerM.adjointStatementWithin depth id) := by
  have calls : ∀ expr, Respects R (LowerM.adjointCalls expr) := fun _ =>
    prog.tree_bind fun _ => prog.except_bind fun _ => prog.forM fun call _ => prog.adjointCall call
  induction depth generalizing id with
  | zero => exact prog.throw _
  | succ depth ih =>
    have block : ∀ body : List NodeId, Respects R (body.forM (LowerM.adjointStatementWithin depth)) :=
      fun body => prog.forM fun part _ => ih part
    unfold LowerM.adjointStatementWithin
    refine prog.treeM_bind fun s => ?_
    split
    · exact calls _
    · exact calls _
    · refine prog.tree_bind fun t => prog.options_bind fun o => prog.except_bind fun isScope => ?_
      refine prog.bind (block _) fun _ => ?_
      split
      · exact prog.treeM _
      · exact prog.pure ()
    · exact prog.bind (block _) fun _ => block _
    · exact prog.pure ()

theorem adjointBlock (block : List NodeId) : Respects R (LowerM.adjointBlock block) :=
  prog.tree_bind fun _ =>
    prog.bind (prog.forM fun id _ => prog.adjointStatementWithin _ id) fun _ => prog.pure _

theorem deriveAdjoint (d : Definition NodeId) : Respects R (LowerM.deriveAdjoint d) := by
  unfold LowerM.deriveAdjoint
  refine prog.treeM_bind fun body => prog.bind (prog.adjointBlock body) fun body' => ?_
  exact prog.freshName_bind fun name => prog.modifyStats_bind fun _ => prog.pure _

theorem emitProxies (ordinal : Nat) (entries : List HoistEntry) :
    Respects R (LowerM.emitProxies ordinal entries) := by
  induction entries generalizing ordinal with
  | nil => exact prog.pure []
  | cons entry entries ih =>
    unfold LowerM.emitProxies
    refine prog.options_bind fun o => prog.freshName_bind fun proxy => ?_
    refine prog.treeM_bind fun target => prog.treeM_bind fun assign => ?_
    exact prog.bind (ih (ordinal + 1)) fun _ => prog.pure _

theorem emitExecution (proxies placeholders : List String) :
    Respects R (LowerM.emitExecution proxies placeholders) := by
  unfold LowerM.emitExecution
  refine prog.options_bind fun o => prog.treeM_bind fun boilerplate => ?_
  refine prog.options_bind fun o' => prog.treeM_bind fun execute => ?_
  refine prog.treeM_bind fun args => prog.treeM_bind fun call => ?_
  exact prog.treeM_bind fun targets => prog.treeM_bind fun target => prog.treeM _

theorem emitBatch (entries : List HoistEntry) (body : List NodeId) :
    Respects R (LowerM.emitBatch entries body) := by
  unfold LowerM.emitBatch
  split
  · exact prog.pure body
  · refine prog.bind (prog.emitProxies 1 entries) fun emitted => ?_
    refine prog.bind (prog.emitExecution _ _) fun execution => ?_
    exact prog.modifyStats_bind fun _ => prog.pure _

theorem link (functor : GateFunctor) (operation variant : String) :
    Respects R (LowerM.link functor operation variant) :=
  prog.modifyOperations_bind fun _ => prog.treeM _

theorem link_bind {functor : GateFunctor} {operation variant : String} {f : NodeId → LowerM β}
    (rest : ∀ id, Respects R (f id)) : Respects R (LowerM.link functor operation variant >>= f) :=
  prog.bind (prog.link functor operation variant) rest

theorem emitAdjoint (d : Definition NodeId) : Respects R (LowerM.emitAdjoint d) := by
  unfold LowerM.emitAdjoint
  refine prog.bind (prog.deriveAdjoint d) fun derived => prog.treeM_bind fun id => ?_
  exact prog.link_bind fun there => prog.link_bind fun back => prog.pure _

theorem emitControlled (d : Definition NodeId) (adjoint : Option String) :
    Respects R (LowerM.emitControlled d adjoint) := by
  unfold LowerM.emitControlled
  refine prog.bind (prog.deriveControlled d) fun controlled => ?_
  cases adjoint with
  | none =>
    refine prog.bind (prog.pure none) fun both => prog.treeM_bind fun id => ?_
    exact prog.link_bind fun there => prog.link_bind fun self => prog.pure _
  | some adjoint =>
    refine prog.bind (prog.bind (prog.deriveAdjoint controlled) fun both => prog.pure _) fun both => ?_
    refine prog.treeM_bind fun id => prog.link_bind fun there => prog.link_bind fun self => ?_
    cases both with
    | none => exact prog.pure _
    | some both =>
      refine prog.treeM_bind fun bothId => prog.link_bind fun down => prog.link_bind fun up => ?_
      exact prog.link_bind fun across => prog.link_bind fun stay => prog.pure _

theorem emitVariants (d : Definition NodeId) : Respects R (LowerM.emitVariants d) := by
  have controlled : ∀ adjointIds adjoint, Respects R
      (if d.markers.controlled then do
        let controlledIds ← LowerM.emitControlled d adjoint
        Pure.pure (adjointIds ++ controlledIds)
      else do
        let controlledIds ← Pure.pure []
        Pure.pure (adjointIds ++ controlledIds)) := by
    intro adjointIds adjoint
    split
    · exact prog.bind (prog.emitControlled d adjoint) fun _ => prog.pure _
    · exact prog.pure _
  show Respects R (if d.markers.adjoint then LowerM.emitAdjoint d >>= _ else _)
  split
  · exact prog.bind (prog.emitAdjoint d) fun r => controlled r.1 (some r.2)
  · exact controlled [] none

end Progressive

end QuantumLowering
