import QuantumLowering.Proofs.Lowering.ControlPosition
import QuantumLowering.Proofs.Lowering.Regions

namespace QuantumLowering

namespace Region

/-- A link may be about the name: a definition in the region has it and asks for variants, or it is the
name of a variant. -/
def Linkable (r : Region) (old : String → Prop) (n : String) : Prop :=
  r.marked n ∨ ¬ old n ∧ n.startsWith "_"

/-- The measurements that wait are inside, the old names stay taken, and other entries than those that
links may be about are as they were. -/
structure Holds (r : Region) (old : String → Prop) (known : OperationTable) (c : Context) : Prop where
  waiting : ∀ table ∈ c.tables, ∀ entry ∈ table, r.inside entry.call
  taken : ∀ x, old x → x ∈ c.names.taken
  entries : ∀ n, c.operations.get? n = known.get? n ∨ r.Linkable old n

structure Contains (r : Region) (old : String → Prop) (known : OperationTable) (s : LoweringState) :
    Prop where
  closed : r.Closed s.tree
  holds : r.Holds old known s.context

variable {α β : Type} {r : Region} {old : String → Prop} {known : OperationTable} {post : α → Prop}

section Context

theorem freshName (base : String) : Upholds (r.Holds old known) (ContextM.freshName base)
    fun name => ¬ old name ∧ (base.startsWith "_" → name.startsWith "_") := by
  intro c name c' ended holds
  cases ended
  exact ⟨⟨holds.waiting, fun x before => List.mem_cons_of_mem _ (holds.taken x before), holds.entries⟩,
    fun before => c.names.fresh_not_mem base (holds.taken _ before),
    fun starts => NameSupply.startsWith_fresh starts _⟩

theorem modifyStats (f : Stats → Stats) :
    Upholds (r.Holds old known) (ContextM.modifyStats f) fun _ => True := by
  intro c _ c' ended holds
  cases ended
  exact ⟨⟨holds.waiting, holds.taken, holds.entries⟩, trivial⟩

theorem modifyLink {operation : String} (linkable : r.Linkable old operation) (f : GateFunctor)
    (variant : String) : Upholds (r.Holds old known)
      (ContextM.modifyOperations (OperationTable.link · operation f variant)) fun _ => True := by
  intro c _ c' ended holds
  cases ended
  refine ⟨⟨holds.waiting, holds.taken, fun n => ?_⟩, trivial⟩
  by_cases same : n = operation
  · exact .inr (same ▸ linkable)
  · rw [OperationTable.get?_link_of_ne same]
    exact holds.entries n

theorem recordMeasurement {call : NodeId} (member : r.inside call) :
    Upholds (r.Holds old known) (ContextM.recordMeasurement call) fun _ => True := by
  intro c placeholder c' ended holds
  obtain nothing | ⟨frame, frames, table, tables, base, -, listed, ran⟩ :=
    ContextM.recordMeasurement_cases call c
  · cases nothing.symm.trans ended
    exact ⟨holds, trivial⟩
  · cases ran.symm.trans ended
    have waiting := holds.waiting
    rw [listed, List.forall_mem_cons] at waiting
    refine ⟨⟨?_, fun x before => List.mem_cons_of_mem _ (holds.taken x before), holds.entries⟩, trivial⟩
    refine List.forall_mem_cons.2 ⟨List.forall_mem_append.2 ⟨waiting.1, ?_⟩, waiting.2⟩
    simpa using member

theorem pushAllocation (block : NodeId) :
    Upholds (r.Holds old known) (ContextM.pushAllocation block) fun _ => True := by
  intro c _ c' ended holds
  cases ended
  exact ⟨⟨List.forall_mem_cons.2 ⟨by simp, holds.waiting⟩, holds.taken, holds.entries⟩, trivial⟩

theorem enterStatement (index : Nat) :
    Upholds (r.Holds old known) (ContextM.enterStatement index) fun _ => True := by
  intro c _ c' ended holds
  obtain failed | ⟨frame, frames, -, ran⟩ := ContextM.enterStatement_cases index c
  · cases failed.symm.trans ended
  · cases ran.symm.trans ended
    exact ⟨⟨holds.waiting, holds.taken, holds.entries⟩, trivial⟩

theorem popAllocation (block : NodeId) : Upholds (r.Holds old known) (ContextM.popAllocation block)
    fun entries => ∀ entry ∈ entries, r.inside entry.call := by
  intro c entries c' ended holds
  obtain ⟨-, failed⟩ | ⟨-, failed⟩ | ⟨frame, frames, table, tables, -, listed, ran⟩ :=
    ContextM.popAllocation_cases block c
  · cases failed.symm.trans ended
  · cases failed.symm.trans ended
  · have waiting := holds.waiting
    rw [listed, List.forall_mem_cons] at waiting
    rw [ran] at ended
    split at ended
    · cases ended
      exact ⟨⟨waiting.2, holds.taken, holds.entries⟩, waiting.1⟩
    · cases ended

theorem suspendAllocations : Upholds (r.Holds old known) ContextM.suspendAllocations
    fun suspended => ∀ table ∈ suspended.tables, ∀ entry ∈ table, r.inside entry.call := by
  intro c suspended c' ended holds
  cases ended
  exact ⟨⟨by simp, holds.taken, holds.entries⟩, holds.waiting⟩

theorem resumeAllocations {suspended : Suspended}
    (waiting : ∀ table ∈ suspended.tables, ∀ entry ∈ table, r.inside entry.call) :
    Upholds (r.Holds old known) (ContextM.resumeAllocations suspended) fun _ => True := by
  intro c _ c' ended holds
  rw [resumeAllocations_eq ended]
  exact ⟨⟨waiting, holds.taken, holds.entries⟩, trivial⟩

end Context

section Lifting

theorem treeM {act : TreeM α} (run : Upholds r.Closed act post) :
    Upholds (r.Contains old known) (liftM act : LowerM α) post := by
  intro s a s' ended contains
  simp only [liftM, monadLift, MonadLift.monadLift] at ended
  cases ran : act s.tree with
  | error e t' =>
    rw [ran] at ended
    cases ended
  | ok b t' =>
    rw [ran] at ended
    cases ended
    obtain ⟨closed, holds⟩ := run _ _ _ ran contains.closed
    exact ⟨⟨closed, contains.holds⟩, holds⟩

theorem contextM {act : ContextM α} (run : Upholds (r.Holds old known) act post) :
    Upholds (r.Contains old known) (liftM act : LowerM α) post := by
  intro s a s' ended contains
  obtain ⟨ran, same⟩ := LowerM.exists_of_lift_ok ended
  obtain ⟨kept, holds⟩ := run _ _ _ ran contains.holds
  exact ⟨⟨same ▸ contains.closed, kept⟩, holds⟩

theorem tree : Upholds (r.Contains old known) LowerM.tree r.Closed := by
  intro s t s' ended contains
  cases ended
  exact ⟨contains, contains.closed⟩

theorem observing {act : LowerM α} (observes : Observes act) :
    Upholds (r.Contains old known) act fun _ => True := by
  intro s a s' ended contains
  rw [observes.eq_of_ok ended]
  exact ⟨contains, trivial⟩

theorem except {found : Except TreeError α} (holds : ∀ a, found = .ok a → post a) :
    Upholds (r.Contains old known) (liftM found : LowerM α) post := by
  intro s a s' ended contains
  cases found with
  | error e => cases ended
  | ok b =>
    cases ended
    exact ⟨contains, holds _ rfl⟩

end Lifting

section Controls

variable {id call func : NodeId}

theorem controlPlainCall (control name : String) (member : r.inside call) (inner : r.inside func) :
    Upholds (r.Contains old known) (LowerM.controlPlainCall control name call func) fun _ => True := by
  unfold LowerM.controlPlainCall
  refine .bind (treeM (addExpr (by simpa [Expr.children] using inner))) fun wrapped around => ?_
  refine .bind tree fun t _ => .bind (observing (.except _)) ?_
  rintro ⟨chain, base⟩ -
  refine .bind (observing .operations) fun _ _ => .bind (observing (.variant _)) fun _ _ => ?_
  refine .bind (treeM (addName control)) fun new there => .bind (treeM (setCallee member around)) ?_
  exact fun _ _ => treeM (modifyArgs member fun args all => List.forall_mem_cons.2 ⟨there, all⟩)

theorem controlControlledCall (control name : String) (member : r.inside call) :
    Upholds (r.Contains old known) (LowerM.controlControlledCall control name call) fun _ => True := by
  unfold LowerM.controlControlledCall
  refine .bind (treeM (expr member)) fun e parts => ?_
  split
  · refine .bind (treeM (addName control)) fun new there => ?_
    refine .bind (treeM (mergeControl (parts _ (by simp [Expr.children])) there)) fun merged inner => ?_
    exact treeM (modifyArgs member fun args all => List.forall_mem_cons.2
      ⟨inner, fun arg rest => all arg (List.mem_of_mem_drop rest)⟩)
  · exact .throw _

theorem controlCall (control : String) (member : r.inside call) :
    Upholds (r.Contains old known) (LowerM.controlCall control call) fun _ => True := by
  unfold LowerM.controlCall
  refine .bind tree fun t closed => .bind (except fun _ => closed.callee member) fun func inner => ?_
  refine .bind tree fun _ _ => .bind (observing (.except _)) fun name? _ => ?_
  cases name? with
  | none => exact .pure trivial
  | some name =>
    refine .bind (observing .operations) fun _ _ => ?_
    split
    · refine .bind tree fun _ _ => .bind (observing (.except _)) fun signature _ => ?_
      cases signature with
      | identity => exact controlPlainCall control name member inner
      | controlled => exact controlControlledCall control name member
    · exact .pure trivial

theorem controlStatementWithin (control : String) (depth : Nat) (member : r.inside id) :
    Upholds (r.Contains old known) (LowerM.controlStatementWithin control depth id) fun _ => True := by
  have calls {expr : NodeId} (member : r.inside expr) :
      Upholds (r.Contains old known) (LowerM.controlCalls control expr) fun _ => True :=
    .bind tree fun t closed => .bind (except fun _ => closed.callsIn member) fun calls inner =>
      .forM fun call listed => controlCall control (inner call listed)
  induction depth generalizing id with
  | zero => exact .throw _
  | succ depth ih =>
    unfold LowerM.controlStatementWithin
    refine .bind (treeM (stmt member)) fun s allowed => ?_
    have parts := allowed.parts
    split
    · exact calls (parts _ (by simp [Node.children, Stmt.children]))
    · exact calls (parts _ (by simp [Node.children, Stmt.children]))
    · exact .forM fun part listed => ih (parts part (by simp [Node.children, Stmt.children, listed]))
    · exact .bind (.forM fun part listed => ih (parts part (by simp [Node.children, Stmt.children, listed])))
        fun _ _ => .forM fun part listed => ih (parts part (by simp [Node.children, Stmt.children, listed]))
    · exact .pure trivial

theorem controlBlock (control : String) {block : List NodeId} (members : ∀ id ∈ block, r.inside id) :
    Upholds (r.Contains old known) (LowerM.controlBlock control block) fun _ => True :=
  .bind tree fun _ _ => .forM fun id listed => controlStatementWithin control _ (members id listed)

end Controls

theorem comparisonOperands {test : NodeId} (member : r.inside test) :
    Upholds (r.Contains old known) (LowerM.comparisonOperands test)
      fun operands => r.inside operands.1 ∧ r.inside operands.2 := by
  unfold LowerM.comparisonOperands
  refine .bind (treeM (expr member)) fun e parts => ?_
  split
  · refine .bind (treeM (expr (parts _ (by simp [Expr.children])))) fun argument parts => ?_
    split
    · simp only [Expr.children, List.forall_mem_cons] at parts
      refine .bind (treeM (expr parts.1)) fun left _ => ?_
      split
      · exact .pure ⟨parts.2.1, parts.1⟩
      · exact .pure ⟨parts.1, parts.2.1⟩
    · exact .throw _
    · exact .throw _
  · exact .bind (observing .options) fun _ _ => .throw _

theorem lowerConditional {id : NodeId} (member : r.inside id) :
    Upholds (r.Contains old known) (LowerM.lowerConditional id) fun _ => True := by
  unfold LowerM.lowerConditional
  refine .bind (treeM (stmt member)) fun s allowed => ?_
  split
  next test body orelse =>
    have parts := allowed.parts
    simp only [Node.children, Stmt.children, List.forall_mem_cons, List.forall_mem_append] at parts
    split
    · refine .bind (comparisonOperands parts.1) ?_
      rintro ⟨lines, value⟩ ⟨inner, inner'⟩
      refine .bind (observing .options) fun _ _ => .bind (contextM (freshName _)) fun control _ => ?_
      refine .bind (controlBlock control parts.2.1) fun _ _ => .bind (observing .options) fun _ _ => ?_
      refine .bind (treeM (addName _)) fun boilerplate there => .bind (observing .options) fun _ _ => ?_
      refine .bind (treeM (addExpr (by simpa [Expr.children] using there))) fun scope called => ?_
      refine .bind (treeM (addExpr ?_)) fun context opened => ?_
      · simp [Expr.children, called, inner, inner']
      refine .bind (treeM (addName control)) fun binding bound => ?_
      refine .bind (treeM (setStmt (allows_stmt ?_ fun _ same => by cases same))) fun _ _ =>
        contextM (modifyStats _)
      simpa [Stmt.children, opened, bound] using parts.2.1
    · exact .throw_bind _ _
  next => exact .throw _

section Adjoints

variable {id call : NodeId}

theorem adjointCall (member : r.inside call) :
    Upholds (r.Contains old known) (LowerM.adjointCall call) fun _ => True := by
  unfold LowerM.adjointCall
  refine .bind tree fun t closed => .bind (except fun _ => closed.callee member) fun func inner => ?_
  refine .bind tree fun _ _ => .bind (observing (.except _)) fun name? _ => ?_
  cases name? with
  | none => exact .pure trivial
  | some name =>
    refine .bind (observing .operations) fun _ _ => ?_
    split
    · refine .bind (treeM (addExpr (by simpa [Expr.children] using inner))) fun wrapped around => ?_
      refine .bind (treeM (cancelAdjointPairs around)) fun reduced around' => ?_
      refine .bind tree fun _ _ => .bind (observing (.except _)) ?_
      rintro ⟨chain, base⟩ -
      refine .bind (observing .operations) fun _ _ => .bind (observing (.variant _)) fun _ _ => ?_
      exact treeM (setCallee member around')
    · exact .pure trivial

theorem adjointStatementWithin (depth : Nat) (member : r.inside id) :
    Upholds (r.Contains old known) (LowerM.adjointStatementWithin depth id) fun _ => True := by
  have calls {expr : NodeId} (member : r.inside expr) :
      Upholds (r.Contains old known) (LowerM.adjointCalls expr) fun _ => True :=
    .bind tree fun t closed => .bind (except fun _ => closed.callsIn member) fun calls inner =>
      .forM fun call listed => adjointCall (inner call listed)
  induction depth generalizing id with
  | zero => exact .throw _
  | succ depth ih =>
    have block {body : List NodeId} (inner : ∀ part ∈ body, r.inside part) :
        Upholds (r.Contains old known) (body.forM (LowerM.adjointStatementWithin depth)) fun _ => True :=
      .forM fun part listed => ih (inner part listed)
    unfold LowerM.adjointStatementWithin
    refine .bind (treeM (stmt member)) fun s allowed => ?_
    have parts := allowed.parts
    split
    · exact calls (parts _ (by simp [Node.children, Stmt.children]))
    · exact calls (parts _ (by simp [Node.children, Stmt.children]))
    · simp only [Node.children, Stmt.children, List.forall_mem_cons, List.forall_mem_append] at parts
      refine .bind tree fun _ _ => .bind (observing .options) fun _ _ => ?_
      refine .bind (observing (.except _)) fun isScope _ => .bind (block parts.2.2) fun _ _ => ?_
      split
      · exact treeM (setScopedBody member (by simpa using parts.2.2))
      · exact .pure trivial
    · simp only [Node.children, Stmt.children, List.forall_mem_cons, List.forall_mem_append] at parts
      exact .bind (block parts.2.1) fun _ _ => block parts.2.2
    · exact .pure trivial

theorem adjointBlock {block : List NodeId} (members : ∀ id ∈ block, r.inside id) :
    Upholds (r.Contains old known) (LowerM.adjointBlock block) fun ids => ∀ id ∈ ids, r.inside id :=
  .bind tree fun _ _ => .bind (.forM fun id listed => adjointStatementWithin _ (members id listed))
    fun _ _ => .pure (by simpa using members)

end Adjoints

structure Derived (r : Region) (old : String → Prop) (d : Definition NodeId) : Prop where
  linkable : r.Linkable old d.name
  body : ∀ id ∈ d.body, r.inside id
  unmarked : d.markers = .none

section Variants

variable {d : Definition NodeId}

theorem deriveAdjoint (body : ∀ id ∈ d.body, r.inside id) :
    Upholds (r.Contains old known) (LowerM.deriveAdjoint d) (r.Derived old) := by
  unfold LowerM.deriveAdjoint
  refine .bind (treeM (copyBlock body)) fun copy inner => .bind (adjointBlock inner) fun body' inner' => ?_
  refine .bind (contextM (freshName _)) fun name new => .bind (contextM (modifyStats _)) fun _ _ => ?_
  exact .pure ⟨.inr ⟨new.1, new.2 (startsWith_variantBase _ _)⟩, inner', rfl⟩

theorem deriveControlled (body : ∀ id ∈ d.body, r.inside id) :
    Upholds (r.Contains old known) (LowerM.deriveControlled d) (r.Derived old) := by
  unfold LowerM.deriveControlled
  refine .bind (treeM (copyBlock body)) fun copy inner => .bind (observing .options) fun _ _ => ?_
  refine .bind (contextM (freshName _)) fun control _ => .bind (controlBlock control inner) fun _ _ => ?_
  refine .bind (observing .context) fun _ _ => .bind (contextM (freshName _)) fun name new => ?_
  refine .bind (contextM (modifyStats _)) fun _ _ => ?_
  exact .pure ⟨.inr ⟨new.1, new.2 (startsWith_variantBase _ _)⟩, inner, rfl⟩

theorem addDerived (derived : r.Derived old d) :
    Upholds (r.Contains old known) (liftM (TreeM.addStmt (.define d)) : LowerM NodeId) r.inside := by
  refine treeM (add ⟨derived.body, fun d' same marked => ?_⟩)
  cases same
  exact absurd derived.unmarked marked

theorem link {operation : String} (linkable : r.Linkable old operation) (f : GateFunctor)
    (variant : String) : Upholds (r.Contains old known) (LowerM.link f operation variant) r.inside :=
  .bind (contextM (modifyLink linkable f variant)) fun _ _ =>
    treeM (add (allows_stmt (by simp [Stmt.children]) fun _ same => by cases same))

theorem emitAdjoint (linkable : r.Linkable old d.name) (body : ∀ id ∈ d.body, r.inside id) :
    Upholds (r.Contains old known) (LowerM.emitAdjoint d)
      fun emitted => (∀ id ∈ emitted.1, r.inside id) ∧ r.Linkable old emitted.2 := by
  refine .bind (deriveAdjoint body) fun derived form => .bind (addDerived form) fun id there => ?_
  refine .bind (link linkable _ _) fun down inner => .bind (link form.linkable _ _) fun up inner' => ?_
  exact .pure ⟨by simp [there, inner, inner'], form.linkable⟩

theorem emitControlled {adjoint : Option String} (linkable : r.Linkable old d.name)
    (linkable' : ∀ name ∈ adjoint, r.Linkable old name) (body : ∀ id ∈ d.body, r.inside id) :
    Upholds (r.Contains old known) (LowerM.emitControlled d adjoint) fun ids => ∀ id ∈ ids, r.inside id := by
  refine .bind (deriveControlled body) fun controlled form => ?_
  cases adjoint with
  | none =>
    have nothing : Upholds (r.Contains old known)
        (pure none : LowerM (Option (Definition NodeId))) fun both => both = none := .pure rfl
    refine .bind nothing fun both none => ?_
    subst none
    refine .bind (addDerived form) fun id there => .bind (link linkable _ _) fun down inner => ?_
    exact .bind (link form.linkable _ _) fun self inner' => .pure (by simp [there, inner, inner'])
  | some adjoint =>
    have linkable' := linkable' adjoint rfl
    have adjoined : Upholds (r.Contains old known) (some <$> LowerM.deriveAdjoint controlled)
        fun both => ∀ d ∈ both, r.Derived old d :=
      .bind (deriveAdjoint form.body) fun both form' => .pure (by simpa using form')
    refine .bind adjoined fun both form' => ?_
    refine .bind (addDerived form) fun id there => .bind (link linkable _ _) fun down inner => ?_
    refine .bind (link form.linkable _ _) fun self inner' => ?_
    cases both with
    | none => exact .pure (by simp [there, inner, inner'])
    | some both =>
      have form' := form' both rfl
      refine .bind (addDerived form') fun id' there' => .bind (link form.linkable _ _) fun _ first => ?_
      refine .bind (link form'.linkable _ _) fun _ second => .bind (link linkable' _ _) fun _ third => ?_
      refine .bind (link form'.linkable _ _) fun _ fourth => .pure ?_
      simp [there, inner, inner', there', first, second, third, fourth]

theorem emitVariants (named : d.markers ≠ .none → r.marked d.name) (body : ∀ id ∈ d.body, r.inside id) :
    Upholds (r.Contains old known) (LowerM.emitVariants d) fun ids => ∀ id ∈ ids, r.inside id := by
  have controlled {adjointIds : List NodeId} {adjoint : Option String}
      (inner : ∀ id ∈ adjointIds, r.inside id) (linkable : ∀ name ∈ adjoint, r.Linkable old name) :
      Upholds (r.Contains old known) (do
        let controlledIds ← if d.markers.controlled then LowerM.emitControlled d adjoint else pure []
        return adjointIds ++ controlledIds) fun ids => ∀ id ∈ ids, r.inside id := by
    by_cases marked : d.markers.controlled
    · rw [if_pos marked]
      have own : r.Linkable old d.name := .inl (named fun none => by simp [none, Markers.none] at marked)
      exact .bind (emitControlled own linkable body) fun ids inner' =>
        .pure (List.forall_mem_append.2 ⟨inner, inner'⟩)
    · rw [if_neg marked]
      exact .pure (by simpa using inner)
  unfold LowerM.emitVariants
  by_cases marked : d.markers.adjoint
  · simp only [marked, if_true]
    have own : r.Linkable old d.name := .inl (named fun none => by simp [none, Markers.none] at marked)
    refine .bind (emitAdjoint own body) ?_
    rintro ⟨ids, name⟩ ⟨inner, linkable⟩
    exact controlled inner (by simpa using linkable)
  · simp only [marked]
    exact controlled (by simp) (by simp)

end Variants

theorem hoistMeasurement {site : NodeId} (member : r.inside site) :
    Upholds (r.Contains old known) (LowerM.hoistMeasurement site) fun _ => True := by
  unfold LowerM.hoistMeasurement
  refine .bind (treeM (expr member)) fun call parts => .bind (treeM (addExpr parts)) fun moved inner => ?_
  refine .bind (contextM (recordMeasurement inner)) fun placeholder _ => ?_
  cases placeholder with
  | none => exact .throw _
  | some placeholder => exact treeM (setExpr (by simp [Expr.children]))

theorem replaceMeasurements {site : NodeId} (member : r.inside site) :
    Upholds (r.Contains old known) (LowerM.replaceMeasurements site) fun _ => True := by
  unfold LowerM.replaceMeasurements
  refine .bind (observing .context) fun c _ => ?_
  split
  · exact .pure trivial
  · refine .bind tree fun t closed => .bind (observing .options) fun _ _ => ?_
    refine .bind (except fun _ => closed.measurements member) fun sites inner => ?_
    exact .forM fun site listed => hoistMeasurement (inner site listed)

theorem emitProxies {entries : List HoistEntry} (inner : ∀ entry ∈ entries, r.inside entry.call)
    (ordinal : Nat) : Upholds (r.Contains old known) (LowerM.emitProxies ordinal entries)
      fun emitted => ∀ proxy ∈ emitted, r.inside proxy.1 := by
  induction entries generalizing ordinal with
  | nil => exact .pure (by simp)
  | cons entry entries ih =>
    rw [List.forall_mem_cons] at inner
    unfold LowerM.emitProxies
    refine .bind (observing .options) fun _ _ => .bind (contextM (freshName _)) fun proxy _ => ?_
    refine .bind (treeM (addName proxy)) fun target there => ?_
    refine .bind (treeM (add (allows_stmt (by simp [Stmt.children, there, inner.1])
      fun _ same => by cases same))) fun assign assigned => ?_
    exact .bind (ih inner.2 (ordinal + 1)) fun rest all => .pure (List.forall_mem_cons.2 ⟨assigned, all⟩)

theorem emitExecution (proxies placeholders : List String) :
    Upholds (r.Contains old known) (LowerM.emitExecution proxies placeholders) r.inside := by
  unfold LowerM.emitExecution
  refine .bind (observing .options) fun _ _ => .bind (treeM (addName _)) fun boilerplate there => ?_
  refine .bind (observing .options) fun _ _ => ?_
  refine .bind (treeM (addExpr (by simpa [Expr.children] using there))) fun execute inner => ?_
  refine .bind (treeM (addNames proxies)) fun args given => ?_
  refine .bind (treeM (addExpr ?_)) fun call called => ?_
  · simpa [Expr.children, inner] using given
  refine .bind (treeM (addNames placeholders)) fun targets named => ?_
  refine .bind (treeM (addExpr (by simpa [Expr.children] using named))) fun target bound => ?_
  exact treeM (add (allows_stmt (by simp [Stmt.children, bound, called]) fun _ same => by cases same))

theorem emitBatch {entries : List HoistEntry} {body : List NodeId}
    (waiting : ∀ entry ∈ entries, r.inside entry.call) (inner : ∀ id ∈ body, r.inside id) :
    Upholds (r.Contains old known) (LowerM.emitBatch entries body) fun ids => ∀ id ∈ ids, r.inside id := by
  unfold LowerM.emitBatch
  split
  · exact .pure inner
  next position _ =>
    refine .bind (emitProxies waiting 1) fun emitted proxies => ?_
    refine .bind (emitExecution _ _) fun execution there => .bind (contextM (modifyStats _)) fun _ _ => ?_
    refine .pure ?_
    simp only [List.forall_mem_append, List.forall_mem_map]
    exact ⟨⟨⟨fun id before => inner id (List.mem_of_mem_take before), proxies⟩, by simpa using there⟩,
      fun id after => inner id (List.mem_of_mem_drop after)⟩

section Step

variable {lower : NodeId → LowerM (List NodeId)} {id : NodeId} {body : List NodeId}
  (each : ∀ id, r.inside id → Upholds (r.Contains old known) (lower id) fun ids => ∀ id ∈ ids, r.inside id)

include each

theorem lowerBlock (inner : ∀ id ∈ body, r.inside id) :
    Upholds (r.Contains old known) (LowerM.lowerBlock lower body) fun ids => ∀ id ∈ ids, r.inside id :=
  .bind (.mapM fun id listed => each id (inner id listed)) fun lists all => .pure fun id listed => by
    obtain ⟨ids, member, inside⟩ := List.mem_flatten.1 listed
    exact all ids member id inside

theorem lowerBlock_within (flag : Bool) (inner : ∀ id ∈ body, r.inside id) :
    Upholds (r.Contains old known) (LowerM.withInsideMethod flag (LowerM.lowerBlock lower body))
      fun ids => ∀ id ∈ ids, r.inside id := by
  intro s ids s' ended contains
  obtain ⟨s₁, ran, rfl⟩ := withInsideMethod_ok ended
  have start : r.Contains old known { s with context.insideMethod := flag } :=
    ⟨contains.closed, contains.holds.waiting, contains.holds.taken, contains.holds.entries⟩
  obtain ⟨⟨closed, holds⟩, all⟩ := lowerBlock each inner _ _ _ ran start
  exact ⟨⟨closed, holds.waiting, holds.taken, holds.entries⟩, all⟩

theorem lowerDefinition {d : Definition NodeId} (member : r.inside id)
    (allowed : r.Allows (.stmt (.define d))) :
    Upholds (r.Contains old known) (LowerM.lowerDefinition lower id d) fun ids => ∀ id ∈ ids, r.inside id := by
  -- what waits in the blocks around the definition is inside when it comes back
  refine .bind (contextM suspendAllocations) fun suspended waiting => ?_
  refine .bind (lowerBlock_within each false allowed.parts) fun body inner => ?_
  refine .bind (contextM (resumeAllocations waiting)) fun _ _ => ?_
  refine .bind (treeM (setDefinitionBody member inner)) fun _ _ => ?_
  refine .bind (emitVariants (fun marked => allowed.named d rfl marked) inner) fun variants all => ?_
  exact .pure (List.forall_mem_cons.2 ⟨member, all⟩)

theorem lowerAllocated {lowered : List NodeId} (inner : ∀ id ∈ lowered, r.inside id)
    (inner' : ∀ id ∈ body, r.inside id) : Upholds (r.Contains old known)
      (LowerM.lowerAllocated lower lowered body) fun ids => ∀ id ∈ ids, r.inside id := by
  induction body generalizing lowered with
  | nil => exact .pure inner
  | cons nested rest ih =>
    rw [List.forall_mem_cons] at inner'
    refine .bind (contextM (enterStatement _)) fun _ _ => .bind (each nested inner'.1) fun ids all => ?_
    exact ih (List.forall_mem_append.2 ⟨inner, all⟩) inner'.2

theorem lowerScoped {context : NodeId} (member : r.inside id) (inner : r.inside context)
    (inner' : ∀ id ∈ body, r.inside id) :
    Upholds (r.Contains old known) (LowerM.lowerScoped lower id context body) fun _ => True := by
  refine .bind tree fun _ _ => .bind (observing .options) fun _ _ => ?_
  refine .bind (observing (.except _)) fun allocates _ => ?_
  split
  · refine .bind (replaceMeasurements inner) fun _ _ => .bind (contextM (pushAllocation id)) fun _ _ => ?_
    refine .bind (lowerAllocated each (by simp) inner') fun lowered all => ?_
    refine .bind (contextM (popAllocation id)) fun entries waiting => ?_
    exact .bind (emitBatch waiting all) fun whole all => treeM (setScopedBody member all)
  · exact .bind (replaceMeasurements inner) fun _ _ => .bind (lowerBlock each inner') fun lowered all =>
      treeM (setScopedBody member all)

theorem lowerBranches {test : NodeId} {orelse : List NodeId} (member : r.inside id) (inner : r.inside test)
    (inner' : ∀ id ∈ body, r.inside id) (inner'' : ∀ id ∈ orelse, r.inside id) :
    Upholds (r.Contains old known) (LowerM.lowerBranches lower id test body orelse) fun _ => True := by
  have branches {finish : LowerM Unit} (finished : Upholds (r.Contains old known) finish fun _ => True) :
      Upholds (r.Contains old known) (do
        let body ← LowerM.lowerBlock lower body
        let orelse ← LowerM.lowerBlock lower orelse
        TreeM.setBranches id body orelse
        finish) fun _ => True :=
    .bind (lowerBlock each inner') fun _ all => .bind (lowerBlock each inner'') fun _ all' =>
      .bind (treeM (setBranches member all all')) fun _ _ => finished
  refine .bind tree fun _ _ => .bind (observing .options) fun _ _ => ?_
  refine .bind (observing (.except _)) fun quantum _ => ?_
  cases quantum with
  | true => exact branches (lowerConditional member)
  | false => exact .bind (replaceMeasurements inner) fun _ _ => branches (.pure trivial)

theorem lowerOne (member : r.inside id) :
    Upholds (r.Contains old known) (LowerM.lowerOne lower id) fun ids => ∀ id ∈ ids, r.inside id := by
  have alone : ∀ other ∈ [id], r.inside other := by simpa using member
  refine .bind (treeM (stmt member)) fun s allowed => ?_
  have parts := allowed.parts
  cases s with
  | expr value =>
    exact .bind (replaceMeasurements (parts _ (by simp [Node.children, Stmt.children]))) fun _ _ =>
      .pure alone
  | assign target value =>
    exact .bind (replaceMeasurements (parts _ (by simp [Node.children, Stmt.children]))) fun _ _ =>
      .pure alone
  | define d => exact lowerDefinition each member allowed
  | classDef name body =>
    exact .bind (lowerBlock_within each true parts) fun _ all =>
      .bind (treeM (setClassBody all)) fun _ _ => .pure alone
  | «scoped» context binding body =>
    simp only [Node.children, Stmt.children, List.forall_mem_cons, List.forall_mem_append] at parts
    exact .bind (lowerScoped each member parts.1 parts.2.2) fun _ _ => .pure alone
  | conditional test body orelse =>
    simp only [Node.children, Stmt.children, List.forall_mem_cons, List.forall_mem_append] at parts
    exact .bind (lowerBranches each member parts.1 parts.2.1 parts.2.2) fun _ _ => .pure alone
  | importAs _ _ | wire _ _ _ | pass => exact .pure alone

end Step

theorem lowerStatementWithin (depth : Nat) {id : NodeId} (member : r.inside id) :
    Upholds (r.Contains old known) (LowerM.lowerStatementWithin depth id)
      fun ids => ∀ id ∈ ids, r.inside id := by
  induction depth generalizing id with
  | zero => exact .throw _
  | succ depth ih => exact lowerOne (fun _ => ih) member

end Region

section Modules

variable {t : SyntaxTree} {o : Options} {s : LoweringState}

def SyntaxTree.Operation (t : SyntaxTree) (n : String) : Prop :=
  ∃ id d, t.Reachable id ∧ t.nodes[id]? = some (.stmt (.define d)) ∧ d.operation.isSome ∧ d.name = n

/-- The nodes that the body leads to, and those to come. -/
def SyntaxTree.region (t : SyntaxTree) : Region where
  inside id := t.Reachable id ∨ t.size ≤ id
  marked := t.Operation

theorem SyntaxTree.region_closed (t : SyntaxTree) : t.region.Closed t where
  later id bound := .inr bound
  nodes id node inside found := by
    have reach : t.Reachable id := inside.resolve_right fun bound =>
      absurd (Array.getElem?_eq_some_iff.1 found).1 (Nat.not_lt.2 bound)
    refine ⟨fun part below => .inl (.part reach found below), ?_⟩
    rintro d rfl marked
    refine ⟨id, d, reach, found, ?_, rfl⟩
    cases operation : d.operation with
    | none => exact absurd (by rw [Definition.markers, operation]; rfl) marked
    | some m => rfl

theorem SyntaxTree.Walked.operation {ids : List NodeId} {n : String} (walked : t.Walked ids)
    (member : n ∈ operationNames ((t.cellsAt ids).filterMap fun cell => cell.2.declaration?)) :
    t.Operation n := by
  obtain ⟨m, declared⟩ := mem_operationNames.1 member
  obtain ⟨⟨id, node⟩, listed, declaration⟩ := List.mem_filterMap.1 declared
  obtain ⟨id', visited, same⟩ := List.mem_filterMap.1 listed
  obtain ⟨node', found, same⟩ := Option.map_eq_some_iff.1 same
  cases same
  have reach := walked.reachable id visited
  match node with
  | .stmt (.define d) =>
    simp only [Node.declaration?, Option.some.injEq, Declaration.definition.injEq] at declaration
    exact ⟨id, d, reach, found, by simp [declaration.2], declaration.1⟩

theorem Starts.contains (starts : Starts t o s) : t.region.Contains t.Uses o.operations s where
  closed := by
    rcases starts.tree with same | ⟨module, name, same⟩
    · rw [same]
      exact t.region_closed
    · rw [same]
      have allowed : t.region.Allows (.stmt (.importAs module name)) :=
        Region.allows_stmt (by simp [Stmt.children]) fun _ same => by cases same
      have pushed := t.region_closed.push allowed
      exact ⟨pushed.later, pushed.nodes⟩
  holds := by
    obtain ⟨ids, walked, -, entered⟩ := starts.context
    refine ⟨?_, fun x => starts.taken, fun n => ?_⟩
    · rw [entered, Context.enterAll_eq]
      simp [Context.new]
    · rw [entered, Context.enterAll_eq]
      by_cases listed : n ∈ operationNames ((t.cellsAt ids).filterMap fun cell => cell.2.declaration?)
      · exact .inr (.inl (walked.operation listed))
      · exact .inl (OperationTable.get?_foldl_enter listed)

theorem Starts.body_inside (starts : Starts t o s) : ∀ id ∈ s.tree.body, t.region.inside id := by
  intro id listed
  rcases starts.tree with same | ⟨module, name, same⟩
  · rw [same] at listed
    exact .inl (.body listed)
  · rw [same] at listed
    exact (List.mem_cons.1 listed).elim (fun new => .inr (Nat.le_of_eq new.symm)) fun old => .inl (.body old)

/-- Whatever the module, lowering changes entries of its own operations and of new names only, which start
with an underscore. In a module that passes validation, an entry that is changed is that of an operation
that the lowered module defines. -/
theorem lower_keeps_entries {lowered : Lowered} {boilerplate verification : Bool}
    (ended : t.lower o (.build boilerplate verification) = .ok lowered) :
    (∀ n, lowered.operations.get? n = o.operations.get? n ∨ t.Operation n ∨
      ¬ t.Uses n ∧ n.startsWith "_") ∧
    ∀ input, t.WellKinded → t.validate = .ok () → t.Reads t.body input →
      ∃ output, lowered.tree.Reads lowered.tree.body output ∧
        (∀ n, n ∉ operationNames (output.flatMap StmtTree.declarations) →
          lowered.operations.get? n = o.operations.get? n) ∧
        ∀ n ∈ operationNames (output.flatMap StmtTree.declarations),
          n ∈ operationNames (input.flatMap StmtTree.declarations) ∨
            n ∉ input.flatMap StmtTree.names ∧ n.startsWith "_" := by
  refine ⟨fun n => ?_, fun input kinded valid reads => lower_defined_entries kinded valid reads ended⟩
  unfold SyntaxTree.lower at ended
  cases ran : (Pipeline.build boilerplate verification).run ⟨t, .new o⟩ with
  | error e s =>
    rw [ran] at ended
    cases ended
  | ok a s' =>
    rw [ran] at ended
    cases ended
    obtain ⟨s, rs, s₁, starts, lowered, rfl⟩ := exists_of_build_ok ran
    obtain ⟨contains, -⟩ := Region.lowerBlock (fun _ => Region.lowerStatementWithin _) starts.body_inside
      _ _ _ lowered starts.contains
    exact contains.holds.entries n

/-- The adjoint of an operation `_R1` takes the name of the known adjoint of `R1`, and its entry with
it. The entry of `R1` stays. -/
theorem lower_keeps_entries_clash :
    ∃ lowered, (singleOperation "_R1" "H" ⟨true, false⟩).lower .default .standard = .ok lowered ∧
      (OperationTable.preamble.resolve "_R1_adj" .adjoint).toOption = some "R1" ∧
      (lowered.operations.resolve "_R1_adj" .adjoint).toOption = some "_R1" ∧
      ∃ output, lowered.tree.Reads lowered.tree.body output ∧
        ∀ n, n ∉ operationNames (output.flatMap StmtTree.declarations) →
          lowered.operations.get? n = OperationTable.preamble.get? n := by
  have placed := singleOperation_placed "_R1" "H" ⟨true, false⟩
  have known : (OperationTable.preamble.resolve "_R1_adj" .adjoint).toOption = some "R1" := by
    decide +kernel
  have redirected : ((singleOperation "_R1" "H" ⟨true, false⟩).lower .default .standard).toOption.any
      (fun lowered => (lowered.operations.resolve "_R1_adj" .adjoint).toOption == some "_R1") := by
    decide +kernel
  obtain ⟨lowered, ended, resolved⟩ := exists_lowered redirected
  obtain ⟨-, valid⟩ := lower_keeps_entries (show _ = _ from ended)
  obtain ⟨output, read, kept, -⟩ :=
    valid _ placed.wellKinded placed.validate ⟨_, placed.labels, rfl, placed.owned.held⟩
  exact ⟨lowered, ended, known, by simpa using resolved, output, read, kept⟩

end Modules

end QuantumLowering
