import QuantumLowering.Proofs.Lowering.Effects
import QuantumLowering.Proofs.Lowering.Pipeline

/-!
Lowering a statement leaves the open allocation blocks and the method flag as they were. At most it adds
measurements to the innermost table, for the statement that is being lowered there. Nothing is asked of
the tree or of the context.
-/

namespace QuantumLowering

open LowerM

variable {α β : Type} {R : Context → Context → Prop}

/-- Where a run succeeds, the contexts before and after it are related. -/
def Ensures (R : Context → Context → Prop) (act : LowerM α) : Prop :=
  ∀ s a s', act s = .ok a s' → R s.context s'.context

theorem LowerM.exists_of_bind_ok {ε σ : Type} {act : EStateM ε σ α} {f : α → EStateM ε σ β} {b : β}
    {s s'' : σ} (ended : (act >>= f) s = .ok b s'') : ∃ a s', act s = .ok a s' ∧ f a s' = .ok b s'' := by
  simp only [Bind.bind, EStateM.bind] at ended
  cases ran : act s with
  | ok a s' =>
    rw [ran] at ended
    exact ⟨a, s', rfl, ended⟩
  | error e s' =>
    rw [ran] at ended
    cases ended

theorem LowerM.exists_of_lift_ok {act : ContextM α} {a : α} {s s' : LoweringState}
    (ended : (liftM act : LowerM α) s = .ok a s') :
    act s.context = .ok a s'.context ∧ s'.tree = s.tree := by
  simp only [liftM, monadLift, MonadLift.monadLift] at ended
  cases ran : act s.context with
  | ok b c' =>
    rw [ran] at ended
    cases ended
    exact ⟨rfl, rfl⟩
  | error e c' =>
    rw [ran] at ended
    cases ended

theorem Respects.ensures {act : LowerM α} (respects : Respects R act) : Ensures R act := by
  intro s a s' ended
  have related := respects s
  unfold LowerM.final at related
  rw [ended] at related
  exact related

namespace Ensures

theorem throw (e : LoweringError) : Ensures R (MonadExcept.throw e : LowerM α) := by
  intro s a s' ended
  cases ended

theorem mono {R' : Context → Context → Prop} {act : LowerM α} (run : Ensures R act)
    (weaker : ∀ c c', R c c' → R' c c') : Ensures R' act :=
  fun s a s' ended => weaker _ _ (run s a s' ended)

variable (prog : Progressive R)

include prog

theorem bind {act : LowerM α} {f : α → LowerM β} (first : Ensures R act)
    (rest : ∀ a, Ensures R (f a)) : Ensures R (act >>= f) := by
  intro s b s'' ended
  obtain ⟨a, s', ran, ended⟩ := LowerM.exists_of_bind_ok ended
  exact prog.trans (first s a s' ran) (rest a s' b s'' ended)

theorem after {act : LowerM α} {f : α → LowerM β} (first : Respects R act)
    (rest : ∀ a, Ensures R (f a)) : Ensures R (act >>= f) :=
  bind prog first.ensures rest

theorem forM {xs : List α} {act : α → LowerM Unit} (each : ∀ x, Ensures R (act x)) :
    Ensures R (xs.forM act) := by
  induction xs with
  | nil => exact (prog.pure ()).ensures
  | cons x xs ih => exact bind prog (each x) fun _ => ih

theorem mapM {xs : List α} {act : α → LowerM β} (each : ∀ x, Ensures R (act x)) :
    Ensures R (xs.mapM act) := by
  induction xs with
  | nil => exact (prog.pure []).ensures
  | cons x xs ih =>
    rw [List.mapM_cons]
    exact bind prog (each x) fun _ => bind prog ih fun _ => (prog.pure _).ensures

end Ensures

structure Still (c c' : Context) : Prop where
  frames : c'.frames = c.frames
  tables : c'.tables = c.tables
  insideMethod : c'.insideMethod = c.insideMethod

theorem progressive_still : Progressive Still where
  refl _ := ⟨rfl, rfl, rfl⟩
  trans first second := ⟨second.frames.trans first.frames, second.tables.trans first.tables,
    second.insideMethod.trans first.insideMethod⟩
  fresh _ _ := ⟨rfl, rfl, rfl⟩
  stats _ _ := ⟨rfl, rfl, rfl⟩
  operations _ _ := ⟨rfl, rfl, rfl⟩

/-- The entry belongs to the innermost block and to the statement being lowered there. -/
def HoistEntry.InPlace (frames : List AllocationFrame) (entry : HoistEntry) : Prop :=
  ∃ frame, frames.head? = some frame ∧ entry.block = frame.block ∧ entry.index = frame.statement

/-- The innermost table has grown by measurements of the statement being lowered. -/
structure Records (suffix : List HoistEntry) (c c' : Context) : Prop where
  frames : c'.frames = c.frames
  insideMethod : c'.insideMethod = c.insideMethod
  tables : c'.tables = c.tables.modifyHead (· ++ suffix)
  inPlace : ∀ entry ∈ suffix, entry.InPlace c.frames

def RecordsSome (c c' : Context) : Prop := ∃ suffix, Records suffix c c'

theorem Still.records {c c' : Context} (still : Still c c') : Records [] c c' where
  frames := still.frames
  insideMethod := still.insideMethod
  tables := by
    rw [still.tables]
    cases c.tables <;> simp
  inPlace := by simp

theorem Records.trans {c c' c'' : Context} {first second : List HoistEntry}
    (records : Records first c c') (records' : Records second c' c'') :
    Records (first ++ second) c c'' where
  frames := records'.frames.trans records.frames
  insideMethod := records'.insideMethod.trans records.insideMethod
  tables := by
    rw [records'.tables, records.tables]
    cases c.tables <;> simp
  inPlace := by
    intro entry member
    rcases List.mem_append.1 member with member | member
    · exact records.inPlace entry member
    · have place := records'.inPlace entry member
      rwa [records.frames] at place

theorem Still.recordsSome {c c' : Context} (still : Still c c') : RecordsSome c c' :=
  ⟨[], still.records⟩

theorem progressive_records : Progressive RecordsSome where
  refl c := (progressive_still.refl c).recordsSome
  trans := by
    rintro c c' c'' ⟨first, records⟩ ⟨second, records'⟩
    exact ⟨first ++ second, records.trans records'⟩
  fresh c base := (progressive_still.fresh c base).recordsSome
  stats c stats := (progressive_still.stats c stats).recordsSome
  operations c known := (progressive_still.operations c known).recordsSome

structure Within (c c' : Context) : Prop where
  frames : c'.frames.tail = c.frames.tail
  tables : c'.tables.tail = c.tables.tail
  insideMethod : c'.insideMethod = c.insideMethod

theorem Within.refl (c : Context) : Within c c := ⟨rfl, rfl, rfl⟩

theorem Within.trans {c c' c'' : Context} (first : Within c c') (second : Within c' c'') :
    Within c c'' :=
  ⟨second.frames.trans first.frames, second.tables.trans first.tables,
    second.insideMethod.trans first.insideMethod⟩

theorem RecordsSome.within {c c' : Context} (records : RecordsSome c c') : Within c c' := by
  obtain ⟨suffix, records⟩ := records
  refine ⟨by rw [records.frames], ?_, records.insideMethod⟩
  rw [records.tables]
  cases c.tables <;> rfl

theorem recordMeasurement_records {call : NodeId} {c c' : Context} {placeholder : Option String}
    (ended : ContextM.recordMeasurement call c = .ok placeholder c') : RecordsSome c c' := by
  obtain nothing | ⟨frame, frames, table, tables, base, opened, listed, ran⟩ :=
    ContextM.recordMeasurement_cases call c
  · cases nothing.symm.trans ended
    exact progressive_records.refl _
  · cases ran.symm.trans ended
    refine ⟨[⟨frame.block, frame.statement, call, (c.names.fresh base).1⟩], rfl, rfl, ?_,
      fun entry member => ?_⟩
    · rw [listed]
      rfl
    · obtain rfl := List.mem_singleton.1 member
      exact ⟨frame, by rw [opened]; rfl, rfl, rfl⟩

theorem enterStatement_within {index : Nat} {c c' : Context}
    (ended : ContextM.enterStatement index c = .ok () c') : Within c c' := by
  obtain failed | ⟨frame, frames, opened, ran⟩ := ContextM.enterStatement_cases index c
  · cases failed.symm.trans ended
  · cases ran.symm.trans ended
    exact ⟨by rw [opened]; rfl, rfl, rfl⟩

theorem popAllocation_eq {block : NodeId} {c c' : Context} {entries : List HoistEntry}
    (ended : ContextM.popAllocation block c = .ok entries c') :
    c' = { c with frames := c.frames.tail, tables := c.tables.tail } := by
  obtain ⟨-, failed⟩ | ⟨-, failed⟩ | ⟨frame, frames, table, tables, opened, listed, ran⟩ :=
    ContextM.popAllocation_cases block c
  · cases failed.symm.trans ended
  · cases failed.symm.trans ended
  · rw [ran] at ended
    split at ended
    · cases ended
      rw [opened, listed]
      rfl
    · cases ended

theorem resumeAllocations_eq {suspended : Suspended} {c c' : Context}
    (ended : ContextM.resumeAllocations suspended c = .ok () c') :
    c' = { c with frames := suspended.frames, tables := suspended.tables } := by
  obtain ran | ⟨e, failed⟩ := ContextM.resumeAllocations_cases suspended c
  · cases ran.symm.trans ended
    rfl
  · cases failed.symm.trans ended

theorem replaceMeasurements_records (expr : NodeId) :
    Ensures RecordsSome (replaceMeasurements expr) := by
  have prog := progressive_records
  have recorded : ∀ moved, Ensures RecordsSome (liftM (ContextM.recordMeasurement moved)) :=
    fun moved s a s' ended => recordMeasurement_records (LowerM.exists_of_lift_ok ended).1
  have hoisted : ∀ site, Ensures RecordsSome (hoistMeasurement site) := by
    intro site
    refine .after prog (prog.treeM _) fun call => .after prog (prog.treeM _) fun moved => ?_
    refine .bind prog (recorded moved) fun placeholder => ?_
    cases placeholder with
    | none => exact .throw _
    | some placeholder => exact (prog.treeM _).ensures
  refine .after prog prog.context fun c => ?_
  split
  · exact (prog.pure ()).ensures
  · refine .after prog prog.tree fun t => .after prog prog.options fun o => ?_
    exact .after prog (prog.except _) fun sites => .forM prog hoisted

section Step

variable {lower : NodeId → LowerM (List NodeId)}

theorem lowerBlock_records (each : ∀ id, Ensures RecordsSome (lower id)) (block : List NodeId) :
    Ensures RecordsSome (lowerBlock lower block) :=
  .bind progressive_records (.mapM progressive_records each) fun _ =>
    (progressive_records.pure _).ensures

theorem withInsideMethod_ok {inside : Bool} {act : LowerM α} {a : α} {s s' : LoweringState}
    (ended : withInsideMethod inside act s = .ok a s') :
    ∃ s₁, act { s with context.insideMethod := inside } = .ok a s₁ ∧
      s' = { s₁ with context.insideMethod := s.context.insideMethod } := by
  obtain ⟨outer, s₁, flagged, ended⟩ := LowerM.exists_of_bind_ok ended
  cases flagged
  cases ran : act ⟨s.tree, { s.context with insideMethod := inside }⟩ with
  | error e s₂ =>
    simp only [ran] at ended
    cases ended
  | ok b s₂ =>
    simp only [ran] at ended
    cases ended
    exact ⟨s₂, rfl, rfl⟩

theorem withInsideMethod_records {inside : Bool} {act : LowerM α} (records : Ensures RecordsSome act) :
    Ensures RecordsSome (withInsideMethod inside act) := by
  intro s a s' ended
  obtain ⟨s₁, ran, rfl⟩ := withInsideMethod_ok ended
  obtain ⟨suffix, frames, -, tables, inPlace⟩ := records _ _ _ ran
  exact ⟨suffix, frames, rfl, tables, inPlace⟩

/-- A definition is lowered outside of all blocks, so nothing is recorded in those around it. -/
theorem lowerDefinition_still (each : ∀ id, Ensures RecordsSome (lower id)) (id : NodeId)
    (d : Definition NodeId) : Ensures Still (lowerDefinition lower id d) := by
  intro s ids s' ended
  obtain ⟨suspended, s₁, aside, ended⟩ := LowerM.exists_of_bind_ok ended
  cases aside
  obtain ⟨body, s₂, lowered, ended⟩ := LowerM.exists_of_bind_ok ended
  obtain ⟨⟨⟩, s₃, resumed, ended⟩ := LowerM.exists_of_bind_ok ended
  obtain ⟨-, -, flag, -, -⟩ := withInsideMethod_records (lowerBlock_records each d.body) _ _ _ lowered
  have outside := resumeAllocations_eq (LowerM.exists_of_lift_ok resumed).1
  have back : Still s.context s₃.context := by
    rw [outside]
    exact ⟨rfl, rfl, flag⟩
  have prog := progressive_still
  have emitted : Ensures Still (do
      TreeM.setDefinitionBody id body
      let variants ← emitVariants { d with body := body }
      return id :: variants) :=
    .after prog (prog.treeM _) fun _ => .after prog (prog.emitVariants _) fun _ =>
      (prog.pure _).ensures
  exact prog.trans back (emitted _ _ _ ended)

theorem lowerAllocated_within (each : ∀ id, Ensures RecordsSome (lower id)) (body : List NodeId)
    (lowered : List NodeId) : Ensures Within (lowerAllocated lower lowered body) := by
  induction body generalizing lowered with
  | nil =>
    intro s a s' ended
    cases ended
    exact .refl _
  | cons nested rest ih =>
    intro s a s' ended
    obtain ⟨⟨⟩, s₁, entered, ended⟩ := LowerM.exists_of_bind_ok ended
    obtain ⟨ids, s₂, ran, ended⟩ := LowerM.exists_of_bind_ok ended
    have here := enterStatement_within (LowerM.exists_of_lift_ok entered).1
    exact here.trans ((each nested _ _ _ ran).within.trans (ih _ _ _ _ ended))

theorem lowerAllocation_still (each : ∀ id, Ensures RecordsSome (lower id)) (id : NodeId)
    (body : List NodeId) : Ensures Still (lowerAllocation lower id body) := by
  intro s a s' ended
  obtain ⟨⟨⟩, s₁, opened, ended⟩ := LowerM.exists_of_bind_ok ended
  cases opened
  obtain ⟨lowered, s₂, ran, ended⟩ := LowerM.exists_of_bind_ok ended
  obtain ⟨entries, s₃, closed, ended⟩ := LowerM.exists_of_bind_ok ended
  have inside := lowerAllocated_within each body [] _ _ _ ran
  have outside := popAllocation_eq (LowerM.exists_of_lift_ok closed).1
  have back : Still s.context s₃.context := by
    rw [outside]
    exact ⟨inside.frames, inside.tables, inside.insideMethod⟩
  have prog := progressive_still
  have emitted : Ensures Still (emitBatch entries lowered >>= fun lowered =>
      (liftM (TreeM.setScopedBody id lowered) : LowerM Unit)) :=
    .after prog (prog.emitBatch _ _) fun _ => (prog.treeM _).ensures
  exact prog.trans back (emitted _ _ _ ended)

theorem lowerScoped_records (each : ∀ id, Ensures RecordsSome (lower id)) (id context : NodeId)
    (body : List NodeId) : Ensures RecordsSome (lowerScoped lower id context body) := by
  have prog := progressive_records
  refine .after prog prog.tree fun t => .after prog prog.options fun o => ?_
  refine .after prog (prog.except _) fun allocates => ?_
  split
  · refine .bind prog (replaceMeasurements_records context) fun _ => ?_
    exact (lowerAllocation_still each id body).mono fun _ _ still => still.recordsSome
  · refine .bind prog (replaceMeasurements_records context) fun _ => ?_
    exact .bind prog (lowerBlock_records each body) fun _ => (prog.treeM _).ensures

theorem lowerBranches_records (each : ∀ id, Ensures RecordsSome (lower id)) (id test : NodeId)
    (body orelse : List NodeId) : Ensures RecordsSome (lowerBranches lower id test body orelse) := by
  have prog := progressive_records
  have branches : ∀ quantum : Bool, Ensures RecordsSome (do
      let body ← lowerBlock lower body
      let orelse ← lowerBlock lower orelse
      TreeM.setBranches id body orelse
      if quantum then lowerConditional id) := by
    intro quantum
    refine .bind prog (lowerBlock_records each body) fun _ => ?_
    refine .bind prog (lowerBlock_records each orelse) fun _ => .after prog (prog.treeM _) fun _ => ?_
    split
    · exact (prog.lowerConditional id).ensures
    · exact (prog.pure ()).ensures
  refine .after prog prog.tree fun t => .after prog prog.options fun o => ?_
  refine .after prog (prog.except _) fun quantum => ?_
  cases quantum with
  | true => exact branches true
  | false => exact .bind prog (replaceMeasurements_records test) fun _ => branches false

theorem lowerOne_records (each : ∀ id, Ensures RecordsSome (lower id)) (id : NodeId) :
    Ensures RecordsSome (lowerOne lower id) := by
  have prog := progressive_records
  have single : Ensures RecordsSome (pure [id] : LowerM (List NodeId)) := (prog.pure _).ensures
  refine .after prog (prog.treeM _) fun s => ?_
  cases s with
  | expr value => exact .bind prog (replaceMeasurements_records value) fun _ => single
  | assign target value => exact .bind prog (replaceMeasurements_records value) fun _ => single
  | define d => exact (lowerDefinition_still each id d).mono fun _ _ still => still.recordsSome
  | classDef name body =>
    refine .bind prog (withInsideMethod_records (lowerBlock_records each body)) fun _ => ?_
    exact .after prog (prog.treeM _) fun _ => single
  | «scoped» context binding body =>
    exact .bind prog (lowerScoped_records each id context body) fun _ => single
  | conditional test body orelse =>
    exact .bind prog (lowerBranches_records each id test body orelse) fun _ => single
  | importAs _ _ | wire _ _ _ | pass => exact single

end Step

theorem lowerStatementWithin_records (depth : Nat) (id : NodeId) :
    Ensures RecordsSome (lowerStatementWithin depth id) := by
  induction depth generalizing id with
  | zero => exact .throw _
  | succ depth ih => exact lowerOne_records ih id

theorem lowerOne_define {lower : NodeId → LowerM (List NodeId)} {s : LoweringState} {id : NodeId}
    {d : Definition NodeId} (found : s.tree.stmt id = .ok (.define d)) :
    lowerOne lower id s = lowerDefinition lower id d s := by
  have looked : (liftM (TreeM.stmt id) : LowerM (Stmt NodeId)) s = .ok (.define d) s := by
    have ran : TreeM.stmt id s.tree = .ok (.define d) s.tree := by
      show (liftM (s.tree.stmt id) : TreeM (Stmt NodeId)) s.tree = _
      rw [found]
      rfl
    exact Runs.lift_treeM ran
  unfold lowerOne
  rw [LowerM.run_bind looked]

/-- A statement that is lowered leaves the stack of allocation blocks and the method flag as they were.
It records measurements in the innermost block only, at the place where that block stands; a definition
records none, and neither does a statement outside of all blocks. -/
theorem lowerStatement_discipline {s s' : LoweringState} {id : NodeId} {ids : List NodeId}
    (ended : lowerStatement id s = .ok ids s') :
    ∃ suffix, Records suffix s.context s'.context ∧
      ((∃ d, s.tree.stmt id = .ok (.define d)) → suffix = []) ∧
      (s.context.frames = [] → suffix = []) := by
  have ended : lowerOne (lowerStatementWithin s.tree.size) id s = .ok ids s' := ended
  have each := lowerStatementWithin_records s.tree.size
  by_cases definition : ∃ d, s.tree.stmt id = .ok (.define d)
  · obtain ⟨d, found⟩ := definition
    rw [lowerOne_define found] at ended
    have still := lowerDefinition_still each id d s ids s' ended
    exact ⟨[], still.records, fun _ => rfl, fun _ => rfl⟩
  · obtain ⟨suffix, records⟩ := lowerOne_records each id s ids s' ended
    refine ⟨suffix, records, fun isDefinition => absurd isDefinition definition, fun outside => ?_⟩
    refine List.eq_nil_iff_forall_not_mem.2 fun entry member => ?_
    obtain ⟨frame, innermost, -⟩ := records.inPlace entry member
    rw [outside] at innermost
    cases innermost

/-- The first statement of the block with two measurements, at place 3 of the open block. -/
theorem lowerStatement_discipline_measuring :
    ∃ ids s', lowerStatement 8
        ⟨measuringModule, { Context.new .default with frames := [⟨15, 3⟩], tables := [[]] }⟩ =
          .ok ids s' ∧
      s'.context.frames = [⟨15, 3⟩] ∧
      ∃ suffix, s'.context.tables = [suffix] ∧ suffix.length = 1 ∧
        ∀ entry ∈ suffix, entry.block = 15 ∧ entry.index = 3 := by
  have recorded : (match lowerStatement 8
        ⟨measuringModule, { Context.new .default with frames := [⟨15, 3⟩], tables := [[]] }⟩ with
      | .ok _ s' => s'.context.tables.map List.length == [1]
      | .error _ _ => false) = true := by
    decide +kernel
  split at recorded
  · rename_i ids s' ended
    obtain ⟨suffix, records, -, -⟩ := lowerStatement_discipline ended
    have tables : s'.context.tables = [suffix] := records.tables
    refine ⟨ids, s', ended, records.frames, suffix, tables, ?_, ?_⟩
    · rw [tables] at recorded
      simpa using recorded
    · intro entry member
      obtain ⟨frame, innermost, block, index⟩ := records.inPlace entry member
      cases innermost
      exact ⟨block, index⟩
  · cases recorded

end QuantumLowering
