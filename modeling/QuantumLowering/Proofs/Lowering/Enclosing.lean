import QuantumLowering.Proofs.Lowering.Variants

namespace QuantumLowering

variable {o : Options} {t : SyntaxTree} {c : Context} {p : Progress}

namespace RunsM

variable {α β γ : Type} {act : LowerM α} {plan : PlanM β}
  {post : β → Progress → α → SyntaxTree → Context → Prop}

theorem set_bind {q : Progress} {g : Unit → PlanM β} :
    RunsM act t c (set q >>= g) p post ↔ RunsM act t c (g ()) q post := Iff.rfl

theorem contextM_bind {act : ContextM γ} {f : γ → LowerM α} {a : γ} {c' : Context}
    (ran : act c = .ok a c') :
    RunsM (liftM act >>= f) t c plan p post ↔ RunsM (f a) t c' plan p post :=
  Runs.contextM_bind ran

end RunsM

theorem Matches.withMethod (matched : Matches o c p) (inside : Bool) :
    Matches o { c with insideMethod := inside } { p with insideMethod := inside } :=
  ⟨matched.options, matched.operations, matched.stats, matched.names, rfl, matched.stack⟩

theorem withInsideMethod_runs {α β : Type} {act : LowerM α} {plan : PlanM β}
    {R : β → α → SyntaxTree → List (Hoisted NodeId) → Prop} (inside : Bool)
    (run : RunsM act t { c with insideMethod := inside } plan { p with insideMethod := inside }
      fun b p₁ a t₁ c₁ => ∃ new, R b a t₁ new ∧
        Tracks { c with insideMethod := inside } { p with insideMethod := inside } c₁ p₁ new) :
    RunsM (LowerM.withInsideMethod inside act) t c (PlanM.withMethod inside plan) p
      fun b p₁ a t₁ c₁ => ∃ new, R b a t₁ new ∧ Tracks c p c₁ p₁ new := by
  -- the flag is put back after a failure too, so the run is not a sequence of steps
  have entered : (liftM (ContextM.setInsideMethod inside) : LowerM Bool) ⟨t, c⟩ =
      .ok c.insideMethod ⟨t, { c with insideMethod := inside }⟩ := rfl
  have succeeded : ∀ {a s}, act ⟨t, { c with insideMethod := inside }⟩ = .ok a s →
      LowerM.withInsideMethod inside act ⟨t, c⟩ =
        .ok a { s with context.insideMethod := c.insideMethod } := by
    intro a s ran
    simp only [LowerM.withInsideMethod, Bind.bind, EStateM.bind, entered, ran]
  have refused : ∀ {e s}, act ⟨t, { c with insideMethod := inside }⟩ = .error e s →
      LowerM.withInsideMethod inside act ⟨t, c⟩ =
        .error e { s with context.insideMethod := c.insideMethod } := by
    intro e s failed
    simp only [LowerM.withInsideMethod, Bind.bind, EStateM.bind, entered, failed]
  have planned : PlanM.withMethod inside plan p =
      (fun b : β × Progress => (b.1, { b.2 with insideMethod := p.insideMethod })) <$>
        plan { p with insideMethod := inside } := by
    show Except.bind (plan { p with insideMethod := inside }) _ = _
    cases plan { p with insideMethod := inside } <;> rfl
  unfold RunsM at run ⊢
  rw [planned]
  cases ended : plan { p with insideMethod := inside } with
  | error reason =>
    rw [ended] at run
    obtain ⟨s, failed⟩ := run
    exact ⟨_, refused failed⟩
  | ok b =>
    rw [ended] at run
    obtain ⟨a, t₁, c₁, ran, new, holds, tracks⟩ := run
    refine ⟨a, t₁, _, succeeded ran, new, holds, ?_⟩
    exact { tracks with method := rfl, method' := rfl }

theorem Matches.suspended (matched : Matches o c p) :
    Matches o { c with frames := [], tables := [] } { p with batch := none } :=
  ⟨matched.options, matched.operations, matched.stats, matched.names, matched.insideMethod,
    rfl, rfl⟩

theorem suspended_runs {α β γ δ : Type} {act : LowerM α} {plan : PlanM β} {f : α → LowerM γ}
    {g : β × Option Batch → PlanM δ} {R : β → α → SyntaxTree → List (Hoisted NodeId) → Prop}
    {post : δ → Progress → γ → SyntaxTree → Context → Prop} (matched : Matches o c p)
    (run : RunsM act t { c with frames := [], tables := [] } plan { p with batch := none }
      fun b p₁ a t₁ c₁ => ∃ new, R b a t₁ new ∧
        Tracks { c with frames := [], tables := [] } { p with batch := none } c₁ p₁ new)
    (rest : ∀ b batch p₁ a t₁ c₁, R b a t₁ [] → Tracks c p c₁ p₁ [] →
      RunsM (f a) t₁ c₁ (g (b, batch)) p₁ post) :
    RunsM (do
        let suspended ← (ContextM.suspendAllocations : LowerM Suspended)
        let a ← act
        ContextM.resumeAllocations suspended
        f a) t c (PlanM.withBatch none plan >>= g) p post := by
  simp only [PlanM.withBatch, bind_assoc, pure_bind]
  rw [RunsM.contextM_bind (show ContextM.suspendAllocations c = .ok ⟨c.frames, c.tables⟩
    { c with frames := [], tables := [] } from rfl), RunsM.get_bind, RunsM.set_bind]
  refine run.bind ?_
  rintro b p₁ a t₁ c₁ ⟨new, holds, tracks⟩
  obtain rfl := tracks.closed rfl
  have resumed : ContextM.resumeAllocations ⟨c.frames, c.tables⟩ c₁ =
      .ok () { c₁ with frames := c.frames, tables := c.tables } := by
    unfold ContextM.resumeAllocations ContextM.checkBalanced
    simp only [Bind.bind, EStateM.bind, ContextM.run_get, tracks.frames, tracks.tables,
      Context.recording, List.isEmpty_nil, Bool.and_self, ↓reduceIte]
    rfl
  rw [RunsM.contextM_bind resumed, RunsM.get_bind, RunsM.set_bind]
  have same := Tracks.refl matched
  exact rest b _ _ a t₁ _ holds { tracks with
    frames := rfl, tables := same.tables, batch := same.batch, closed := same.closed }

def Context.standing (c : Context) (index : Nat) : Context :=
  { c with frames := c.frames.modifyHead fun frame => { frame with statement := index } }

def Progress.standing (p : Progress) (index : Nat) : Progress :=
  { p with batch := p.batch.map fun b => { b with statement := index } }

theorem Matches.standing (matched : Matches o c p) (index : Nat) :
    Matches o (c.standing index) (p.standing index) := by
  refine ⟨matched.options, matched.operations, matched.stats, matched.names,
    matched.insideMethod, ?_⟩
  have stack := matched.stack
  unfold Context.standing Progress.standing
  cases open_ : p.batch with
  | none =>
    rw [open_] at stack
    exact ⟨by rw [stack.1]; rfl, stack.2⟩
  | some b =>
    rw [open_] at stack
    obtain ⟨block, frames, table, tables, frames_eq, rest⟩ := stack
    exact ⟨block, frames, table, tables, by rw [frames_eq]; rfl, rest⟩

theorem Matches.standing_self {b : Batch} (matched : Matches o c p) (open_ : p.batch = some b) :
    c.standing b.statement = c ∧ p.standing b.statement = p := by
  have stack := matched.stack
  rw [open_] at stack
  obtain ⟨block, frames, table, tables, frames_eq, rest⟩ := stack
  constructor
  · unfold Context.standing
    rw [frames_eq, List.modifyHead_cons]
    obtain ⟨⟩ := c
    cases frames_eq
    rfl
  · unfold Progress.standing
    rw [open_, Option.map_some]
    obtain ⟨⟩ := p
    cases open_
    rfl

theorem Tracks.standing {c' : Context} {p' : Progress} {new : List (Hoisted NodeId)}
    (tracks : Tracks c p c' p' new) (index : Nat) :
    Tracks (c.standing index) (p.standing index) (c'.standing index) (p'.standing index) new := by
  refine ⟨tracks.options, tracks.operations, tracks.stats, tracks.names, tracks.method,
    tracks.method', ?_, ?_, ?_, ?_⟩
  · simp [Context.standing, tracks.frames]
  · have tables := tracks.tables
    unfold Context.recording at tables ⊢
    unfold Context.standing
    cases frames_eq : c.frames with
    | nil => simpa [frames_eq] using tables
    | cons frame frames => cases tables_eq : c.tables <;> simpa [frames_eq, tables_eq] using tables
  · simp only [Progress.standing, tracks.batch]
    cases p.batch <;> rfl
  · intro closed
    exact tracks.closed (by simpa [Progress.standing] using closed)

theorem Context.standing_standing (c : Context) (m n : Nat) :
    (c.standing m).standing n = c.standing n := by
  unfold Context.standing
  cases c.frames <;> rfl

theorem Progress.standing_standing (p : Progress) (m n : Nat) :
    (p.standing m).standing n = p.standing n := by
  unfold Progress.standing
  cases p.batch <;> rfl

theorem run_enterStatement {b : Batch} (matched : Matches o c p) (open_ : p.batch = some b)
    (index : Nat) : ContextM.enterStatement index c = .ok () (c.standing index) := by
  have stack := matched.stack
  rw [open_] at stack
  obtain ⟨block, frames, table, tables, frames_eq, rest⟩ := stack
  unfold ContextM.enterStatement Context.standing
  simp only [Bind.bind, EStateM.bind, ContextM.run_get, frames_eq]
  rfl

theorem enterStatement_runs {α β : Type} {f : Unit → LowerM α} {g : Unit → PlanM β} {b : Batch}
    {post : β → Progress → α → SyntaxTree → Context → Prop} (matched : Matches o c p)
    (open_ : p.batch = some b) (index : Nat)
    (rest : RunsM (f ()) t (c.standing index) (g ()) (p.standing index) post) :
    RunsM (liftM (ContextM.enterStatement index) >>= f) t c (PlanM.enterStatement index >>= g) p
      post :=
  (RunsM.contextM_bind (run_enterStatement matched open_ index)).2 rest

theorem Matches.opened (matched : Matches o c p) (block : NodeId) :
    Matches o { c with frames := ⟨block, 0⟩ :: c.frames, tables := [] :: c.tables }
      { p with batch := some ⟨0, []⟩ } := by
  refine ⟨matched.options, matched.operations, matched.stats, matched.names,
    matched.insideMethod, block, c.frames, [], c.tables, rfl, rfl, ?_, rfl⟩
  have stack := matched.stack
  cases open_ : p.batch with
  | none =>
    rw [open_] at stack
    rw [stack.1, stack.2]
    rfl
  | some b =>
    rw [open_] at stack
    obtain ⟨block, frames, table, tables, frames_eq, tables_eq, length, -⟩ := stack
    rw [frames_eq, tables_eq, List.length_cons, List.length_cons, length]

theorem run_popAllocation {block : NodeId} {c₁ : Context} {p₁ : Progress} {index : Nat}
    {new : List (Hoisted NodeId)} (matched : Matches o c p)
    (tracks : Tracks
      (Context.standing { c with frames := ⟨block, 0⟩ :: c.frames, tables := [] :: c.tables } index)
      (Progress.standing { p with batch := some ⟨0, []⟩ } index) c₁ p₁ new) :
    ContextM.popAllocation block c₁ = .ok (new.map (Hoisted.entry block))
        { c₁ with frames := c.frames, tables := c.tables } ∧
      p₁.batch = some ⟨index, new.map Hoisted.erase⟩ ∧
      Tracks c p { c₁ with frames := c.frames, tables := c.tables } { p₁ with batch := p.batch } [] := by
  have frames : c₁.frames = ⟨block, index⟩ :: c.frames := tracks.frames
  have tables : c₁.tables = new.map (Hoisted.entry block) :: c.tables := tracks.tables
  have even : c.frames.length = c.tables.length := by
    obtain ⟨_, _, _, _, frames_eq, tables_eq, length, -⟩ := (matched.opened block).stack
    cases frames_eq
    cases tables_eq
    exact length
  refine ⟨?_, tracks.batch, ?_⟩
  · unfold ContextM.popAllocation
    simp only [Bind.bind, EStateM.bind, ContextM.run_get, frames, tables,
      List.length_cons, even, ne_eq, not_true_eq_false, ↓reduceIte]
    rfl
  · have same := Tracks.refl matched
    exact { tracks with
      frames := rfl, tables := same.tables, batch := same.batch, closed := same.closed }

/-- An allocation block gets the measurements of the statements in it, and the blocks around it
none. -/
theorem allocation_runs {α β γ δ : Type} {act : LowerM α} {plan : PlanM β} {block : NodeId}
    {f : α → List HoistEntry → LowerM γ} {g : β × Option Batch → PlanM δ}
    {R : β → α → SyntaxTree → List (Hoisted NodeId) → Prop}
    {post : δ → Progress → γ → SyntaxTree → Context → Prop} (matched : Matches o c p)
    (run : ∀ c' p', Matches o c' p' → p'.batch = some ⟨0, []⟩ → RunsM act t c' plan p'
      fun b p₁ a t₁ c₁ => ∃ index new, R b a t₁ new ∧
        Tracks (c'.standing index) (p'.standing index) c₁ p₁ new)
    (rest : ∀ b index new p₁ a t₁ c₁, R b a t₁ new → Tracks c p c₁ p₁ [] →
      RunsM (f a (new.map (Hoisted.entry block))) t₁ c₁
        (g (b, some ⟨index, new.map Hoisted.erase⟩)) p₁ post) :
    RunsM (do
        ContextM.pushAllocation block
        let a ← act
        let entries ← (ContextM.popAllocation block : LowerM (List HoistEntry))
        f a entries) t c (PlanM.withBatch (some ⟨0, []⟩) plan >>= g) p post := by
  have matched' := matched.opened block
  simp only [PlanM.withBatch, bind_assoc, pure_bind]
  rw [RunsM.contextM_bind (show ContextM.pushAllocation block c = .ok ()
    { c with frames := ⟨block, 0⟩ :: c.frames, tables := [] :: c.tables } from rfl),
    RunsM.get_bind, RunsM.set_bind]
  refine (run _ _ matched' rfl).bind ?_
  rintro b p₁ a t₁ c₁ ⟨index, new, holds, tracks⟩
  obtain ⟨popped, batch, kept⟩ := run_popAllocation matched tracks
  rw [RunsM.contextM_bind popped, RunsM.get_bind, RunsM.set_bind, batch]
  exact rest b index new _ a t₁ _ holds kept

end QuantumLowering
