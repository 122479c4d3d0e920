import QuantumLowering.Proofs.Lowering.Plan

/-!
How the context follows the progress of a plan. While statements are lowered, the open allocation
blocks stay and the innermost one gets more measurements; nothing else of them changes.
-/

namespace QuantumLowering

namespace Hoisted

def erase (h : Hoisted NodeId) : Hoisted Unit := ⟨h.index, h.call.erase, h.placeholder⟩

def entry (block : NodeId) (h : Hoisted NodeId) : HoistEntry :=
  ⟨block, h.index, h.call.label, h.placeholder⟩

def cells (h : Hoisted NodeId) : List Cell := h.call.cells

end Hoisted

/-- The stacks of a context are those of the innermost allocation block and some others. -/
def Stacked (c : Context) : Option Batch → Prop
  | none => c.frames = [] ∧ c.tables = []
  | some b => ∃ block frames table tables, c.frames = ⟨block, b.statement⟩ :: frames ∧
      c.tables = table :: tables ∧ frames.length = tables.length ∧
      table.length = b.hoisted.length

/-- The context says what the progress says. -/
structure Matches (o : Options) (c : Context) (p : Progress) : Prop where
  options : c.options = o
  operations : c.operations = p.operations
  stats : c.stats = p.stats
  names : c.names = p.names
  insideMethod : c.insideMethod = p.insideMethod
  stack : Stacked c p.batch

def Context.recording (c : Context) (new : List (Hoisted NodeId)) : List (List HoistEntry) :=
  match c.frames, c.tables with
  | frame :: _, table :: tables => (table ++ new.map (Hoisted.entry frame.block)) :: tables
  | _, tables => tables

/-- The context has kept track of the progress, and the given measurements are new. -/
structure Tracks (c : Context) (p : Progress) (c' : Context) (p' : Progress)
    (new : List (Hoisted NodeId)) : Prop where
  options : c'.options = c.options
  operations : c'.operations = p'.operations
  stats : c'.stats = p'.stats
  names : c'.names = p'.names
  method : c'.insideMethod = c.insideMethod
  method' : p'.insideMethod = p.insideMethod
  frames : c'.frames = c.frames
  tables : c'.tables = c.recording new
  batch : p'.batch =
    p.batch.map fun b => { b with hoisted := b.hoisted ++ new.map Hoisted.erase }
  closed : p.batch = none → new = []

theorem Context.recording_nil (c : Context) : c.recording [] = c.tables := by
  unfold Context.recording
  split <;> simp_all

namespace Tracks

variable {o : Options} {c c' c'' : Context} {p p' p'' : Progress}
  {new later : List (Hoisted NodeId)}

theorem refl (matched : Matches o c p) : Tracks c p c p [] := by
  refine ⟨rfl, matched.operations, matched.stats, matched.names, rfl, rfl, rfl,
    c.recording_nil.symm, ?_, fun _ => rfl⟩
  cases p.batch <;> simp

theorem matched (tracks : Tracks c p c' p' new) (matched : Matches o c p) : Matches o c' p' := by
  refine ⟨tracks.options.trans matched.options, tracks.operations, tracks.stats, tracks.names,
    ?_, ?_⟩
  · rw [tracks.method, tracks.method', matched.insideMethod]
  · have stack := matched.stack
    have batch := tracks.batch
    cases open_ : p.batch with
    | none =>
      rw [open_] at stack batch
      rw [batch]
      refine ⟨tracks.frames.trans stack.1, tracks.tables.trans ?_⟩
      rw [tracks.closed open_, Context.recording_nil, stack.2]
    | some b =>
      rw [open_] at stack batch
      rw [batch]
      obtain ⟨block, frames, table, tables, frames_eq, tables_eq, length, count⟩ := stack
      refine ⟨block, frames, table ++ new.map (Hoisted.entry block), tables,
        tracks.frames.trans frames_eq, tracks.tables.trans ?_, length, ?_⟩
      · simp only [Context.recording, frames_eq, tables_eq]
      · simp [count]

theorem trans (first : Tracks c p c' p' new) (second : Tracks c' p' c'' p'' later) :
    Tracks c p c'' p'' (new ++ later) := by
  refine ⟨second.options.trans first.options, second.operations, second.stats, second.names,
    second.method.trans first.method, second.method'.trans first.method',
    second.frames.trans first.frames, ?_, ?_, ?_⟩
  · rw [second.tables, Context.recording, Context.recording, first.frames, first.tables,
      Context.recording]
    cases c.frames with
    | nil => rfl
    | cons frame frames => cases c.tables <;> simp
  · rw [second.batch, first.batch]
    cases p.batch <;> simp
  · intro closed
    rw [first.closed closed, second.closed (by rw [first.batch, closed]; rfl)]
    rfl

theorem isSome_batch (tracks : Tracks c p c' p' new) : p'.batch.isSome = p.batch.isSome := by
  rw [tracks.batch, Option.isSome_map]

end Tracks

namespace ContextM

variable {c : Context}

theorem run_get : (get : ContextM Context) c = .ok c c := rfl

theorem run_freshName (base : String) : freshName base c =
    .ok (c.names.fresh base).1 { c with names := (c.names.fresh base).2 } := rfl

theorem run_modifyStats (f : Stats → Stats) :
    modifyStats f c = .ok () { c with stats := f c.stats } := rfl

theorem run_modifyOperations (f : OperationTable → OperationTable) :
    modifyOperations f c = .ok () { c with operations := f c.operations } := rfl

end ContextM

/-- The run keeps track of a plan with its progress. -/
def RunsM {α β : Type} (act : LowerM α) (t : SyntaxTree) (c : Context) (plan : PlanM β)
    (p : Progress) (post : β → Progress → α → SyntaxTree → Context → Prop) : Prop :=
  Runs act t c (plan p) fun planned => post planned.1 planned.2

namespace RunsM

variable {α β γ δ : Type} {act : LowerM α} {t t' : SyntaxTree} {c c' : Context} {plan : PlanM β}
  {p : Progress} {post : β → Progress → α → SyntaxTree → Context → Prop}

theorem bind {f : α → LowerM γ} {g : β → PlanM δ}
    {post' : δ → Progress → γ → SyntaxTree → Context → Prop} (first : RunsM act t c plan p post)
    (rest : ∀ b p' a t' c', post b p' a t' c' → RunsM (f a) t' c' (g b) p' post') :
    RunsM (act >>= f) t c (plan >>= g) p post' :=
  Runs.bind first fun b a t' c' holds => rest b.1 b.2 a t' c' holds

theorem pure {a : α} {b : β} (holds : post b p a t c) :
    RunsM (Pure.pure a) t c (Pure.pure b) p post :=
  Runs.pure holds

theorem mono {post' : β → Progress → α → SyntaxTree → Context → Prop}
    (run : RunsM act t c plan p post)
    (weaker : ∀ b p' a t' c', post b p' a t' c' → post' b p' a t' c') :
    RunsM act t c plan p post' :=
  Runs.mono run fun b a t' c' holds => weaker b.1 b.2 a t' c' holds

theorem andThen {f : α → LowerM γ} {post' : β → Progress → γ → SyntaxTree → Context → Prop}
    (first : RunsM act t c plan p post)
    (rest : ∀ b p' a t' c', post b p' a t' c' → RunsM (f a) t' c' (Pure.pure b) p' post') :
    RunsM (act >>= f) t c plan p post' := by
  have both := first.bind rest
  rwa [bind_pure] at both

theorem skip {act : LowerM γ} {f : γ → LowerM α} {b : δ}
    {post' : δ → γ → SyntaxTree → Context → Prop} (first : Runs act t c (.ok b) post')
    (rest : ∀ a t' c', post' b a t' c' → RunsM (f a) t' c' plan p post) :
    RunsM (act >>= f) t c plan p post := by
  obtain ⟨a, t', c', ran, holds⟩ := first
  exact (Runs.after ran).2 (rest a t' c' holds)

theorem after {act : LowerM γ} {f : γ → LowerM α} {a : γ} (ran : act ⟨t, c⟩ = .ok a ⟨t', c'⟩) :
    RunsM (act >>= f) t c plan p post ↔ RunsM (f a) t' c' plan p post :=
  Runs.after ran

theorem treeM_bind {act : TreeM γ} {a : γ} {f : γ → LowerM α} (ran : act t = .ok a t') :
    RunsM (liftM act >>= f) t c plan p post ↔ RunsM (f a) t' c plan p post :=
  Runs.treeM_bind ran

theorem get_bind {g : Progress → PlanM β} :
    RunsM act t c (get >>= g) p post ↔ RunsM act t c (g p) p post := Iff.rfl

theorem lift_bind {f : α → LowerM γ} {plan : Plan β} {g : β → PlanM δ}
    {post : β → α → SyntaxTree → Context → Prop}
    {post' : δ → Progress → γ → SyntaxTree → Context → Prop} (first : Runs act t c plan post)
    (rest : ∀ b a t' c', post b a t' c' → RunsM (f a) t' c' (g b) p post') :
    RunsM (act >>= f) t c (liftM plan >>= g) p post' := by
  have lifted : ((liftM plan : PlanM β) >>= g) p = plan >>= fun b => g b p := by
    cases plan <;> rfl
  unfold RunsM
  rw [lifted]
  exact first.bind rest

@[simp]
theorem tree_bind {f : SyntaxTree → LowerM α} :
    RunsM (LowerM.tree >>= f) t c plan p post ↔ RunsM (f t) t c plan p post := Iff.rfl

@[simp]
theorem context_bind {f : Context → LowerM α} :
    RunsM (LowerM.context >>= f) t c plan p post ↔ RunsM (f c) t c plan p post := Iff.rfl

@[simp]
theorem options_bind {f : Options → LowerM α} :
    RunsM (LowerM.options >>= f) t c plan p post ↔ RunsM (f c.options) t c plan p post := Iff.rfl

@[simp]
theorem ok_bind {a : γ} {f : γ → LowerM α} :
    RunsM (liftM (Except.ok a : Except TreeError γ) >>= f) t c plan p post ↔
      RunsM (f a) t c plan p post := Iff.rfl

end RunsM

section Each

variable {o : Options} {β γ δ ρ κ : Type} (cells : β → List Cell) (become : ρ → List Cell)
  (view : ρ → γ) (out : ρ → δ) (key : β → κ) (key' : ρ → κ)

/-- Computations that take measurements out of placed syntax, one item after the other. What becomes
of an item is seen as the plan has it, as the computation gives it, and by what is kept of it. -/
theorem RunsM.each {act : β → LowerM δ} {plan : β → PlanM γ} {t : SyntaxTree} {c : Context}
    {p : Progress} {items : List β} (matched : Matches o c p)
    (owned : Owns t (items.flatMap cells))
    (step : ∀ b ∈ items, ∀ t c p', Matches o c p' → p'.batch.isSome = p.batch.isSome →
      Owns t (cells b) → RunsM (act b) t c (plan b) p' fun g p₁ a t₁ c₁ =>
        ∃ (r : ρ) (new : List (Hoisted NodeId)), view r = g ∧ out r = a ∧ key' r = key b ∧
        Tracks c p' c₁ p₁ new ∧
        Becomes t t₁ (cells b) (become r ++ new.flatMap Hoisted.cells)) :
    RunsM (items.mapM act) t c (items.mapM plan) p fun gs p₁ as t₁ c₁ =>
      ∃ (rs : List ρ) (new : List (Hoisted NodeId)), rs.map view = gs ∧ rs.map out = as ∧
        rs.map key' = items.map key ∧ Tracks c p c₁ p₁ new ∧
        Becomes t t₁ (items.flatMap cells) (rs.flatMap become ++ new.flatMap Hoisted.cells) := by
  induction items generalizing t c p with
  | nil => exact .pure ⟨[], [], rfl, rfl, rfl, .refl matched, .refl .nil⟩
  | cons b items ih =>
    rw [List.flatMap_cons] at owned
    rw [List.mapM_cons, List.mapM_cons]
    refine (step b (by simp) t c p matched rfl owned.left).bind ?_
    rintro g p₁ a t₁ c₁ ⟨r, new, viewed, given, kept, tracks, first⟩
    have framed := first.frame_owned owned
    refine (ih (tracks.matched matched) (framed.owns owned).right fun b member t c p' matched' same =>
      step b (by simp [member]) t c p' matched' (same.trans tracks.isSome_batch)).bind ?_
    rintro gs p₂ as t₂ c₂ ⟨rs, later, vieweds, givens, kepts, tracks', second⟩
    refine .pure ⟨r :: rs, new ++ later, by simp only [List.map_cons, viewed, vieweds],
      by simp only [List.map_cons, given, givens], by simp only [List.map_cons, kept, kepts],
      tracks.trans tracks', ?_⟩
    refine (first.append second owned).perm .rfl ?_
    rw [List.flatMap_cons, List.flatMap_append]
    refine List.perm_iff_count.2 fun cell => ?_
    simp only [List.count_append]
    omega

end Each

end QuantumLowering
