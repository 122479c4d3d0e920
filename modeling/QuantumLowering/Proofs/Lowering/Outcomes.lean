import QuantumLowering.Proofs.Lowering.Statements
import QuantumLowering.Proofs.Operation.Resolution

namespace QuantumLowering

/-- Every outcome of a plan with progress. -/
def Yields {β : Type} (plan : PlanM β) (p : Progress) (post : β → Progress → Prop) : Prop :=
  ∀ b p', plan p = .ok (b, p') → post b p'

namespace Yields

variable {β γ : Type} {plan : PlanM β} {p : Progress} {post : β → Progress → Prop}

theorem pure {b : β} (holds : post b p) : Yields (Pure.pure b) p post := by
  intro b' p' ended
  cases ended
  exact holds

theorem bind {g : β → PlanM γ} {post' : γ → Progress → Prop} (first : Yields plan p post)
    (rest : ∀ b p', post b p' → Yields (g b) p' post') : Yields (plan >>= g) p post' := by
  intro c p'' ended
  cases ran : plan p with
  | error reason =>
    simp only [Bind.bind, StateT.bind, ran, Except.bind] at ended
    cases ended
  | ok outcome =>
    obtain ⟨b, p'⟩ := outcome
    refine rest b p' (first b p' ran) c p'' ?_
    simpa only [Bind.bind, StateT.bind, ran, Except.bind] using ended

theorem mono {post' : β → Progress → Prop} (outcome : Yields plan p post)
    (weaker : ∀ b p', post b p' → post' b p') : Yields plan p post' :=
  fun b p' ended => weaker b p' (outcome b p' ended)

theorem any : Yields plan p fun _ _ => True := fun _ _ _ => trivial

theorem and {post' : β → Progress → Prop} (outcome : Yields plan p post)
    (outcome' : Yields plan p post') : Yields plan p fun b p' => post b p' ∧ post' b p' :=
  fun b p' ended => ⟨outcome b p' ended, outcome' b p' ended⟩

theorem lift {plan : Plan β} (holds : ∀ b, plan = .ok b → post b p) :
    Yields (liftM plan) p post := by
  intro b p' ended
  cases plan with
  | error reason => cases ended
  | ok b =>
    cases ended
    exact holds b rfl

theorem lift_bind {plan : Plan β} {g : β → PlanM γ} {post : γ → Progress → Prop}
    (rest : ∀ b, plan = .ok b → Yields (g b) p post) : Yields (liftM plan >>= g) p post := by
  have lifted : Yields (liftM plan) p fun b p' => plan = .ok b ∧ p' = p :=
    .lift fun b ended => ⟨ended, rfl⟩
  refine lifted.bind ?_
  rintro b p' ⟨ended, rfl⟩
  exact rest b ended

theorem throw {reason : Refusal} : Yields (throw reason) p post := by
  intro b p' ended
  cases ended

theorem get_bind {g : Progress → PlanM β} :
    Yields (get >>= g) p post ↔ Yields (g p) p post := Iff.rfl

theorem set_bind {q : Progress} {g : Unit → PlanM β} :
    Yields (set q >>= g) p post ↔ Yields (g ()) q post := Iff.rfl

theorem modify_bind {f : Progress → Progress} {g : Unit → PlanM β} :
    Yields (modify f >>= g) p post ↔ Yields (g ()) (f p) post := Iff.rfl

theorem withMethod {inside : Bool} (outcome : Yields plan { p with insideMethod := inside }
      fun b p' => post b { p' with insideMethod := p.insideMethod }) :
    Yields (PlanM.withMethod inside plan) p post := by
  unfold PlanM.withMethod
  rw [get_bind, set_bind]
  refine outcome.bind fun b p' holds => ?_
  rw [modify_bind]
  exact .pure holds

theorem withBatch {batch : Option Batch} {post : β × Option Batch → Progress → Prop}
    (outcome : Yields plan { p with batch := batch }
      fun b p' => post (b, p'.batch) { p' with batch := p.batch }) :
    Yields (PlanM.withBatch batch plan) p post := by
  unfold PlanM.withBatch
  rw [get_bind, set_bind]
  refine outcome.bind fun b p' holds => ?_
  rw [get_bind, set_bind]
  exact .pure holds

end Yields

theorem RunsM.and_yields {α β : Type} {act : LowerM α} {t : SyntaxTree} {c : Context}
    {plan : PlanM β} {p : Progress} {post : β → Progress → α → SyntaxTree → Context → Prop}
    {outcome : β → Progress → Prop} (run : RunsM act t c plan p post)
    (yields : Yields plan p outcome) :
    RunsM act t c plan p fun b p' a t' c' => post b p' a t' c' ∧ outcome b p' := by
  unfold RunsM at run ⊢
  cases ended : plan p with
  | error reason =>
    rw [ended] at run
    exact run
  | ok planned =>
    rw [ended] at run
    obtain ⟨a, t', c', ran, holds⟩ := run
    exact ⟨a, t', c', ran, holds, yields planned.1 planned.2 ended⟩

/-- A relation between progress before and after that holds of every step on names and on the counts of
what was done. -/
structure Steady (R : Progress → Progress → Prop) : Prop where
  refl (p : Progress) : R p p
  trans {p p' p'' : Progress} : R p p' → R p' p'' → R p p''
  fresh (p : Progress) (base : String) : R p { p with names := (p.names.fresh base).2 }
  stats (p : Progress) (f : Stats → Stats) : R p { p with stats := f p.stats }

structure SteadyLinks (R : Progress → Progress → Prop) : Prop extends Steady R where
  link (p : Progress) (f : GateFunctor) (operation variant : String) :
    R p { p with operations := p.operations.link operation f variant }

structure SteadyBatches (R : Progress → Progress → Prop) : Prop extends Steady R where
  batch (p : Progress) (batch : Option Batch) : R p { p with batch := batch }

def Keeps {β : Type} (R : Progress → Progress → Prop) (plan : PlanM β) : Prop :=
  ∀ p, Yields plan p fun _ p' => R p p'

namespace Steady

variable {R : Progress → Progress → Prop} {β γ : Type} {plan : PlanM β}

theorem pure (steady : Steady R) (b : β) : Keeps R (Pure.pure b : PlanM β) :=
  fun p => .pure (steady.refl p)

theorem bind (steady : Steady R) {g : β → PlanM γ} (first : Keeps R plan)
    (rest : ∀ b, Keeps R (g b)) : Keeps R (plan >>= g) :=
  fun p => (first p).bind fun b p' before =>
    (rest b p').mono fun _ _ after => steady.trans before after

theorem get (steady : Steady R) : Keeps R (MonadState.get : PlanM Progress) := by
  intro p b p' ended
  cases ended
  exact steady.refl _

theorem lift (steady : Steady R) (plan : Plan β) : Keeps R (liftM plan : PlanM β) :=
  fun p => .lift fun _ _ => steady.refl p

theorem freshName (steady : Steady R) (base : String) : Keeps R (PlanM.freshName base) := by
  intro p b p' ended
  cases ended
  exact steady.fresh p base

theorem modifyStats (steady : Steady R) (f : Stats → Stats) : Keeps R (PlanM.modifyStats f) := by
  intro p b p' ended
  cases ended
  exact steady.stats p f

theorem mapM (steady : Steady R) {α : Type} {f : α → PlanM β} {xs : List α}
    (each : ∀ x ∈ xs, Keeps R (f x)) : Keeps R (xs.mapM f) := by
  induction xs with
  | nil => exact steady.pure _
  | cons x xs ih =>
    rw [List.mapM_cons]
    have rest := ih fun x inside => each x (by simp [inside])
    exact steady.bind (each x (by simp)) fun _ => steady.bind rest fun _ => steady.pure _

theorem emitProxies (steady : Steady R) (o : Options) (ordinal : Nat)
    (entries : List (Hoisted Unit)) : Keeps R (PlanM.emitProxies o ordinal entries) := by
  induction entries generalizing ordinal with
  | nil => exact steady.pure _
  | cons entry entries ih =>
    exact steady.bind (steady.freshName _) fun _ => steady.bind (ih _) fun _ => steady.pure _

theorem emitBatch (steady : Steady R) (o : Options) (entries : List (Hoisted Unit))
    (body : List StmtTerm) : Keeps R (PlanM.emitBatch o entries body) := by
  unfold PlanM.emitBatch
  cases (entries.map Hoisted.index).min? with
  | none => exact steady.pure _
  | some position =>
    exact steady.bind (steady.emitProxies o 1 entries) fun _ =>
      steady.bind (steady.modifyStats _) fun _ => steady.pure _

theorem lowerConditional (steady : Steady R) (o : Options) (test : ExprTerm)
    (body orelse : List StmtTerm) : Keeps R (PlanM.lowerConditional o test body orelse) := by
  unfold PlanM.lowerConditional
  split
  · exact steady.bind (steady.lift _) fun _ => steady.bind (steady.freshName _) fun _ =>
      steady.bind steady.get fun _ => steady.bind (steady.lift _) fun _ =>
        steady.bind (steady.modifyStats _) fun _ => steady.pure _
  · exact fun _ => .throw

theorem deriveAdjoint (steady : Steady R) (o : Options) (d : Definition StmtTerm) :
    Keeps R (PlanM.deriveAdjoint o d) :=
  steady.bind steady.get fun _ => steady.bind (steady.lift _) fun _ =>
    steady.bind (steady.freshName _) fun _ => steady.bind (steady.modifyStats _) fun _ =>
      steady.pure _

theorem deriveControlled (steady : Steady R) (o : Options) (d : Definition StmtTerm) :
    Keeps R (PlanM.deriveControlled o d) :=
  steady.bind (steady.freshName _) fun _ => steady.bind steady.get fun _ =>
    steady.bind (steady.lift _) fun _ => steady.bind steady.get fun _ =>
      steady.bind (steady.freshName _) fun _ => steady.bind (steady.modifyStats _) fun _ =>
        steady.pure _

end Steady

namespace SteadyLinks

variable {R : Progress → Progress → Prop}

theorem emitLink (steady : SteadyLinks R) (f : GateFunctor) (operation variant : String) :
    Keeps R (PlanM.link f operation variant) := by
  intro p b p' ended
  cases ended
  exact steady.link p f operation variant

theorem emitAdjoint (steady : SteadyLinks R) (o : Options) (d : Definition StmtTerm) :
    Keeps R (PlanM.emitAdjoint o d) :=
  steady.bind (steady.deriveAdjoint o d) fun _ => steady.bind (steady.emitLink _ _ _) fun _ =>
    steady.bind (steady.emitLink _ _ _) fun _ => steady.pure _

theorem emitControlled (steady : SteadyLinks R) (o : Options) (d : Definition StmtTerm)
    (adjoint : Option String) : Keeps R (PlanM.emitControlled o d adjoint) := by
  refine steady.bind (steady.deriveControlled o d) fun _ => ?_
  have link : ∀ f operation variant, Keeps R (PlanM.link f operation variant) := steady.emitLink
  cases adjoint with
  | none =>
    exact steady.bind (link _ _ _) fun _ => steady.bind (link _ _ _) fun _ => steady.pure _
  | some adjoint =>
    exact steady.bind (steady.deriveAdjoint _ _) fun _ => steady.bind (link _ _ _) fun _ =>
      steady.bind (link _ _ _) fun _ => steady.bind (link _ _ _) fun _ =>
        steady.bind (link _ _ _) fun _ => steady.bind (link _ _ _) fun _ =>
          steady.bind (link _ _ _) fun _ => steady.pure _

theorem requestedAdjoints (steady : SteadyLinks R) (o : Options) (d : Definition StmtTerm) :
    Keeps R (PlanM.requestedAdjoints o d) := by
  unfold PlanM.requestedAdjoints
  split
  · exact steady.bind (steady.emitAdjoint o d) fun _ => steady.pure _
  · exact steady.pure _

theorem requestedControlled (steady : SteadyLinks R) (o : Options) (d : Definition StmtTerm)
    (adjoint : Option String) : Keeps R (PlanM.requestedControlled o d adjoint) := by
  unfold PlanM.requestedControlled
  split
  · exact steady.emitControlled o d adjoint
  · exact steady.pure _

theorem emitVariants (steady : SteadyLinks R) (o : Options) (d : Definition StmtTerm) :
    Keeps R (PlanM.emitVariants o d) :=
  steady.bind (steady.requestedAdjoints o d) fun _ =>
    steady.bind (steady.requestedControlled o d _) fun _ => steady.pure _

end SteadyLinks

namespace SteadyBatches

variable {R : Progress → Progress → Prop}

theorem modifyBatch (steady : SteadyBatches R) (f : Option Batch → Option Batch) :
    Keeps R (modify fun p => { p with batch := f p.batch } : PlanM Unit) := by
  intro p b p' ended
  cases ended
  exact steady.batch p _

theorem record (steady : SteadyBatches R) (call : ExprTerm) (batch : Batch) (stem : String) :
    Keeps R (PlanM.record call batch stem) :=
  steady.bind (steady.freshName _) fun _ => steady.bind (steady.modifyBatch fun _ => _) fun _ =>
    steady.pure _

theorem hoist (steady : SteadyBatches R) (o : Options) (e : ExprTerm) :
    Keeps R (PlanM.hoist o e) := by
  induction e using ExprTree.induct with
  | step label layer ih =>
    rw [PlanM.hoist_node]
    refine steady.bind steady.get fun p => ?_
    cases p.batch with
    | none => exact steady.pure _
    | some batch =>
      dsimp only
      split
      · exact steady.bind (steady.record _ _ _) fun _ => steady.pure _
      · exact steady.bind (steady.mapM ih) fun _ => steady.pure _

end SteadyBatches

/-- What is taken stays taken, and what resolves still does. -/
structure Progress.Grows (p p' : Progress) : Prop where
  operations : p.operations.Grows p'.operations
  names : p.names.taken <:+ p'.names.taken

namespace Progress.Grows

variable {p p' p'' : Progress}

theorem refl (p : Progress) : p.Grows p := ⟨.refl _, List.suffix_rfl⟩

theorem trans (first : p.Grows p') (second : p'.Grows p'') : p.Grows p'' :=
  ⟨first.operations.trans second.operations, first.names.trans second.names⟩

end Progress.Grows

namespace Growing

theorem links : SteadyLinks Progress.Grows where
  refl p := .refl p
  trans := Progress.Grows.trans
  fresh _ _ := ⟨.refl _, List.suffix_cons _ _⟩
  stats _ _ := ⟨.refl _, List.suffix_rfl⟩
  link _ _ _ _ := ⟨OperationTable.grows_link _ _ _ _, List.suffix_rfl⟩

theorem batches : SteadyBatches Progress.Grows where
  toSteady := links.toSteady
  batch _ _ := ⟨.refl _, List.suffix_rfl⟩

end Growing

end QuantumLowering
