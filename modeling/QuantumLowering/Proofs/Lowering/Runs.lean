import QuantumLowering.Lowering.Context
import QuantumLowering.Proofs.Syntax.Ownership

/-!
Runs of lowering computations beside plans. A plan says what should come out, without an arena; a
run follows it when both end alike. A plan can only be refused for a construct without a lowered
form or for a variant that is not there, so a run that follows one fails for no other reason.
-/

namespace QuantumLowering

inductive Refusal where
  | unsupported (what : Unsupported)
  | undefinedVariant (what : UndefinedVariant)
deriving DecidableEq, Repr

def Refusal.error : Refusal → LoweringError
  | .unsupported what => .unsupported what
  | .undefinedVariant what => .undefinedVariant what

abbrev Plan := Except Refusal

theorem exists_mem_of_forall₂ {α β : Type} {R : α → β → Prop} {xs : List α} {ys : List β}
    (pairs : List.Forall₂ R xs ys) {x : α} (member : x ∈ xs) : ∃ y ∈ ys, R x y := by
  induction pairs with
  | nil => cases member
  | cons here _ ih =>
    rcases List.mem_cons.1 member with rfl | member
    · exact ⟨_, List.mem_cons_self, here⟩
    · obtain ⟨y, inside, related⟩ := ih member
      exact ⟨y, List.mem_cons_of_mem _ inside, related⟩

theorem forall₂_imp_of_mem {α β : Type} {R S : α → β → Prop} {xs : List α} {ys : List β}
    (pairs : List.Forall₂ R xs ys) (each : ∀ x ∈ xs, ∀ y, R x y → S x y) :
    List.Forall₂ S xs ys := by
  induction pairs with
  | nil => exact .nil
  | cons here _ ih =>
    exact .cons (each _ (by simp) _ here) (ih fun x inside => each x (by simp [inside]))

namespace Plan

variable {ε α β : Type}

theorem bind_eq_ok {plan : Except ε α} {f : α → Except ε β} {b : β} :
    plan >>= f = .ok b ↔ ∃ a, plan = .ok a ∧ f a = .ok b := by
  cases plan with
  | error reason => simp [Bind.bind, Except.bind]
  | ok a => simp [Bind.bind, Except.bind]

theorem bind_eq_error {plan : Plan α} {f : α → Plan β} {reason : Refusal} :
    plan >>= f = .error reason ↔ plan = .error reason ∨ ∃ a, plan = .ok a ∧ f a = .error reason := by
  cases plan with
  | error other => simp [Bind.bind, Except.bind]
  | ok a => simp [Bind.bind, Except.bind]

theorem mapM_eq_ok {f : α → Except ε β} {xs : List α} {ys : List β} (ended : xs.mapM f = .ok ys) :
    List.Forall₂ (fun x y => f x = .ok y) xs ys := by
  induction xs generalizing ys with
  | nil =>
    cases ended
    exact .nil
  | cons x xs ih =>
    rw [List.mapM_cons, bind_eq_ok] at ended
    obtain ⟨y, here, ended⟩ := ended
    obtain ⟨rest, there, ended⟩ := bind_eq_ok.1 ended
    cases ended
    exact .cons here (ih there)

theorem mapM_eq_error {f : α → Plan β} {xs : List α} {reason : Refusal}
    (failed : xs.mapM f = .error reason) : ∃ x ∈ xs, f x = .error reason := by
  induction xs with
  | nil => cases failed
  | cons x xs ih =>
    rw [List.mapM_cons] at failed
    rcases bind_eq_error.1 failed with here | ⟨y, -, failed⟩
    · exact ⟨x, List.mem_cons_self, here⟩
    · rcases bind_eq_error.1 failed with rest | ⟨ys, -, ended⟩
      · obtain ⟨x', inside, there⟩ := ih rest
        exact ⟨x', List.mem_cons_of_mem _ inside, there⟩
      · cases ended

theorem exists_of_mem {f : α → Except ε β} {xs : List α} {ys : List β} {y : β}
    (ended : xs.mapM f = .ok ys) (member : y ∈ ys) : ∃ x ∈ xs, f x = .ok y := by
  have pairs := mapM_eq_ok ended
  clear ended
  induction pairs with
  | nil => cases member
  | @cons x _ xs _ here _ ih =>
    rcases List.mem_cons.1 member with rfl | member
    · exact ⟨x, by simp, here⟩
    · obtain ⟨x', listed, there⟩ := ih member
      exact ⟨x', by simp [listed], there⟩

end Plan

def LowerM.succeeds {α : Type} (act : LowerM α) (s : LoweringState) : Bool :=
  match act s with
  | .ok _ _ => true
  | .error _ _ => false

theorem LowerM.exists_of_succeeds {α : Type} {act : LowerM α} {s : LoweringState}
    (succeeds : LowerM.succeeds act s) : ∃ a s', act s = .ok a s' := by
  unfold LowerM.succeeds at succeeds
  cases ran : act s with
  | ok a s' => exact ⟨a, s', rfl⟩
  | error e s' =>
    rw [ran] at succeeds
    cases succeeds

/-- The run ends as the plan does, and the outcomes of the two are related. -/
def Runs {α β : Type} (act : LowerM α) (t : SyntaxTree) (c : Context) (plan : Plan β)
    (post : β → α → SyntaxTree → Context → Prop) : Prop :=
  match plan with
  | .ok b => ∃ a t' c', act ⟨t, c⟩ = .ok a ⟨t', c'⟩ ∧ post b a t' c'
  | .error reason => ∃ s, act ⟨t, c⟩ = .error reason.error s

namespace Runs

variable {α β γ δ : Type} {act : LowerM α} {t t' : SyntaxTree} {c c' : Context} {plan : Plan β}
  {post : β → α → SyntaxTree → Context → Prop}

theorem bind {f : α → LowerM γ} {g : β → Plan δ} {post' : δ → γ → SyntaxTree → Context → Prop}
    (first : Runs act t c plan post)
    (rest : ∀ b a t' c', post b a t' c' → Runs (f a) t' c' (g b) post') :
    Runs (act >>= f) t c (plan >>= g) post' := by
  cases plan with
  | error reason =>
    obtain ⟨s, failed⟩ := first
    exact ⟨s, by simp only [Bind.bind, EStateM.bind, failed]⟩
  | ok b =>
    obtain ⟨a, t', c', ran, holds⟩ := first
    have next := rest b a t' c' holds
    simp only [Bind.bind, Except.bind]
    unfold Runs at next ⊢
    simp only [EStateM.bind, ran]
    exact next

theorem mono {post' : β → α → SyntaxTree → Context → Prop} (run : Runs act t c plan post)
    (weaker : ∀ b a t' c', post b a t' c' → post' b a t' c') : Runs act t c plan post' := by
  cases plan with
  | error reason => exact run
  | ok b =>
    obtain ⟨a, t', c', ran, holds⟩ := run
    exact ⟨a, t', c', ran, weaker b a t' c' holds⟩

theorem map {g : β → γ} {post' : γ → α → SyntaxTree → Context → Prop} (run : Runs act t c plan post)
    (weaker : ∀ b a t' c', post b a t' c' → post' (g b) a t' c') :
    Runs act t c (g <$> plan) post' := by
  cases plan with
  | error reason => exact run
  | ok b =>
    obtain ⟨a, t', c', ran, holds⟩ := run
    exact ⟨a, t', c', ran, weaker b a t' c' holds⟩

theorem pure {a : α} {b : β} (holds : post b a t c) : Runs (Pure.pure a) t c (.ok b) post :=
  ⟨a, t, c, rfl, holds⟩

theorem throw (reason : Refusal) : Runs (throw reason.error) t c (.error reason) post :=
  ⟨⟨t, c⟩, rfl⟩

theorem exists_of_ok {a : α} {s : LoweringState} (run : Runs act t c plan post)
    (ended : act ⟨t, c⟩ = .ok a s) : ∃ b, plan = .ok b ∧ post b a s.tree s.context := by
  cases plan with
  | error reason =>
    obtain ⟨s', failed⟩ := run
    cases failed.symm.trans ended
  | ok b =>
    obtain ⟨a', t', c', ran, holds⟩ := run
    cases ran.symm.trans ended
    exact ⟨b, rfl, holds⟩

theorem exists_of_error {error : LoweringError} {s : LoweringState} (run : Runs act t c plan post)
    (failed : act ⟨t, c⟩ = .error error s) : ∃ reason, plan = .error reason ∧ error = reason.error := by
  cases plan with
  | error reason =>
    obtain ⟨s', failed'⟩ := run
    cases failed'.symm.trans failed
    exact ⟨reason, rfl, rfl⟩
  | ok b =>
    obtain ⟨a, t', c', ran, -⟩ := run
    cases ran.symm.trans failed

/-- The rest of a run after steps that a plan does not mention. -/
theorem after {act : LowerM γ} {f : γ → LowerM α} {a : γ} (ran : act ⟨t, c⟩ = .ok a ⟨t', c'⟩) :
    Runs (act >>= f) t c plan post ↔ Runs (f a) t' c' plan post := by
  unfold Runs
  simp only [Bind.bind, EStateM.bind, ran]

@[simp]
theorem tree_bind {f : SyntaxTree → LowerM α} :
    Runs (LowerM.tree >>= f) t c plan post ↔ Runs (f t) t c plan post := Iff.rfl

@[simp]
theorem context_bind {f : Context → LowerM α} :
    Runs (LowerM.context >>= f) t c plan post ↔ Runs (f c) t c plan post := Iff.rfl

@[simp]
theorem options_bind {f : Options → LowerM α} :
    Runs (LowerM.options >>= f) t c plan post ↔ Runs (f c.options) t c plan post := Iff.rfl

@[simp]
theorem operations_bind {f : OperationTable → LowerM α} :
    Runs (LowerM.operations >>= f) t c plan post ↔ Runs (f c.operations) t c plan post := Iff.rfl

@[simp]
theorem pure_bind {a : γ} {f : γ → LowerM α} :
    Runs (Pure.pure a >>= f) t c plan post ↔ Runs (f a) t c plan post := Iff.rfl

@[simp]
theorem ok_bind {a : γ} {f : γ → LowerM α} :
    Runs (liftM (Except.ok a : Except TreeError γ) >>= f) t c plan post ↔ Runs (f a) t c plan post :=
  Iff.rfl

theorem lift_treeM {act : TreeM γ} {a : γ} (ran : act t = .ok a t') :
    (liftM act : LowerM γ) ⟨t, c⟩ = .ok a ⟨t', c⟩ := by
  simp only [liftM, monadLift, MonadLift.monadLift, ran]

theorem lift_contextM {act : ContextM γ} {a : γ} (ran : act c = .ok a c') :
    (liftM act : LowerM γ) ⟨t, c⟩ = .ok a ⟨t, c'⟩ := by
  simp only [liftM, monadLift, MonadLift.monadLift, ran]

theorem treeM_bind {act : TreeM γ} {a : γ} {f : γ → LowerM α} (ran : act t = .ok a t') :
    Runs (liftM act >>= f) t c plan post ↔ Runs (f a) t' c plan post :=
  after (lift_treeM ran)

theorem treeM {act : TreeM α} {a : α} {b : β} (ran : act t = .ok a t') (holds : post b a t' c) :
    Runs (liftM act) t c (.ok b) post :=
  ⟨a, t', c, lift_treeM ran, holds⟩

theorem contextM_bind {act : ContextM γ} {a : γ} {f : γ → LowerM α} (ran : act c = .ok a c') :
    Runs (liftM act >>= f) t c plan post ↔ Runs (f a) t c' plan post :=
  after (lift_contextM ran)

theorem contextM {act : ContextM α} {a : α} {b : β} (ran : act c = .ok a c')
    (holds : post b a t c') : Runs (liftM act) t c (.ok b) post :=
  ⟨a, t, c', lift_contextM ran, holds⟩

theorem variant_bind {r : Except UndefinedVariant Unit} {f : Unit → LowerM α}
    {post : Unit → α → SyntaxTree → Context → Prop} (rest : Runs (f ()) t c (.ok ()) post) :
    Runs (liftM r >>= f) t c (r.mapError .undefinedVariant) post := by
  cases r with
  | error e => exact ⟨⟨t, c⟩, rfl⟩
  | ok a => exact rest

end Runs

end QuantumLowering
