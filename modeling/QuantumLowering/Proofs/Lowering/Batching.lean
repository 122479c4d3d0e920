import QuantumLowering.Proofs.Lowering.Families
import QuantumLowering.Proofs.Lowering.Restoration

/-!
Where lowering looks for the measurements of an allocation block: in expression statements, assigned
values, the contexts of scopes and the tests of classical conditionals. The outermost measurements found
there become placeholders of the innermost block around them, and its batch executes them.
-/

namespace QuantumLowering

variable {o : Options} {known : List String} {p p' : Progress}

namespace ExprTree

/-- The outermost calls of a function in an expression, in evaluation order. -/
def outermost (name : String) : ExprTerm → List ExprTerm
  | .node _ layer =>
    if (node () layer).isCallTo name then [.node () layer]
    else (layer.children.attach.map fun part => outermost name part.1).flatten
termination_by e => sizeOf e
decreasing_by exact sizeOf_part part.2

theorem outermost_node (name : String) (layer : Expr ExprTerm) :
    outermost name (.node () layer) =
      if (node () layer).isCallTo name then [.node () layer]
      else layer.children.flatMap (outermost name) := by
  rw [outermost, List.attach_map_val (f := outermost name), ← List.flatMap_def]

theorem outermost_other {name : String} {layer : Expr ExprTerm}
    (other : (node () layer).isCallTo name = false) :
    outermost name (.node () layer) = layer.children.flatMap (outermost name) := by
  rw [outermost_node, other, if_neg Bool.false_ne_true]

theorem outermost_nameTerm (name x : String) : outermost name (nameTerm x) = [] :=
  outermost_other rfl

theorem isCallTo_call (name : String) (func : ExprTerm) (args : List ExprTerm)
    (keywords : List (Keyword ExprTerm)) :
    (node () (.call func args keywords)).isCallTo name ↔ func.layer.name? = some name := by
  obtain ⟨⟨⟩, layer⟩ := func
  cases layer <;> simp [isCallTo, ExprTree.layer, Expr.name?]

theorem mem_names_of_isCallTo {name : String} {e : ExprTerm} (calls : e.isCallTo name) :
    name ∈ e.names := by
  obtain ⟨⟨⟩, layer⟩ := e
  cases layer with
  | call func args keywords =>
    obtain ⟨⟨⟩, layer'⟩ := func
    obtain rfl := Expr.eq_name ((isCallTo_call _ _ _ _).1 calls)
    simp [Expr.name?, Expr.children]
  | _ => cases calls

end ExprTree

theorem Yields.mapM_forall₂ {β γ : Type} {I : Progress → Prop} {f : β → PlanM γ} {R : β → γ → Prop}
    {xs : List β} (each : ∀ x ∈ xs, ∀ p, I p → Yields (f x) p fun y p' => I p' ∧ R x y)
    (holds : I p) : Yields (xs.mapM f) p fun ys _ => List.Forall₂ R xs ys := by
  induction xs generalizing p with
  | nil => exact .pure .nil
  | cons x xs ih =>
    rw [List.mapM_cons]
    refine (each x (by simp) p holds).bind ?_
    rintro y p₁ ⟨holds₁, here⟩
    exact (ih (fun x inside => each x (by simp [inside])) holds₁).bind fun ys p₂ rest =>
      .pure (.cons here rest)

/-- The open block has the given measurements more. -/
def Progress.Finds (p p' : Progress) (calls : List ExprTerm) : Prop :=
  p'.batch.map (fun b => b.hoisted.map Hoisted.call) =
    p.batch.map fun b => b.hoisted.map Hoisted.call ++ calls

theorem Progress.Finds.trans {p'' : Progress} {calls calls' : List ExprTerm}
    (first : p.Finds p' calls) (second : p'.Finds p'' calls') : p.Finds p'' (calls ++ calls') := by
  unfold Progress.Finds at *
  cases open_ : p.batch <;> cases open' : p'.batch <;> simp_all

theorem mapM_finds {f : ExprTerm → PlanM ExprTerm} {parts : List ExprTerm} {g : ExprTerm → List ExprTerm}
    (each : ∀ e ∈ parts, ∀ p, Yields (f e) p fun _ p' => p.Finds p' (g e)) :
    Yields (parts.mapM f) p fun _ p' => p.Finds p' (parts.flatMap g) := by
  induction parts generalizing p with
  | nil => exact .pure (by simp [Progress.Finds])
  | cons e parts ih =>
    rw [List.mapM_cons]
    refine (each e (by simp) p).bind fun r p₁ first => ?_
    refine (ih fun e inside => each e (by simp [inside])).bind fun rs p₂ rest => .pure ?_
    exact first.trans rest

theorem hoist_finds (e : ExprTerm) :
    Yields (PlanM.hoist o e) p fun _ p' => p.Finds p' (e.outermost o.measureFn) := by
  induction e using ExprTree.induct generalizing p with
  | step label layer ih =>
    rw [PlanM.hoist_node, Yields.get_bind, ExprTree.outermost_node]
    cases open_ : p.batch with
    | none => exact .pure (by simp [Progress.Finds, open_])
    | some b =>
      dsimp only
      split
      · refine (record_takes open_ _ _).bind fun x p₁ ⟨takes, _⟩ => .pure ?_
        have batch := takes.batch
        rw [open_] at batch
        obtain ⟨b', open', hoisted⟩ := Option.map_eq_some_iff.1 batch
        simp [Progress.Finds, open_, open', hoisted]
      · exact (mapM_finds fun e member p => ih e member).bind fun rs p₁ finds => .pure finds

theorem Takes.suspended {q q' : Progress} {new : List (Hoisted Unit)} {batch : Option Batch}
    (takes : Takes { q with batch := batch } q' new) : Takes q { q' with batch := q.batch } [] :=
  .of_grows takes.taken rfl

theorem Takes.standing (index : Nat) : Takes p (p.standing index) [] := by
  refine ⟨?_, fun _ => rfl, List.Subset.refl _, by simp, by simp, by simp⟩
  cases open_ : p.batch <;> simp [Progress.standing, open_]

theorem Takes.isSome {new : List (Hoisted Unit)} (takes : Takes p p' new) :
    p'.batch.isSome = p.batch.isSome := by
  have batch := congrArg Option.isSome takes.batch
  simpa using batch

/-- No measurement is left, and a name that was not there before is a new one. -/
structure Cleared (fn : String) (known : List String) (e r : ExprTerm) : Prop where
  none : r.outermost fn = []
  named : ∀ x, r.layer.name? = some x → e.layer.name? = some x ∨ e.isCallTo fn ∧ x ∉ known

theorem not_isCallTo_refill {fn : String} {layer : Expr ExprTerm} {parts : List ExprTerm}
    (inside : (ExprTree.node () layer).names ⊆ known) (other : ¬ (ExprTree.node () layer).isCallTo fn)
    (cleared : List.Forall₂ (Cleared fn known) layer.children parts) :
    ¬ (ExprTree.node () (layer.refill parts)).isCallTo fn := by
  intro calls
  cases layer with
  | call func args keywords =>
    obtain ⟨func', rest, here, -, rfl⟩ := List.forall₂_cons_left_iff.1 cleared
    rcases here.named fn ((ExprTree.isCallTo_call _ _ _ _).1 calls) with same | ⟨measured, new⟩
    · exact other ((ExprTree.isCallTo_call _ _ _ _).2 same)
    · refine new (inside ?_)
      rw [ExprTree.names_node]
      exact List.mem_append_right _
        (List.mem_flatMap.2 ⟨func, by simp [Expr.children], ExprTree.mem_names_of_isCallTo measured⟩)
  | _ => cases calls

theorem hoist_clears (e : ExprTerm) (inside : e.names ⊆ known) (open_ : p.batch.isSome)
    (reserved : known ⊆ p.names.taken) :
    Yields (PlanM.hoist o e) p fun r _ => Cleared o.measureFn known e r := by
  induction e using ExprTree.induct generalizing p with
  | step label layer ih =>
    rw [PlanM.hoist_node, Yields.get_bind]
    obtain ⟨b, open_⟩ := Option.isSome_iff_exists.1 open_
    rw [open_]
    dsimp only
    split
    · rename_i measured
      refine (record_takes open_ _ _).bind fun x p₁ ⟨takes, _⟩ => .pure ?_
      refine ⟨ExprTree.outermost_nameTerm _ _, fun y named => .inr ⟨measured, ?_⟩⟩
      have same : x = y := by simpa [nameTerm, ExprTree.layer, Expr.name?] using named
      exact fun used => takes.fresh _ List.mem_cons_self (same ▸ reserved used)
    · rename_i other
      have parts : Yields (layer.children.mapM (PlanM.hoist o)) p fun rs _ =>
          List.Forall₂ (Cleared o.measureFn known) layer.children rs := by
        refine .mapM_forall₂ (I := fun p => p.batch.isSome ∧ known ⊆ p.names.taken) ?_
          ⟨by rw [open_]; rfl, reserved⟩
        rintro part member q ⟨open', reserved'⟩
        have within : part.names ⊆ known := fun x used => inside <| by
          rw [ExprTree.names_node]
          exact List.mem_append_right _ (List.mem_flatMap.2 ⟨part, member, used⟩)
        refine ((hoist_recovers part within).and (ih part member within open' reserved')).mono ?_
        rintro r q' ⟨⟨new, takes, -, -⟩, cleared⟩
        exact ⟨⟨takes.isSome.trans open', takes.reserves reserved'⟩, cleared⟩
      refine parts.bind fun rs p₁ cleared => .pure ⟨?_, fun x named => .inl ?_⟩
      · have none : ∀ r ∈ rs, r.outermost o.measureFn = [] := by
          intro r member
          obtain ⟨e, -, here⟩ := exists_mem_of_forall₂ cleared.flip member
          exact here.none
        rw [ExprTree.outermost_node, if_neg (not_isCallTo_refill inside other cleared),
          Expr.children_refill cleared.length_eq.symm]
        exact List.flatMap_eq_nil_iff.2 none
      · rwa [ExprTree.layer, Expr.name?_refill] at named

/-- An expression and what the search makes of it. Inside an allocation block each of its outermost
measurements is the call of an entry and has given way to the placeholder of that entry. -/
inductive Searched (o : Options) (known : List String) :
    Bool → ExprTerm → ExprTerm → List (Hoisted Unit) → Prop where
  | outside (e : ExprTerm) : Searched o known false e e []
  | inside {e r : ExprTerm} {new : List (Hoisted Unit)}
    (calls : new.map Hoisted.call = e.outermost o.measureFn)
    (none : r.outermost o.measureFn = [])
    (undone : ∀ σ, Undoes known new σ → r.subst σ = e) : Searched o known true e r new

theorem hoist_searched (e : ExprTerm) (inside : e.names ⊆ known) (reserved : known ⊆ p.names.taken) :
    Yields (PlanM.hoist o e) p fun r p' =>
      ∃ new, Takes p p' new ∧ p.names.Issues (new.map Hoisted.placeholder) p'.names ∧
        Searched o known p.batch.isSome e r new := by
  cases open_ : p.batch with
  | none =>
    intro r p' ended
    rw [PlanM.hoist_closed open_] at ended
    cases ended
    exact ⟨[], .refl p, .done _, .outside e⟩
  | some b =>
    refine ((hoist_recovers e inside).and ((hoist_finds e).and
      (hoist_clears e inside (by rw [open_]; rfl) reserved))).mono ?_
    rintro r p' ⟨⟨new, takes, issues, undone⟩, finds, cleared⟩
    refine ⟨new, takes, issues, .inside ?_ cleared.none undone⟩
    have batch := takes.batch
    rw [open_] at batch
    obtain ⟨b', open', hoisted⟩ := Option.map_eq_some_iff.1 batch
    simpa [Progress.Finds, open_, open', hoisted] using finds

def StmtTree.derived (known : List String) (s : StmtTerm) : Prop :=
  (∃ f operation variant, s = .wire () f operation variant) ∨ ∃ d, s = .define () d ∧ d.name ∉ known

/-- A block and what it is lowered to, inside or outside an allocation block, with the entries of the
measurements found in it. Those in definitions and in allocation blocks of its own are not among them.
An assignment's target, the binding of a scope and the condition of a quantum conditional are not
searched. -/
inductive Batched (o : Options) (known : List String) :
    Bool → List StmtTerm → List StmtTerm → List (Hoisted Unit) → Prop where
  | nil (inside : Bool) : Batched o known inside [] [] []
  | append {inside : Bool} {body body' rs rs' : List StmtTerm} {new later : List (Hoisted Unit)}
    (first : Batched o known inside body rs new) (second : Batched o known inside body' rs' later) :
    Batched o known inside (body ++ body') (rs ++ rs') (new ++ later)
  | importAs (inside : Bool) (module name : String) :
    Batched o known inside [.importAs () module name] [.importAs () module name] []
  | wire (inside : Bool) (f : GateFunctor) (operation variant : String) :
    Batched o known inside [.wire () f operation variant] [.wire () f operation variant] []
  | pass (inside : Bool) : Batched o known inside [.pass ()] [.pass ()] []
  | expr {inside : Bool} {value r : ExprTerm} {new : List (Hoisted Unit)}
    (search : Searched o known inside value r new) :
    Batched o known inside [.expr () value] [.expr () r] new
  | assign {inside : Bool} (target : ExprTerm) {value r : ExprTerm} {new : List (Hoisted Unit)}
    (search : Searched o known inside value r new) :
    Batched o known inside [.assign () target value] [.assign () target r] new
  | define (inside : Bool) {d : Definition StmtTerm} {rs variants : List StmtTerm}
    (within : Batched o known false d.body rs []) (added : ∀ s ∈ variants, s.derived known)
    (unmarked : d.markers = .none → variants = []) :
    Batched o known inside [.define () d] (.define () { d with body := rs } :: variants) []
  | classDef {inside : Bool} (name : String) {body rs : List StmtTerm} {new : List (Hoisted Unit)}
    (within : Batched o known inside body rs new) :
    Batched o known inside [.classDef () name body] [.classDef () name rs] new
  | allocation {inside : Bool} {context r : ExprTerm} (binding : Option ExprTerm)
    {body rs stmts : List StmtTerm} {new found : List (Hoisted Unit)}
    (allocates : context.isCallTo o.allocateFn) (search : Searched o known inside context r new)
    (within : Batched o known true body rs found) (once : (found.map Hoisted.placeholder).Nodup)
    (fresh : ∀ h ∈ found, h.placeholder ∉ known) (batch : WithBatch o known found rs stmts) :
    Batched o known inside [.scoped () context binding body] [.scoped () r binding stmts] new
  | scope {inside : Bool} {context r : ExprTerm} (binding : Option ExprTerm) {body rs : List StmtTerm}
    {new later : List (Hoisted Unit)} (plain : ¬ context.isCallTo o.allocateFn)
    (search : Searched o known inside context r new) (within : Batched o known inside body rs later) :
    Batched o known inside [.scoped () context binding body] [.scoped () r binding rs] (new ++ later)
  | classical {inside : Bool} {test r : ExprTerm} {body orelse rs rs' : List StmtTerm}
    {new new' new'' : List (Hoisted Unit)} (plain : ¬ test.isCallTo o.conditionFn)
    (search : Searched o known inside test r new) (first : Batched o known inside body rs new')
    (second : Batched o known inside orelse rs' new'') :
    Batched o known inside [.conditional () test body orelse] [.conditional () r rs rs']
      (new ++ (new' ++ new''))
  | quantum {inside : Bool} {test lines value : ExprTerm} {body orelse rs stmts : List StmtTerm}
    {new later : List (Hoisted Unit)} {table : OperationTable} (control : String)
    (marked : test.isCallTo o.conditionFn)
    (operands : PlanM.comparisonOperands o test = .ok (lines, value))
    (first : Batched o known inside body rs new) (second : Batched o known inside orelse [] later)
    (controlled : controlStmts table control rs = .ok stmts) :
    Batched o known inside [.conditional () test body orelse]
      [.scoped () (PlanM.scopeCall o lines value) (some (nameTerm control)) stmts] (new ++ later)

def Batches (o : Options) (known : List String) (p : Progress) (body rs : List StmtTerm)
    (p' : Progress) : Prop :=
  ∃ new, Takes p p' new ∧ Batched o known p.batch.isSome body rs new

namespace Batches

variable {p'' : Progress} {body body' rs rs' : List StmtTerm}

theorem nil (p : Progress) : Batches o known p [] [] p := ⟨[], .refl p, .nil _⟩

theorem append (first : Batches o known p body rs p') (second : Batches o known p' body' rs' p'') :
    Batches o known p (body ++ body') (rs ++ rs') p'' := by
  obtain ⟨new, takes, batched⟩ := first
  obtain ⟨later, takes', batched'⟩ := second
  rw [takes.isSome] at batched'
  exact ⟨new ++ later, takes.trans takes', batched.append batched'⟩

theorem reserves (batches : Batches o known p body rs p') (reserved : known ⊆ p.names.taken) :
    known ⊆ p'.names.taken := by
  obtain ⟨new, takes, -⟩ := batches
  exact takes.reserves reserved

theorem entered {index : Nat} (batches : Batches o known (p.standing index) body rs p') :
    Batches o known p body rs p' := by
  obtain ⟨new, takes, batched⟩ := batches
  rw [(Takes.standing index).isSome] at batched
  exact ⟨new, (Takes.standing index).none_then takes, batched⟩

end Batches

theorem Takes.opened {q : Progress} {new : List (Hoisted Unit)}
    (takes : Takes { p with batch := some ⟨0, []⟩ } q new) :
    q.batch.elim [] Batch.hoisted = new := by
  have batch : q.batch.map Batch.hoisted = some ([] ++ new) := takes.batch
  obtain ⟨b, open_, hoisted⟩ := Option.map_eq_some_iff.1 batch
  rw [open_]
  exact hoisted

theorem quiet : SteadyLinks fun p p' => Takes p p' [] where
  refl := .refl
  trans := .then_none
  fresh _ _ := .of_grows (List.subset_cons_self _ _) rfl
  stats _ _ := .of_grows (List.Subset.refl _) rfl
  link _ _ _ _ := .of_grows (List.Subset.refl _) rfl

theorem emitVariants_none {d : Definition StmtTerm} (unmarked : d.markers = .none) :
    PlanM.emitVariants o d = pure [] := by
  unfold PlanM.emitVariants PlanM.requestedAdjoints PlanM.requestedControlled
  rw [unmarked]
  rfl

theorem emitVariants_derived (d : Definition StmtTerm) (reserved : known ⊆ p.names.taken) :
    Yields (PlanM.emitVariants o d) p fun variants _ =>
      (∀ s ∈ variants, s.derived known) ∧ (d.markers = .none → variants = []) := by
  have none : d.markers = .none →
      Yields (PlanM.emitVariants o d) p fun variants _ => variants = [] := by
    intro unmarked
    rw [emitVariants_none unmarked]
    exact .pure rfl
  intro variants p' ended
  refine ⟨?_, fun unmarked => none unmarked variants p' ended⟩
  obtain ⟨names, links, -, emits⟩ := emitVariants_emits d variants p' ended
  intro s member
  refine (emits.derived s member).imp_right ?_
  rintro ⟨d', rfl, named, -⟩
  exact ⟨d', rfl, fun used => (emits.named _ named).fresh (reserved used)⟩

theorem searched_here {s : StmtTerm} (inside : ∀ part ∈ [s], part.names ⊆ known) {e r : ExprTerm}
    (member : e ∈ s.exprs) (reserved : known ⊆ p.names.taken)
    (search : PlanM.hoist o e p = .ok (r, p')) :
    ∃ new, Takes p p' new ∧ p.names.Issues (new.map Hoisted.placeholder) p'.names ∧
      Searched o known p.batch.isSome e r new :=
  hoist_searched e (List.Subset.trans (StmtTree.names_exprs member) (inside s (by simp))) reserved _ _
    search

theorem names_inside {s : StmtTerm} (inside : ∀ part ∈ [s], part.names ⊆ known) :
    ∀ part ∈ s.inner, part.names ⊆ known :=
  fun _ member => List.Subset.trans (StmtTree.names_inner member) (inside s (by simp))

theorem Lowers.batches {body rs : List StmtTerm} (lowers : Lowers o p body rs p')
    (inside : ∀ s ∈ body, s.names ⊆ known) (reserved : known ⊆ p.names.taken) :
    Batches o known p body rs p' := by
  induction lowers with
  | nil p => exact .nil p
  | append _ _ ih ih' =>
    have first := ih (fun s member => inside s (List.mem_append_left _ member)) reserved
    have reserved' := first.reserves reserved
    exact first.append (ih' (fun s member => inside s (List.mem_append_right _ member)) reserved')
  | standing _ _ ih => exact (ih inside reserved).entered
  | importAs p module name => exact ⟨[], .refl p, .importAs _ module name⟩
  | wire p f operation variant => exact ⟨[], .refl p, .wire _ f operation variant⟩
  | pass p => exact ⟨[], .refl p, .pass _⟩
  | expr search =>
    obtain ⟨new, takes, -, found⟩ := searched_here inside (by simp [StmtTree.exprs]) reserved search
    exact ⟨new, takes, .expr found⟩
  | assign target search =>
    obtain ⟨new, takes, -, found⟩ := searched_here inside (by simp [StmtTree.exprs]) reserved search
    exact ⟨new, takes, .assign target found⟩
  | @define p q p' d rs variants _ emits ih =>
    obtain ⟨new, takes, batched⟩ := ih (names_inside inside) reserved
    obtain rfl := takes.closed rfl
    have left : Takes p { q with batch := p.batch, insideMethod := p.insideMethod } [] :=
      .of_grows takes.taken rfl
    have takes' := quiet.emitVariants o _ _ _ _ emits
    obtain ⟨added, unmarked⟩ := emitVariants_derived _ (left.reserves reserved) _ _ emits
    exact ⟨[], left.trans takes', .define _ batched added unmarked⟩
  | classDef name _ ih =>
    obtain ⟨new, takes, batched⟩ := ih (names_inside inside) reserved
    exact ⟨new, ⟨takes.batch, takes.closed, takes.taken, takes.once, takes.fresh, takes.reserved⟩,
      .classDef name batched⟩
  | allocation binding allocates search _ emits ih =>
    obtain ⟨new, takes, -, found⟩ := searched_here inside (by simp [StmtTree.exprs]) reserved search
    have reserved₁ := takes.reserves reserved
    obtain ⟨inBody, takes₂, batched⟩ := ih (names_inside inside) reserved₁
    have left := takes₂.suspended
    obtain ⟨takes₃, placed⟩ := emitBatch_withBatch _ _ (left.reserves reserved₁) _ _ emits
    rw [takes₂.opened] at placed
    refine ⟨new, takes.then_none (left.trans takes₃), ?_⟩
    exact .allocation binding allocates found batched takes₂.once
      (fun h member used => takes₂.fresh h member (reserved₁ used)) placed
  | «scope» binding plain search _ ih =>
    obtain ⟨new, takes, -, found⟩ := searched_here inside (by simp [StmtTree.exprs]) reserved search
    obtain ⟨later, takes', batched⟩ := ih (names_inside inside) (takes.reserves reserved)
    rw [takes.isSome] at batched
    exact ⟨new ++ later, takes.trans takes', .scope binding plain found batched⟩
  | classical plain search _ _ ih ih' =>
    obtain ⟨new, takes, -, found⟩ := searched_here inside (by simp [StmtTree.exprs]) reserved search
    have reserved₁ := takes.reserves reserved
    obtain ⟨new₂, takes₂, first⟩ :=
      ih (fun s member => names_inside inside s (List.mem_append_left _ member)) reserved₁
    obtain ⟨new₃, takes₃, second⟩ :=
      ih' (fun s member => names_inside inside s (List.mem_append_right _ member)) (takes₂.reserves reserved₁)
    rw [takes₂.isSome] at second
    rw [takes.isSome] at first second
    exact ⟨new ++ (new₂ ++ new₃), takes.trans (takes₂.trans takes₃),
      .classical plain found first second⟩
  | quantum marked _ _ emits ih ih' =>
    obtain ⟨new, takes, first⟩ :=
      ih (fun s member => names_inside inside s (List.mem_append_left _ member)) reserved
    obtain ⟨later, takes₂, second⟩ :=
      ih' (fun s member => names_inside inside s (List.mem_append_right _ member)) (takes.reserves reserved)
    have takes₃ := quiet.lowerConditional o _ _ _ _ _ _ emits
    obtain ⟨rfl, lines, value, control, stmts, operands, controlled, rfl⟩ :=
      lowerConditional_controls _ _ _ _ _ emits
    rw [takes.isSome] at second
    exact ⟨new ++ later, (takes.trans takes₂).then_none takes₃,
      .quantum control marked operands first second controlled⟩

end QuantumLowering
