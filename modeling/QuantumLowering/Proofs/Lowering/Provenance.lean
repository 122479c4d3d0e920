import QuantumLowering.Proofs.Lowering.Declarations
import QuantumLowering.Proofs.Lowering.Restoration
import QuantumLowering.Proofs.Syntax.Identifiers

namespace QuantumLowering

variable {o : Options} {β γ : Type}

namespace ExprTree

theorem names_part {α : Type} {label : α} {layer : Expr (ExprTree α)} {part : ExprTree α}
    (member : part ∈ layer.children) : part.names ⊆ (node label layer).names := by
  intro x inside
  rw [names_node]
  exact List.mem_append_right _ (List.mem_flatMap.2 ⟨part, member, inside⟩)

theorem names_base {α : Type} (e : ExprTree α) : e.base.names = e.names := by
  induction e using induct with
  | step label layer ih =>
    cases layer with
    | functor f target =>
      rw [base, ih target (by simp [Expr.children])]
      simp [Expr.name?, Expr.children]
    | _ => rfl

theorem names_wrap (chain : List GateFunctor) (e : ExprTerm) : (wrap chain e).names = e.names := by
  induction chain with
  | nil => rfl
  | cons f chain ih =>
    rw [wrap, List.foldr_cons, ← wrap]
    simp [Expr.name?, Expr.children, ih]

theorem names_leaves {α : Type} {e leaf : ExprTree α} (member : leaf ∈ e.leaves) :
    leaf.names ⊆ e.names := by
  induction e using induct with
  | step label layer ih =>
    have parts : ∀ items : List (ExprTree α), items = layer.children →
        leaf ∈ items.flatMap leaves → leaf.names ⊆ (node label layer).names := by
      rintro items rfl inside
      obtain ⟨item, listed, inside⟩ := List.mem_flatMap.1 inside
      exact List.Subset.trans (ih item listed inside) (names_part listed)
    cases layer with
    | list items => exact parts items rfl (by simpa using member)
    | aggregate items => exact parts items rfl (by simpa using member)
    | _ =>
      rw [leaves_of_ne (by simp [ExprTree.layer]) (by simp [ExprTree.layer])] at member
      rw [List.mem_singleton.1 member]
      exact List.Subset.refl _

end ExprTree

/-- Finishing a call brings in no names but the given ones. -/
def CallRule.Introduces (rule : CallRule) (extra : List String) : Prop :=
  ∀ layer filled, (ExprTree.node () (rule.finish layer filled)).names ⊆
    extra ++ (ExprTree.node () filled).names

section Rewrite

variable {rule : CallRule} {extra : List String} {reversed : ExprTerm → Bool}

theorem CallRule.names_rewrite (introduces : rule.Introduces extra) {e e' : ExprTerm}
    (ended : rule.rewrite e = .ok e') : e'.names ⊆ extra ++ e.names := by
  induction e using ExprTree.induct generalizing e' with
  | step label layer ih =>
    rw [CallRule.rewrite_node] at ended
    obtain ⟨_, checked, ended⟩ := Plan.bind_eq_ok.1 ended
    obtain ⟨parts, ran, ended⟩ := Plan.bind_eq_ok.1 ended
    cases ended
    have pairs := Plan.mapM_eq_ok ran
    have length : parts.length = layer.children.length := pairs.length_eq.symm
    intro x member
    rcases List.mem_append.1 (introduces layer _ member) with new | old
    · exact List.mem_append_left _ new
    · rw [ExprTree.names_node, Expr.name?_refill, Expr.children_refill length, List.mem_append] at old
      rw [ExprTree.names_node]
      rcases old with here | below
      · exact List.mem_append_right _ (List.mem_append_left _ here)
      · obtain ⟨part', listed, inside⟩ := List.mem_flatMap.1 below
        obtain ⟨part, from_, rewritten⟩ := Plan.exists_of_mem ran listed
        rcases List.mem_append.1 (ih part from_ rewritten inside) with new | old
        · exact List.mem_append_left _ new
        · refine List.mem_append_right _ (List.mem_append_right _ ?_)
          exact List.mem_flatMap.2 ⟨part, from_, old⟩

theorem flatMap_subset_of_forall₂ {β γ : Type} {f : β → List String} {g : γ → List String}
    {xs : List β} {ys : List γ} (pairs : List.Forall₂ (fun x y => g y ⊆ extra ++ f x) xs ys) :
    ys.flatMap g ⊆ extra ++ xs.flatMap f := by
  induction pairs with
  | nil => simp
  | @cons x y xs ys here _ ih =>
    intro z member
    rw [List.flatMap_cons, List.mem_append] at member
    have first := @here z
    have rest := @ih z
    simp only [List.mem_append, List.flatMap_cons] at first rest ⊢
    grind

theorem CallRule.identifiers_rewriteStmt (introduces : rule.Introduces extra) {s r : StmtTerm}
    (ended : rule.rewriteStmt reversed s = .ok r) : r.identifiers ⊆ extra ++ s.identifiers := by
  refine CallRule.rewriteStmt_induct ?kept ?expr ?assign ?scope ?conditional ended
  case kept => exact fun s _ => List.subset_append_right _ _
  case expr =>
    intro value value' ran
    simpa using CallRule.names_rewrite introduces ran
  case assign =>
    intro target value value' ran x member
    have inside : x ∈ value'.names → x ∈ extra ++ value.names :=
      fun listed => CallRule.names_rewrite introduces ran listed
    simp only [StmtTree.identifiers_assign, List.mem_append] at member inside ⊢
    grind
  case scope =>
    intro context binding body rs pairs x member
    have order : (if reversed context then rs.reverse else rs).flatMap StmtTree.identifiers ⊆
        rs.flatMap StmtTree.identifiers := by
      split
      · exact ((rs.reverse_perm).flatMap_right _).subset
      · exact List.Subset.refl _
    have inside := fun listed => flatMap_subset_of_forall₂ pairs (order (a := x) listed)
    simp only [StmtTree.identifiers_scoped, List.mem_append] at member inside ⊢
    grind
  case conditional =>
    intro test body orelse rs rs' pairs pairs' x member
    have inside : x ∈ rs.flatMap StmtTree.identifiers → _ :=
      fun listed => flatMap_subset_of_forall₂ pairs listed
    have inside' : x ∈ rs'.flatMap StmtTree.identifiers → _ :=
      fun listed => flatMap_subset_of_forall₂ pairs' listed
    simp only [StmtTree.identifiers_conditional, List.mem_append] at member inside inside' ⊢
    grind

theorem CallRule.identifiers_mapM (introduces : rule.Introduces extra) {body rs : List StmtTerm}
    (ended : body.mapM (rule.rewriteStmt reversed) = .ok rs) :
    rs.flatMap StmtTree.identifiers ⊆ extra ++ body.flatMap StmtTree.identifiers :=
  flatMap_subset_of_forall₂ (forall₂_imp_of_mem (Plan.mapM_eq_ok ended)
    fun _ _ _ ran => CallRule.identifiers_rewriteStmt introduces ran)

end Rewrite

theorem controlRule_introduces (known : OperationTable) (control : String) :
    (controlRule known control).Introduces [control] := by
  intro layer filled
  show (ExprTree.node () (controlFinish known control layer filled)).names ⊆ _
  unfold controlFinish
  split
  · rename_i func args keywords func' args' keywords'
    split
    · simp [Expr.name?, Expr.children]
    · rename_i existing rest existing' rest' _ _
      have merged : ∀ e ∈ mergedControls (.node () (.name control)) existing existing',
          e = .node () (.name control) ∨ e ∈ existing'.leaves := by
        intro e member
        obtain ⟨pair, listed, rfl⟩ := List.mem_map.1 member
        rcases List.mem_cons.1 ((firsts_sublist _ _).subset listed) with rfl | listed
        · exact .inl rfl
        · exact .inr (List.of_mem_zip listed).2
      intro x member
      simp only [ExprTree.names_node, Expr.name?, Expr.children, Option.toList_none, List.nil_append,
        List.cons_append, List.flatMap_cons, List.mem_append, List.mem_cons] at member ⊢
      rcases member with inFunc | inControls | inRest
      · exact .inr (.inl inFunc)
      · obtain ⟨e, listed, inside⟩ := List.mem_flatMap.1 inControls
        rcases merged e listed with rfl | leaf
        · exact .inl (by simpa [Expr.name?, Expr.children] using inside)
        · exact .inr (.inr (.inl (ExprTree.names_leaves leaf inside)))
      · exact .inr (.inr (.inr inRest))
    · exact List.subset_append_right _ _
  · exact List.subset_append_right _ _

theorem adjointRule_introduces (known : OperationTable) : (adjointRule known).Introduces [] := by
  intro layer filled
  show (ExprTree.node () (adjointFinish known layer filled)).names ⊆ _
  unfold adjointFinish
  split
  · split
    · exact List.Subset.refl _
    · simp [Expr.name?, Expr.children, ExprTree.names_wrap, ExprTree.names_base]
  · exact List.Subset.refl _

theorem identifiers_controlStmts {known : OperationTable} {control : String} {body rs : List StmtTerm}
    (ended : controlStmts known control body = .ok rs) :
    rs.flatMap StmtTree.identifiers ⊆ control :: body.flatMap StmtTree.identifiers :=
  CallRule.identifiers_mapM (controlRule_introduces known control) ended

theorem identifiers_adjointStmts {known : OperationTable} {body rs : List StmtTerm}
    (ended : adjointStmts known o body = .ok rs) :
    rs.flatMap StmtTree.identifiers ⊆ body.flatMap StmtTree.identifiers := by
  obtain ⟨rs, ran, ended⟩ := Plan.bind_eq_ok.1 ended
  cases ended
  exact List.Subset.trans (rs.reverse_perm.flatMap_right _).subset
    (CallRule.identifiers_mapM (adjointRule_introduces known) ran)

def Progress.allowed (o : Options) (p : Progress) : List String :=
  o.boilerplateAlias :: p.names.taken

def Hoisted.names (entry : Hoisted Unit) : List String := entry.placeholder :: entry.call.names

def Progress.pending (p : Progress) : List String :=
  (p.batch.elim [] Batch.hoisted).flatMap Hoisted.names

/-- What comes out, and what waits to, only uses names allowed by now. -/
structure Draws (o : Options) (p p' : Progress) (names : List String) : Prop where
  taken : p.names.taken ⊆ p'.names.taken
  pending : p'.pending ⊆ p'.allowed o
  names : names ⊆ p'.allowed o

/-- Where the names it uses are allowed, the plan brings out allowed names only. -/
def Drawing (o : Options) (uses : List String) (plan : PlanM β) (names : β → List String) : Prop :=
  ∀ p, uses ⊆ p.allowed o → p.pending ⊆ p.allowed o →
    Yields plan p fun b p' => Draws o p p' (names b)

theorem Draws.allowed {p p' : Progress} {names : List String} (draws : Draws o p p' names) :
    p.allowed o ⊆ p'.allowed o :=
  List.cons_subset_cons _ draws.taken

namespace Drawing

variable {uses more : List String} {plan : PlanM β} {names : β → List String}

theorem pure {b : β} (inside : names b ⊆ o.boilerplateAlias :: uses) :
    Drawing o uses (Pure.pure b) names := by
  intro p allowed pending
  have known : o.boilerplateAlias :: uses ⊆ p.allowed o :=
    List.cons_subset.2 ⟨List.mem_cons_self, allowed⟩
  exact .pure ⟨List.Subset.refl _, pending, List.Subset.trans inside known⟩

theorem bind {g : β → PlanM γ} {names' : γ → List String} (first : Drawing o uses plan names)
    (rest : ∀ b, Drawing o (names b ++ uses) (g b) names') : Drawing o uses (plan >>= g) names' := by
  intro p allowed pending
  refine (first p allowed pending).bind fun b p₁ draws => ?_
  have now : names b ++ uses ⊆ p₁.allowed o :=
    List.append_subset.2 ⟨draws.names, List.Subset.trans allowed draws.allowed⟩
  refine (rest b p₁ now draws.pending).mono fun c p₂ draws' => ?_
  exact ⟨List.Subset.trans draws.taken draws'.taken, draws'.pending, draws'.names⟩

theorem mono (drawing : Drawing o uses plan names) (inside : uses ⊆ more) :
    Drawing o more plan names :=
  fun p allowed pending => drawing p (List.Subset.trans inside allowed) pending

theorem throw {reason : Refusal} : Drawing o uses (throw reason : PlanM β) names :=
  fun _ _ _ => .throw

theorem lift {plan : Plan β} (inside : ∀ b, plan = .ok b → names b ⊆ uses) :
    Drawing o uses (liftM plan) names :=
  fun _ allowed pending => .lift fun b ended =>
    ⟨List.Subset.refl _, pending, List.Subset.trans (inside b ended) allowed⟩

theorem get : Drawing o uses get fun _ => [] := by
  intro p allowed pending b p' ended
  cases ended
  exact ⟨List.Subset.refl _, pending, by simp⟩

theorem modifyStats (f : Stats → Stats) : Drawing o uses (PlanM.modifyStats f) fun _ => [] := by
  intro p allowed pending b p' ended
  cases ended
  exact ⟨List.Subset.refl _, pending, by simp⟩

theorem freshName (base : String) : Drawing o uses (PlanM.freshName base) fun x => [x] := by
  intro p allowed pending x p' ended
  cases ended
  have taken : p.names.taken ⊆ (p.names.fresh base).2.taken := List.subset_cons_self _ _
  refine ⟨taken, List.Subset.trans pending (List.cons_subset_cons _ taken), ?_⟩
  have handed : (p.names.fresh base).1 ∈ (p.names.fresh base).2.taken := List.mem_cons_self
  simpa [Progress.allowed] using .inr handed

theorem link (f : GateFunctor) (operation variant : String) :
    Drawing o uses (PlanM.link f operation variant) StmtTree.identifiers := by
  intro p allowed pending r p' ended
  cases ended
  exact ⟨List.Subset.refl _, pending, by simp⟩

theorem mapM {xs : List β} {f : β → PlanM γ} {names : γ → List String} {inside : β → List String}
    (each : ∀ x ∈ xs, Drawing o (inside x) (f x) names) :
    Drawing o (xs.flatMap inside) (xs.mapM f) fun ys => ys.flatMap names := by
  induction xs with
  | nil => exact .pure (by simp)
  | cons x xs ih =>
    rw [List.mapM_cons]
    have first := each x (by simp)
    have rest := ih fun x listed => each x (by simp [listed])
    refine .bind (first.mono (by simp)) fun y => .bind (rest.mono (by simp)) fun ys => .pure ?_
    intro z member
    simp only [List.flatMap_cons, List.mem_append, List.mem_cons] at member ⊢
    grind

theorem record (call : ExprTerm) {batch : Batch} (stem : String) {p : Progress}
    (open_ : p.batch = some batch) (inside : call.names ⊆ p.allowed o)
    (pending : p.pending ⊆ p.allowed o) :
    Yields (PlanM.record call batch stem) p fun x p' => Draws o p p' [x] := by
  have named : Drawing o [] (PlanM.freshName (stem ++ Nat.repr (batch.hoisted.length + 1)))
      fun x => [x] := .freshName _
  refine (named p (by simp) pending).bind fun x p₁ draws => ?_
  rw [Yields.modify_bind]
  refine .pure ⟨draws.taken, ?_, draws.names⟩
  have before : batch.hoisted.flatMap Hoisted.names ⊆ p.allowed o := by
    simpa [Progress.pending, open_] using pending
  have new : Hoisted.names ⟨batch.statement, call, x⟩ ⊆ p₁.allowed o :=
    List.cons_subset.2 ⟨draws.names (by simp), List.Subset.trans inside draws.allowed⟩
  simp only [Progress.pending, Option.elim_some, List.flatMap_append, List.flatMap_cons,
    List.flatMap_nil, List.append_nil]
  exact List.append_subset.2 ⟨List.Subset.trans before draws.allowed, new⟩

theorem length_mapM {xs : List β} {f : β → PlanM γ} (p : Progress) :
    Yields (xs.mapM f) p fun ys _ => ys.length = xs.length := by
  induction xs generalizing p with
  | nil => exact .pure rfl
  | cons x xs ih =>
    rw [List.mapM_cons]
    refine .bind .any fun y p₁ _ => (ih p₁).bind fun ys p₂ length => .pure ?_
    rw [List.length_cons, List.length_cons, length]

theorem hoist (o : Options) (e : ExprTerm) :
    Drawing o e.names (PlanM.hoist o e) ExprTree.names := by
  induction e using ExprTree.induct with
  | step label layer ih =>
    rw [PlanM.hoist_node]
    intro p allowed pending
    rw [Yields.get_bind]
    cases open_ : p.batch with
    | none => exact pure (List.subset_cons_self _ _) p allowed pending
    | some batch =>
      dsimp only
      split
      · refine (record _ _ open_ allowed pending).bind fun x p₁ draws => .pure ?_
        rwa [names_nameTerm]
      · rw [ExprTree.names_node, List.append_subset] at allowed
        refine ((mapM ih p allowed.2 pending).and (length_mapM p)).bind ?_
        rintro parts p₁ ⟨draws, length⟩
        refine .pure ⟨draws.taken, draws.pending, ?_⟩
        rw [ExprTree.names_node, Expr.name?_refill, Expr.children_refill length]
        exact List.append_subset.2 ⟨List.Subset.trans allowed.1 draws.allowed, draws.names⟩

theorem emitProxies (o : Options) (ordinal : Nat) (entries : List (Hoisted Unit)) :
    Drawing o (entries.flatMap Hoisted.names) (PlanM.emitProxies o ordinal entries) fun emitted =>
      emitted.flatMap fun pair => pair.2 :: pair.1.identifiers := by
  induction entries generalizing ordinal with
  | nil => exact .pure (by simp)
  | cons entry entries ih =>
    unfold PlanM.emitProxies
    refine .bind (.freshName _) fun proxy => .bind ((ih (ordinal + 1)).mono ?_) fun rest => .pure ?_
    · intro x member
      simp only [List.flatMap_cons, List.mem_append, List.mem_cons]
      grind
    · intro x member
      simp only [List.flatMap_cons, StmtTree.identifiers_assign, names_nameTerm, Hoisted.names,
        List.mem_append, List.mem_cons, List.not_mem_nil, or_false] at member ⊢
      grind

theorem identifiers_execution (o : Options) (proxies placeholders : List String) :
    (PlanM.execution o proxies placeholders).identifiers =
      placeholders ++ o.boilerplateAlias :: proxies := by
  simp [PlanM.execution, Expr.name?, Expr.children, flatMap_names_nameTerm, names_nameTerm]

theorem emitBatch (o : Options) (entries : List (Hoisted Unit)) (body : List StmtTerm) :
    Drawing o (entries.flatMap Hoisted.names ++ body.flatMap StmtTree.identifiers)
      (PlanM.emitBatch o entries body) fun stmts => stmts.flatMap StmtTree.identifiers := by
  unfold PlanM.emitBatch
  cases (entries.map Hoisted.index).min? with
  | none =>
    exact .pure (List.Subset.trans (List.subset_append_right _ _) (List.subset_cons_self _ _))
  | some position =>
    have drawn := (emitProxies o 1 entries).mono
      (List.subset_append_left _ (body.flatMap StmtTree.identifiers))
    refine .bind drawn fun emitted => .bind (.modifyStats _) fun _ => .pure ?_
    have kept : ∀ some : List StmtTerm, some ⊆ body →
        some.flatMap StmtTree.identifiers ⊆ body.flatMap StmtTree.identifiers := by
      intro some inside x member
      obtain ⟨s, listed, used⟩ := List.mem_flatMap.1 member
      exact List.mem_flatMap.2 ⟨s, inside listed, used⟩
    have front := kept (body.take position) (List.take_subset _ _)
    have back := kept (body.drop position) (List.drop_subset _ _)
    have assigns : (emitted.map Prod.fst).flatMap StmtTree.identifiers ⊆
        emitted.flatMap fun pair => pair.2 :: pair.1.identifiers := by
      intro x member
      rw [List.flatMap_map] at member
      obtain ⟨pair, listed, used⟩ := List.mem_flatMap.1 member
      exact List.mem_flatMap.2 ⟨pair, listed, List.mem_cons_of_mem _ used⟩
    have proxies : emitted.map Prod.snd ⊆ emitted.flatMap fun pair => pair.2 :: pair.1.identifiers := by
      intro x member
      obtain ⟨pair, listed, rfl⟩ := List.mem_map.1 member
      exact List.mem_flatMap.2 ⟨pair, listed, List.mem_cons_self⟩
    have placeholders : entries.map Hoisted.placeholder ⊆ entries.flatMap Hoisted.names := by
      intro x member
      obtain ⟨entry, listed, rfl⟩ := List.mem_map.1 member
      exact List.mem_flatMap.2 ⟨entry, listed, List.mem_cons_self⟩
    intro x member
    simp only [List.flatMap_append, List.flatMap_cons, List.flatMap_nil, List.append_nil,
      identifiers_execution, List.mem_append, List.mem_cons] at member ⊢
    rcases member with ((inFront | inBatch) | inNames | boilerplate | inProxies) | inBack
    · exact .inr (.inr (.inr (.inr (front inFront))))
    · exact .inr (.inr (.inl (assigns inBatch)))
    · exact .inr (.inr (.inr (.inl (placeholders inNames))))
    · exact .inl boilerplate
    · exact .inr (.inr (.inl (proxies inProxies)))
    · exact .inr (.inr (.inr (.inr (back inBack))))

theorem comparisonOperands_names {test : ExprTerm} {operands : ExprTerm × ExprTerm}
    (ended : PlanM.comparisonOperands o test = .ok operands) :
    operands.1.names ⊆ test.names ∧ operands.2.names ⊆ test.names := by
  obtain ⟨label, layer⟩ := test
  unfold PlanM.comparisonOperands at ended
  split at ended
  · rename_i func argument called
    have inTest : argument.names ⊆ (ExprTree.node label layer).names :=
      ExprTree.names_part (by rw [show layer = _ from called]; simp [Expr.children])
    obtain ⟨label', layer'⟩ := argument
    split at ended
    · rename_i left right compared
      have inLeft : left.names ⊆ (ExprTree.node label' layer').names :=
        ExprTree.names_part (by rw [show layer' = _ from compared]; simp [Expr.children])
      have inRight : right.names ⊆ (ExprTree.node label' layer').names :=
        ExprTree.names_part (by rw [show layer' = _ from compared]; simp [Expr.children])
      split at ended
      · cases ended
        exact ⟨List.Subset.trans inRight inTest, List.Subset.trans inLeft inTest⟩
      · cases ended
        exact ⟨List.Subset.trans inLeft inTest, List.Subset.trans inRight inTest⟩
    · cases ended
    · cases ended
  · cases ended

theorem names_scopeCall (o : Options) (lines value : ExprTerm) :
    (PlanM.scopeCall o lines value).names = o.boilerplateAlias :: (lines.names ++ value.names) := by
  simp [PlanM.scopeCall, Expr.name?, Expr.children, names_nameTerm]

theorem controlStmts (known : OperationTable) (control : String) (body : List StmtTerm) :
    Drawing o (control :: body.flatMap StmtTree.identifiers)
      (liftM (controlStmts known control body)) fun rs => rs.flatMap StmtTree.identifiers :=
  .lift fun _ ended => identifiers_controlStmts ended

theorem adjointStmts (known : OperationTable) (body : List StmtTerm) :
    Drawing o (body.flatMap StmtTree.identifiers)
      (liftM (adjointStmts known o body)) fun rs => rs.flatMap StmtTree.identifiers :=
  .lift fun _ ended => identifiers_adjointStmts ended

theorem lowerConditional (o : Options) (test : ExprTerm) (body orelse : List StmtTerm) :
    Drawing o (test.names ++ body.flatMap StmtTree.identifiers)
      (PlanM.lowerConditional o test body orelse) StmtTree.identifiers := by
  have operands : Drawing o (test.names ++ body.flatMap StmtTree.identifiers)
      (liftM (PlanM.comparisonOperands o test)) fun r => r.1.names ++ r.2.names := by
    refine .lift fun r ended => List.append_subset.2 ?_
    have inside := comparisonOperands_names ended
    exact ⟨List.subset_append_of_subset_left _ inside.1, List.subset_append_of_subset_left _ inside.2⟩
  unfold PlanM.lowerConditional
  split
  · refine .bind operands fun r => .bind (.freshName _) fun control => .bind .get fun p => ?_
    refine .bind ((controlStmts p.operations control body).mono ?_) fun rs => ?_
    · intro x member
      simp only [List.mem_append, List.mem_cons] at member ⊢
      grind
    · refine .bind (.modifyStats _) fun _ => .pure fun x member => ?_
      simp only [StmtTree.identifiers_scoped, names_scopeCall, Option.toList_some, List.flatMap_cons,
        names_nameTerm, List.mem_append, List.mem_cons, List.flatMap_nil] at member ⊢
      grind
  · exact .throw

theorem deriveControlled (o : Options) (d : Definition StmtTerm) :
    Drawing o (StmtTree.define () d).identifiers (PlanM.deriveControlled o d)
      fun d' => (StmtTree.define () d').identifiers := by
  refine .bind (.freshName _) fun control => .bind .get fun p => ?_
  refine .bind ((controlStmts p.operations control d.body).mono ?_) fun rs => .bind .get fun p' => ?_
  · intro x member
    simp only [StmtTree.identifiers_define, List.mem_append, List.mem_cons] at member ⊢
    grind
  · refine .bind (.freshName _) fun name => .bind (.modifyStats _) fun _ => .pure fun x member => ?_
    have params : x ∈ d.params.insertIdx (LowerM.controlPosition p'.insideMethod d.params) control →
        x = control ∨ x ∈ d.params := List.eq_or_mem_of_mem_insertIdx
    simp only [StmtTree.identifiers_define, List.mem_append, List.mem_cons] at member ⊢
    grind

theorem deriveAdjoint (o : Options) (d : Definition StmtTerm) :
    Drawing o (StmtTree.define () d).identifiers (PlanM.deriveAdjoint o d)
      fun d' => (StmtTree.define () d').identifiers := by
  refine .bind .get fun p => .bind ((adjointStmts p.operations d.body).mono ?_) fun rs => ?_
  · intro x member
    simp only [StmtTree.identifiers_define, List.mem_append]
    grind
  · refine .bind (.freshName _) fun name => .bind (.modifyStats _) fun _ => .pure fun x member => ?_
    simp only [StmtTree.identifiers_define, List.mem_append, List.mem_cons] at member ⊢
    grind

theorem emitAdjoint (o : Options) (d : Definition StmtTerm) :
    Drawing o (StmtTree.define () d).identifiers (PlanM.emitAdjoint o d)
      fun r => r.1.flatMap StmtTree.identifiers := by
  refine .bind (.deriveAdjoint o d) fun derived => .bind (.link _ _ _) fun there => ?_
  refine .bind (.link _ _ _) fun back => .pure fun x member => ?_
  simp only [List.flatMap_cons, List.flatMap_nil, List.append_nil, List.mem_append,
    List.mem_cons] at member ⊢
  grind

theorem emitControlled (o : Options) (d : Definition StmtTerm) (adjoint : Option String) :
    Drawing o (StmtTree.define () d).identifiers (PlanM.emitControlled o d adjoint)
      fun rs => rs.flatMap StmtTree.identifiers := by
  refine .bind (.deriveControlled o d) fun controlled => ?_
  cases adjoint with
  | none =>
    refine .bind (.link _ _ _) fun there => .bind (.link _ _ _) fun self => .pure fun x member => ?_
    simp only [List.flatMap_cons, List.flatMap_nil, List.append_nil, List.mem_append,
      List.mem_cons] at member ⊢
    grind
  | some adjoint =>
    have both := (deriveAdjoint o controlled).mono
      (List.subset_append_left _ (StmtTree.define () d).identifiers)
    refine .bind both fun both => .bind (.link _ _ _) fun there => .bind (.link _ _ _) fun self => ?_
    refine .bind (.link _ _ _) fun down => .bind (.link _ _ _) fun up => .bind (.link _ _ _) fun across => ?_
    refine .bind (.link _ _ _) fun stay => .pure fun x member => ?_
    simp only [List.flatMap_cons, List.flatMap_nil, List.append_nil, List.mem_append,
      List.mem_cons] at member ⊢
    grind

theorem emitVariants (o : Options) (d : Definition StmtTerm) :
    Drawing o (StmtTree.define () d).identifiers (PlanM.emitVariants o d)
      fun rs => rs.flatMap StmtTree.identifiers := by
  have adjoints : Drawing o (StmtTree.define () d).identifiers (PlanM.requestedAdjoints o d)
      fun r => r.1.flatMap StmtTree.identifiers := by
    unfold PlanM.requestedAdjoints
    split
    · exact .bind (.emitAdjoint o d) fun r => .pure (by simp)
    · exact .pure (by simp)
  have controlled : ∀ adjoint, Drawing o (StmtTree.define () d).identifiers
      (PlanM.requestedControlled o d adjoint) fun rs => rs.flatMap StmtTree.identifiers := by
    intro adjoint
    unfold PlanM.requestedControlled
    split
    · exact .emitControlled o d adjoint
    · exact .pure (by simp)
  refine .bind adjoints fun r => .bind ((controlled r.2).mono (by simp)) fun rs => .pure ?_
  intro x member
  simp only [List.flatMap_append, List.mem_append, List.mem_cons] at member ⊢
  grind

end Drawing

theorem Progress.pending_standing (p : Progress) (index : Nat) :
    (p.standing index).pending = p.pending := by
  unfold Progress.pending Progress.standing
  cases p.batch <;> rfl

theorem Lowers.draws {p p' : Progress} {body rs : List StmtTerm} (lowers : Lowers o p body rs p')
    (allowed : body.flatMap StmtTree.identifiers ⊆ p.allowed o) (pending : p.pending ⊆ p.allowed o) :
    Draws o p p' (rs.flatMap StmtTree.identifiers) := by
  induction lowers with
  | nil => exact ⟨List.Subset.refl _, pending, by simp⟩
  | append _ _ ih ih' =>
    rw [List.flatMap_append, List.append_subset] at allowed
    have first := ih allowed.1 pending
    have second := ih' (List.Subset.trans allowed.2 first.allowed) first.pending
    rw [List.flatMap_append]
    exact ⟨List.Subset.trans first.taken second.taken, second.pending,
      List.append_subset.2 ⟨List.Subset.trans first.names second.allowed, second.names⟩⟩
  | @standing p _ _ _ index _ ih =>
    have draws := ih allowed (by rwa [p.pending_standing])
    exact ⟨draws.taken, draws.pending, draws.names⟩
  | importAs | wire | pass => exact ⟨List.Subset.refl _, pending, allowed⟩
  | expr search =>
    have draws := Drawing.hoist o _ _ (by simpa using allowed) pending _ _ search
    exact ⟨draws.taken, draws.pending, by simpa using draws.names⟩
  | assign target search =>
    simp only [List.flatMap_cons, List.flatMap_nil, List.append_nil, StmtTree.identifiers_assign,
      List.append_subset] at allowed ⊢
    have draws := Drawing.hoist o _ _ allowed.2 pending _ _ search
    refine ⟨draws.taken, draws.pending, ?_⟩
    exact List.append_subset.2 ⟨List.Subset.trans allowed.1 draws.allowed, draws.names⟩
  | @define p q p' d rs variants _ emits ih =>
    simp only [List.flatMap_cons, List.flatMap_nil, List.append_nil, StmtTree.identifiers_define,
      List.append_subset] at allowed ⊢
    have inner := ih allowed.2 (by simp [Progress.pending])
    have signature := List.Subset.trans allowed.1 inner.allowed
    have left : Progress.pending { q with batch := p.batch, insideMethod := p.insideMethod } ⊆
        q.allowed o := List.Subset.trans pending inner.allowed
    have uses : (StmtTree.define () { d with body := rs }).identifiers ⊆ q.allowed o := by
      rw [StmtTree.identifiers_define]
      exact List.append_subset.2 ⟨signature, inner.names⟩
    have draws := Drawing.emitVariants o _
      { q with batch := p.batch, insideMethod := p.insideMethod } uses left _ _ emits
    refine ⟨List.Subset.trans inner.taken draws.taken, draws.pending, ?_⟩
    simp only [List.append_subset]
    exact ⟨⟨List.Subset.trans signature draws.allowed, List.Subset.trans inner.names draws.allowed⟩,
      draws.names⟩
  | classDef name _ ih =>
    simp only [List.flatMap_cons, List.flatMap_nil, List.append_nil, StmtTree.identifiers_classDef,
      List.cons_subset] at allowed ⊢
    have inner := ih allowed.2 pending
    exact ⟨inner.taken, inner.pending, List.cons_subset.2 ⟨inner.allowed allowed.1, inner.names⟩⟩
  | @allocation p p₁ p₂ p' context r binding body rs stmts _ search _ emits ih =>
    simp only [List.flatMap_cons, List.flatMap_nil, List.append_nil, StmtTree.identifiers_scoped,
      List.append_subset] at allowed ⊢
    obtain ⟨⟨inContext, inBinding⟩, inBody⟩ := allowed
    have first := Drawing.hoist o _ _ inContext pending _ _ search
    have inner := ih (List.Subset.trans inBody first.allowed) (by simp [Progress.pending])
    have left : Progress.pending { p₂ with batch := p₁.batch } ⊆ p₂.allowed o :=
      List.Subset.trans first.pending inner.allowed
    have draws := Drawing.emitBatch o _ _ { p₂ with batch := p₁.batch }
      (List.append_subset.2 ⟨inner.pending, inner.names⟩) left _ _ emits
    have before := List.Subset.trans inner.allowed draws.allowed
    refine ⟨List.Subset.trans first.taken (List.Subset.trans inner.taken draws.taken), draws.pending, ?_⟩
    simp only [List.append_subset]
    exact ⟨⟨List.Subset.trans first.names before,
      List.Subset.trans inBinding (List.Subset.trans first.allowed before)⟩, draws.names⟩
  | «scope» binding _ search _ ih =>
    simp only [List.flatMap_cons, List.flatMap_nil, List.append_nil, StmtTree.identifiers_scoped,
      List.append_subset] at allowed ⊢
    obtain ⟨⟨inContext, inBinding⟩, inBody⟩ := allowed
    have first := Drawing.hoist o _ _ inContext pending _ _ search
    have inner := ih (List.Subset.trans inBody first.allowed) first.pending
    refine ⟨List.Subset.trans first.taken inner.taken, inner.pending, ?_⟩
    simp only [List.append_subset]
    exact ⟨⟨List.Subset.trans first.names inner.allowed,
      List.Subset.trans inBinding (List.Subset.trans first.allowed inner.allowed)⟩, inner.names⟩
  | classical _ search _ _ ih ih' =>
    simp only [List.flatMap_cons, List.flatMap_nil, List.append_nil, StmtTree.identifiers_conditional,
      List.append_subset] at allowed ⊢
    obtain ⟨⟨inTest, inBody⟩, inElse⟩ := allowed
    have first := Drawing.hoist o _ _ inTest pending _ _ search
    have second := ih (List.Subset.trans inBody first.allowed) first.pending
    have both := List.Subset.trans first.allowed second.allowed
    have third := ih' (List.Subset.trans inElse both) second.pending
    refine ⟨List.Subset.trans first.taken (List.Subset.trans second.taken third.taken), third.pending, ?_⟩
    simp only [List.append_subset]
    exact ⟨⟨List.Subset.trans first.names (List.Subset.trans second.allowed third.allowed),
      List.Subset.trans second.names third.allowed⟩, third.names⟩
  | quantum _ _ _ emits ih ih' =>
    simp only [List.flatMap_cons, List.flatMap_nil, List.append_nil, StmtTree.identifiers_conditional,
      List.append_subset] at allowed ⊢
    obtain ⟨⟨inTest, inBody⟩, inElse⟩ := allowed
    have first := ih inBody pending
    have second := ih' (List.Subset.trans inElse first.allowed) first.pending
    have uses := List.append_subset.2 ⟨List.Subset.trans inTest
      (List.Subset.trans first.allowed second.allowed), List.Subset.trans first.names second.allowed⟩
    have draws := Drawing.lowerConditional o _ _ _ _ uses second.pending _ _ emits
    exact ⟨List.Subset.trans first.taken (List.Subset.trans second.taken draws.taken), draws.pending,
      draws.names⟩

end QuantumLowering
