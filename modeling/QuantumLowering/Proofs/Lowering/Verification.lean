import QuantumLowering.Proofs.Lowering.Settling
import QuantumLowering.Proofs.Syntax.Duplication

namespace QuantumLowering

variable {t : SyntaxTree} {known : OperationTable}

namespace SyntaxTree

variable {id missing : NodeId} {depth levels passed : Nat}

theorem Dangles.subtreeWithin_eq (ends : t.Dangles levels id passed missing)
    (room : ∀ u, Spans t u → u.height + levels ≤ depth) (deep : levels < depth) :
    t.subtreeWithin depth id = .error (.notFound missing) := by
  induction ends generalizing depth with
  | here outside =>
    obtain ⟨depth, rfl⟩ : ∃ d, depth = d + 1 := ⟨depth - 1, by omega⟩
    rw [subtreeWithin, children_eq, if_neg (Nat.not_lt.2 outside)]
    rfl
  | @step levels id part missing passed node before after pick found split whole _ ih =>
    obtain ⟨depth, rfl⟩ : ∃ d, depth = d + 1 := ⟨depth - 1, by omega⟩
    have kids : t.children id = .ok (before ++ part :: after) := by
      have inside : id < t.size := (Array.getElem?_eq_some_iff.1 found).1
      rw [children_eq, if_pos inside, refs_eq found, split]
    have each : ∀ other ∈ before, ∃ ids, t.subtreeWithin depth other = .ok ids := by
      intro other inside
      obtain ⟨u, spans, rfl, -⟩ := (whole other inside).exists_spans
      have := room u spans
      exact ⟨u.ids, spans.subtreeWithin_eq (by omega)⟩
    obtain ⟨below, listed⟩ := exists_choice each
    have fails := ih (fun u spans => by have := room u spans; omega) (by omega : levels < depth)
    rw [subtreeWithin, kids]
    simp only [Bind.bind, Except.bind, List.mapM_append, List.mapM_cons,
      mapM_ok_of_forall listed, fails]

theorem Bounded.subtree_cases (bounded : t.Bounded id) :
    (∃ ids, t.subtree id = .ok ids) ∨ ∃ missing, t.subtree id = .error (.notFound missing) := by
  rcases bounded.unfolds_or_dangles with ⟨x, unfolds⟩ | ⟨levels, passed, missing, ends⟩
  · obtain ⟨u, spans, rfl, -⟩ := unfolds.exists_spans
    exact .inl ⟨u.ids, spans.subtree_eq⟩
  · rw [t.subtree_eq_subtreeWithin]
    refine .inr ⟨missing, ends.subtreeWithin_eq (fun u spans => ?_) ?_⟩
    · exact Nat.le_succ_of_le (ends.height_add_depth_le fun level low =>
        spans.exists_of_height (level + 1) (Nat.succ_pos _) low)
    · have deep : 0 + levels ≤ t.size :=
        ends.height_add_depth_le fun level low => absurd low (by simp)
      unfold depthBound
      omega

end SyntaxTree

section Runs

variable {α β : Type}

theorem LowerM.bind_ok_iff {act : LowerM α} {f : α → LowerM β} {b : β}
    {s s'' : LoweringState} :
    (act >>= f) s = .ok b s'' ↔ ∃ a s', act s = .ok a s' ∧ f a s' = .ok b s'' :=
  ⟨LowerM.exists_of_bind_ok, fun ⟨_, _, ran, ended⟩ => (LowerM.run_bind ran).trans ended⟩

theorem LowerM.cases_of_bind_error {act : LowerM α} {f : α → LowerM β} {e : LoweringError}
    {s s'' : LoweringState} (failed : (act >>= f) s = .error e s'') :
    act s = .error e s'' ∨ ∃ a s', act s = .ok a s' ∧ f a s' = .error e s'' := by
  simp only [Bind.bind, EStateM.bind] at failed
  cases ran : act s with
  | ok a s' =>
    rw [ran] at failed
    exact .inr ⟨a, s', rfl, failed⟩
  | error e' s' =>
    simp only [ran, EStateM.Result.error.injEq] at failed
    rw [failed.1, failed.2]
    exact .inl rfl

theorem LowerM.exists_of_foldlM_error {f : β → α → LowerM β} {xs : List α} {b : β}
    {e : LoweringError} {s s' : LoweringState} (failed : xs.foldlM f b s = .error e s') :
    ∃ x ∈ xs, ∃ b' s₁, f b' x s₁ = .error e s' := by
  induction xs generalizing b s with
  | nil => cases failed
  | cons x xs ih =>
    rw [List.foldlM_cons] at failed
    rcases LowerM.cases_of_bind_error failed with here | ⟨b', s₁, -, later⟩
    · exact ⟨x, List.mem_cons_self, b, s, here⟩
    · obtain ⟨x', inside, rest⟩ := ih later
      exact ⟨x', List.mem_cons_of_mem _ inside, rest⟩

end Runs

namespace Pass

variable {id : NodeId} {ids roots seen seen' : List NodeId} {s s' : LoweringState}

/-- There is a node with the id, and if it is a definition, then the table has its variants. -/
def Accepts (t : SyntaxTree) (known : OperationTable) (id : NodeId) : Prop :=
  ∃ node, t.nodes[id]? = some node ∧
    ∀ d, node = .stmt (.define d) → known.Settled d.name d.markers

theorem missingVariant?_eq_none_iff {d : Definition NodeId} :
    missingVariant? known d = none ↔ known.Settled d.name d.markers := by
  refine ⟨fun none f asked => ?_, missingVariant?_eq_none⟩
  have listed : f ∈ [GateFunctor.adjoint, .controlled] := by cases f <;> simp
  have present := List.find?_eq_none.1 none f listed
  simpa [asked, OperationTable.Resolves] using present

/-- What the check can find wrong: a broken invariant, or a reference out of the arena. -/
def Finding (e : LoweringError) : Prop :=
  (∃ what, e = .invariant what) ∨ ∃ missing, e = .tree (.notFound missing)

theorem verifyNode_of_accepts (new : id ∉ seen) (accepts : Accepts t known id) :
    verifyNode t known seen id s = .ok (id :: seen) s := by
  obtain ⟨node, found, settled⟩ := accepts
  have complete : SettledCells known [(id, node)] := by
    intro id' d member
    exact settled d (Prod.mk.inj (List.mem_singleton.1 member)).2.symm
  exact @run_verifyNode t known (id, node) seen found complete new s

theorem verifyNode_reachedTwice (again : id ∈ seen) :
    verifyNode t known seen id s = .error (.invariant (.reachedTwice id)) s := by
  unfold verifyNode
  rw [if_pos again]
  rfl

theorem verifyNode_notFound (new : id ∉ seen) (outside : t.nodes[id]? = none) :
    verifyNode t known seen id s = .error (.tree (.notFound id)) s := by
  unfold verifyNode SyntaxTree.node
  rw [if_neg new, outside]
  rfl

theorem verifyNode_neverDerived {d : Definition NodeId} {f : GateFunctor} (new : id ∉ seen)
    (found : t.nodes[id]? = some (.stmt (.define d))) (missing : missingVariant? known d = some f) :
    verifyNode t known seen id s = .error (.invariant (.neverDerived f d.name)) s := by
  have looked : t.node id = .ok (.stmt (.define d)) := by simp [SyntaxTree.node, found]
  unfold verifyNode
  rw [if_neg new, looked]
  simp only [Bind.bind, EStateM.bind, liftM, monadLift, MonadLift.monadLift, Pure.pure,
    EStateM.pure, missing]
  rfl

theorem verifyNode_cases (t : SyntaxTree) (known : OperationTable) (seen : List NodeId)
    (id : NodeId) (s : LoweringState) :
    (verifyNode t known seen id s = .ok (id :: seen) s ∧ id ∉ seen ∧ Accepts t known id) ∨
      ∃ e, verifyNode t known seen id s = .error e s ∧ Finding e ∧
        (id ∉ seen → ¬ Accepts t known id) := by
  by_cases again : id ∈ seen
  · exact .inr ⟨_, verifyNode_reachedTwice again, .inl ⟨_, rfl⟩, fun new => absurd again new⟩
  by_cases accepts : Accepts t known id
  · exact .inl ⟨verifyNode_of_accepts again accepts, again, accepts⟩
  -- either there is no node, or it is a definition without a variant
  cases found : t.nodes[id]? with
  | none => exact .inr ⟨_, verifyNode_notFound again found, .inr ⟨_, rfl⟩, fun _ => accepts⟩
  | some node =>
    obtain ⟨d, rfl, unsettled⟩ :
        ∃ d, node = .stmt (.define d) ∧ ¬ known.Settled d.name d.markers := by
      by_contra none
      exact accepts ⟨node, found, fun d same => not_not.1 fun lacks => none ⟨d, same, lacks⟩⟩
    obtain ⟨f, missing⟩ :=
      Option.ne_none_iff_exists'.1 (mt missingVariant?_eq_none_iff.1 unsettled)
    exact .inr ⟨_, verifyNode_neverDerived again found missing, .inl ⟨_, rfl⟩, fun _ => accepts⟩

theorem verifyNode_ok_iff : verifyNode t known seen id s = .ok seen' s' ↔
    s' = s ∧ seen' = id :: seen ∧ id ∉ seen ∧ Accepts t known id := by
  rcases verifyNode_cases t known seen id s with ⟨ran, new, accepts⟩ | ⟨e, failed, -, refused⟩
  · rw [ran, EStateM.Result.ok.injEq]
    exact ⟨fun ⟨h, h'⟩ => ⟨h'.symm, h.symm, new, accepts⟩, fun ⟨h', h, _⟩ => ⟨h.symm, h'.symm⟩⟩
  · rw [failed]
    exact ⟨nofun, fun ⟨_, _, new, accepts⟩ => absurd accepts (refused new)⟩

theorem verifyNodes_ok_iff : ids.foldlM (verifyNode t known) seen s = .ok seen' s' ↔
    s' = s ∧ seen' = ids.reverse ++ seen ∧ ids.Nodup ∧ (∀ id ∈ ids, id ∉ seen) ∧
      ∀ id ∈ ids, Accepts t known id := by
  induction ids generalizing seen s with
  | nil =>
    rw [List.foldlM_nil]
    refine ⟨fun ended => ?_, fun ⟨same, listed, _⟩ => ?_⟩
    · cases ended
      simp
    · rw [same, listed]
      rfl
  | cons id ids ih =>
    rw [List.foldlM_cons, LowerM.bind_ok_iff]
    constructor
    · rintro ⟨_, _, first, rest⟩
      obtain ⟨rfl, rfl, new, accepts⟩ := verifyNode_ok_iff.1 first
      obtain ⟨rfl, rfl, once, apart, others⟩ := ih.1 rest
      refine ⟨rfl, by simp, List.nodup_cons.2 ⟨fun again => ?_, once⟩, ?_, ?_⟩
      · exact apart id again List.mem_cons_self
      · exact List.forall_mem_cons.2 ⟨new, fun other inside seen =>
          apart other inside (List.mem_cons_of_mem _ seen)⟩
      · exact List.forall_mem_cons.2 ⟨accepts, others⟩
    · rintro ⟨rfl, rfl, once, apart, accepts⟩
      obtain ⟨new, once⟩ := List.nodup_cons.1 once
      obtain ⟨fresh, apart⟩ := List.forall_mem_cons.1 apart
      obtain ⟨first, others⟩ := List.forall_mem_cons.1 accepts
      refine ⟨_, _, verifyNode_ok_iff.2 ⟨rfl, rfl, fresh, first⟩,
        ih.2 ⟨rfl, by simp, once, fun other inside seen => ?_, others⟩⟩
      rcases List.mem_cons.1 seen with rfl | seen
      · exact new inside
      · exact apart other inside seen

theorem verifyRoots_ok_iff : roots.foldlM (verifyRoot t known) seen s = .ok seen' s' ↔
    ∃ us : List Unfolding, us.map Unfolding.root = roots ∧ (∀ u ∈ us, Spans t u) ∧
      (us.flatMap Unfolding.ids).foldlM (verifyNode t known) seen s = .ok seen' s' := by
  induction roots generalizing seen s with
  | nil =>
    refine ⟨fun ended => ⟨[], rfl, by simp, ended⟩, ?_⟩
    rintro ⟨us, roots, -, ended⟩
    obtain rfl := List.map_eq_nil_iff.1 roots
    exact ended
  | cons root roots ih =>
    rw [List.foldlM_cons, LowerM.bind_ok_iff]
    constructor
    · rintro ⟨between, s₁, first, rest⟩
      obtain ⟨ids, s₂, walked, first⟩ := LowerM.bind_ok_iff.1 first
      cases listed : t.subtree root with
      | error e =>
        rw [listed] at walked
        cases walked
      | ok ids' =>
        rw [listed] at walked
        cases walked
        obtain ⟨u, spans, rfl, rfl⟩ := Spans.exists_of_subtree listed
        obtain ⟨us, rfl, others, later⟩ := ih.1 rest
        refine ⟨u :: us, rfl, List.forall_mem_cons.2 ⟨spans, others⟩, ?_⟩
        rw [List.flatMap_cons, List.foldlM_append, LowerM.run_bind first]
        exact later
    · rintro ⟨us, listed, spans, ended⟩
      obtain ⟨u, us, rfl, rfl, rfl⟩ := List.map_eq_cons_iff.1 listed
      obtain ⟨here, others⟩ := List.forall_mem_cons.1 spans
      rw [List.flatMap_cons, List.foldlM_append] at ended
      obtain ⟨between, s₁, first, rest⟩ := LowerM.bind_ok_iff.1 ended
      refine ⟨between, s₁, ?_, ih.2 ⟨us, rfl, others, rest⟩⟩
      unfold verifyRoot
      rw [here.subtree_eq]
      exact first

end Pass

theorem SyntaxTree.validate_iff_unfoldings : t.validate = .ok () ↔
    ∃ us : List Unfolding, us.map Unfolding.root = t.body ∧ (∀ u ∈ us, Spans t u) ∧
      (us.flatMap Unfolding.ids).Nodup := by
  constructor
  · intro valid
    obtain ⟨us, roots, spans, once, -⟩ := exists_unfoldings_of_validateFrom valid
    exact ⟨us, roots, spans, once⟩
  · rintro ⟨us, roots, spans, once⟩
    rw [validate, ← roots]
    exact validateFrom_of_unfoldings us [] spans once (by simp)

theorem verifyBody_ok_iff {s s' : LoweringState} :
    (∃ seen, t.body.foldlM (Pass.verifyRoot t known) [] s = .ok seen s') ↔
      s' = s ∧ t.validate = .ok () ∧ ∀ id, t.Reachable id → Pass.Accepts t known id := by
  rw [SyntaxTree.validate_iff_unfoldings]
  constructor
  · rintro ⟨seen, ended⟩
    obtain ⟨us, roots, spans, ended⟩ := Pass.verifyRoots_ok_iff.1 ended
    obtain ⟨same, -, once, -, accepts⟩ := Pass.verifyNodes_ok_iff.1 ended
    exact ⟨same, ⟨us, roots, spans, once⟩, fun id reach =>
      accepts id ((mem_ids_iff roots spans id).2 reach)⟩
  · rintro ⟨rfl, ⟨us, roots, spans, once⟩, accepts⟩
    refine ⟨_, Pass.verifyRoots_ok_iff.2 ⟨us, roots, spans, Pass.verifyNodes_ok_iff.2
      ⟨rfl, rfl, once, by simp, fun id member => ?_⟩⟩⟩
    exact accepts id ((mem_ids_iff roots spans id).1 member)

theorem ContextM.checkBalanced_eq (c : Context) : checkBalanced c =
    if c.frames = [] ∧ c.tables = [] then .ok () c
    else .error (.invariant (.leftOpen c.frames.length c.tables.length)) c := by
  obtain ⟨options, operations, stats, names, frames, tables, insideMethod⟩ := c
  cases frames <;> cases tables <;> rfl

namespace Pass

variable {c : Context}

theorem verifyOutcome_run (closed : c.frames = [] ∧ c.tables = []) :
    verifyOutcome.run ⟨t, c⟩ =
      (t.body.foldlM (verifyRoot t c.operations) [] >>= fun _ => pure ()) ⟨t, c⟩ := by
  have balanced : ContextM.checkBalanced c = .ok () c := by
    rw [ContextM.checkBalanced_eq, if_pos closed]
  exact (LowerM.run_bind (Runs.lift_contextM balanced)).trans rfl

theorem verifyOutcome_leftOpen (opened : ¬ (c.frames = [] ∧ c.tables = [])) :
    verifyOutcome.run ⟨t, c⟩ =
      .error (.invariant (.leftOpen c.frames.length c.tables.length)) ⟨t, c⟩ := by
  have unbalanced := ContextM.checkBalanced_eq c
  rw [if_neg opened] at unbalanced
  unfold verifyOutcome
  simp only [Bind.bind, EStateM.bind, liftM, monadLift, MonadLift.monadLift, unbalanced]

theorem verifyOutcome_ok_iff {s : LoweringState} : verifyOutcome.run ⟨t, c⟩ = .ok () s ↔
    s = ⟨t, c⟩ ∧ (c.frames = [] ∧ c.tables = []) ∧ t.validate = .ok () ∧
      ∀ id, t.Reachable id → Accepts t c.operations id := by
  by_cases closed : c.frames = [] ∧ c.tables = []
  · rw [verifyOutcome_run closed, LowerM.bind_ok_iff]
    constructor
    · rintro ⟨seen, s', ended, done⟩
      cases done
      obtain ⟨same, valid, accepts⟩ := verifyBody_ok_iff.1 ⟨seen, ended⟩
      exact ⟨same, closed, valid, accepts⟩
    · rintro ⟨same, -, valid, accepts⟩
      obtain ⟨seen, ended⟩ := verifyBody_ok_iff.2 ⟨same, valid, accepts⟩
      exact ⟨seen, s, ended, rfl⟩
  · rw [verifyOutcome_leftOpen closed]
    exact ⟨nofun, fun both => absurd both.2.1 closed⟩

/-- A check that fails has found something, and not just given up on a walk. -/
theorem verifyOutcome_finding (bounded : ∀ root ∈ t.body, t.Bounded root) {e : LoweringError}
    {s : LoweringState} (failed : verifyOutcome.run ⟨t, c⟩ = .error e s) : Finding e := by
  by_cases closed : c.frames = [] ∧ c.tables = []
  · rw [verifyOutcome_run closed] at failed
    rcases LowerM.cases_of_bind_error failed with failed | ⟨_, _, _, ended⟩
    · obtain ⟨root, member, seen, s₁, failed⟩ := LowerM.exists_of_foldlM_error failed
      unfold verifyRoot at failed
      rcases (bounded root member).subtree_cases with ⟨ids, listed⟩ | ⟨missing, dangles⟩
      · rw [listed] at failed
        obtain ⟨id, -, seen', s₂, failed⟩ := LowerM.exists_of_foldlM_error failed
        rcases verifyNode_cases t c.operations seen' id s₂ with ⟨ran, -⟩ | ⟨e', ran, finding, -⟩
        · cases ran.symm.trans failed
        · cases ran.symm.trans failed
          exact finding
      · rw [dangles] at failed
        cases failed
        exact .inr ⟨missing, rfl⟩
    · cases ended
  · rw [verifyOutcome_leftOpen closed] at failed
    cases failed
    exact .inl ⟨_, rfl⟩

/-- On a module with no cycle below its body, the check passes exactly where validation does, no
allocation block is left open, and every definition that can be reached has the variants it asks
for. It changes nothing, and where it fails it has found a broken invariant or a reference out of
the arena. -/
theorem verifyOutcome_agrees (t : SyntaxTree) (c : Context)
    (bounded : ∀ root ∈ t.body, t.Bounded root) :
    (LowerM.succeeds verifyOutcome.run ⟨t, c⟩ ↔
      t.validate = .ok () ∧ c.frames = [] ∧ c.tables = [] ∧
        ∀ id d, t.Reachable id → t.nodes[id]? = some (.stmt (.define d)) →
          c.operations.Settled d.name d.markers) ∧
    (∀ s, verifyOutcome.run ⟨t, c⟩ = .ok () s → s = ⟨t, c⟩) ∧
    ∀ e s, verifyOutcome.run ⟨t, c⟩ = .error e s → s = ⟨t, c⟩ ∧ Finding e := by
  refine ⟨⟨fun succeeds => ?_, ?_⟩, fun s ended => (verifyOutcome_ok_iff.1 ended).1,
    fun e s failed => ⟨?_, verifyOutcome_finding bounded failed⟩⟩
  · obtain ⟨⟨⟩, s, ended⟩ := LowerM.exists_of_succeeds succeeds
    obtain ⟨-, closed, valid, accepts⟩ := verifyOutcome_ok_iff.1 ended
    refine ⟨valid, closed.1, closed.2, fun id d reach found => ?_⟩
    obtain ⟨node, there, complete⟩ := accepts id reach
    cases found.symm.trans there
    exact complete d rfl
  · rintro ⟨valid, frames, tables, settled⟩
    have inside := (SyntaxTree.references_of_valid valid).2
    have accepts : ∀ id, t.Reachable id → Accepts t c.operations id := by
      intro id reach
      obtain ⟨node, found⟩ : ∃ node, t.nodes[id]? = some node :=
        ⟨_, Array.getElem?_eq_getElem (inside id reach)⟩
      refine ⟨node, found, fun d same => settled id d reach ?_⟩
      rw [found, same]
    rw [LowerM.succeeds, verifyOutcome_ok_iff.2 ⟨rfl, ⟨frames, tables⟩, valid, accepts⟩]
  · have final := verifyOutcome_observes ⟨t, c⟩
    rw [LowerM.final, failed] at final
    exact final

def flipModule (body : List NodeId) : SyntaxTree :=
  ⟨#[.expr (.name "q"), .stmt (.expr 0), .stmt (.expr 0),
    .stmt (.define ⟨"flip", ["q"], [1], some ⟨true, false⟩⟩)], body⟩

/-- The operation passes by itself, but not beside the statement that shares its qubit. -/
theorem verifyOutcome_agrees_flip :
    let c : Context := { Context.new .default with
      operations := OperationTable.preamble.link "flip" .adjoint "_flip_adj" }
    (∀ body : List NodeId, ∀ root ∈ [3, 2], (flipModule body).Bounded root) ∧
      LowerM.succeeds verifyOutcome.run ⟨flipModule [3], c⟩ ∧
      ¬ LowerM.succeeds verifyOutcome.run ⟨flipModule [3, 2], c⟩ := by
  intro c
  have name : ∀ body, (flipModule body).Bounded 0 := fun body =>
    ⟨0, fun part listed => absurd listed (List.not_mem_nil)⟩
  have statement : ∀ body, ∀ id ∈ [1, 2], (flipModule body).Bounded id := by
    intro body id member
    refine ⟨id, fun part listed => ?_⟩
    have only : part ∈ [0] := by
      rcases List.mem_pair.1 member with rfl | rfl <;> exact listed
    exact List.mem_singleton.1 only ▸ name body
  have bounded : ∀ body, ∀ root ∈ [3, 2], (flipModule body).Bounded root := by
    intro body root member
    rcases List.mem_pair.1 member with rfl | rfl
    · refine ⟨3, fun part listed => statement body part ?_⟩
      have only : part ∈ [1] := listed
      simp_all
    · exact statement body 2 (by simp)
  have valid : (flipModule [3]).validate = .ok () := by
    simp [SyntaxTree.validate, SyntaxTree.validateFrom, SyntaxTree.children, SyntaxTree.node,
      flipModule, Node.children, Stmt.children, Expr.children]
  have shared : (flipModule [3, 2]).validate = .error (.reachedTwice 0) := by
    simp [SyntaxTree.validate, SyntaxTree.validateFrom, SyntaxTree.children, SyntaxTree.node,
      flipModule, Node.children, Stmt.children, Expr.children]
  refine ⟨bounded, (verifyOutcome_agrees _ c fun root member =>
    bounded [3] root (by simp_all [flipModule])).1.2 ⟨valid, rfl, rfl, ?_⟩, fun passes => ?_⟩
  · intro id d _ found f asked
    have only : d = ⟨"flip", ["q"], [1], some ⟨true, false⟩⟩ := by
      rcases id with _ | _ | _ | _ | id
      · cases found
      · cases found
      · cases found
      · cases found
        rfl
      · cases found
    subst only
    cases f with
    | adjoint => exact OperationTable.resolves_link _ _ _ _
    | controlled => cases asked
  · have agrees := verifyOutcome_agrees (flipModule [3, 2]) c (bounded [3, 2])
    have passed := (agrees.1.1 passes).1
    rw [shared] at passed
    cases passed

end Pass

end QuantumLowering
