import QuantumLowering.Proofs.Lowering.Settling
import QuantumLowering.Proofs.Syntax.Shape

/-!
Parts of an arena that lowering does not leave. What lies in a region refers to the region only, whatever
is shared in it and whatever the kinds of its nodes; new nodes lie in it as well. So an id that is found
from an id inside, or added, is inside.
-/

namespace QuantumLowering

/-- Where a run succeeds from a state as described, it ends in one, with a result as described. -/
def Upholds {ε σ α : Type} (I : σ → Prop) (act : EStateM ε σ α) (post : α → Prop) : Prop :=
  ∀ s a s', act s = .ok a s' → I s → I s' ∧ post a

namespace Upholds

variable {ε σ α β : Type} {I : σ → Prop} {post : α → Prop} {post' : β → Prop}

theorem pure {a : α} (holds : post a) : Upholds I (Pure.pure a : EStateM ε σ α) post := by
  intro s b s' ended inv
  cases ended
  exact ⟨inv, holds⟩

theorem throw (e : ε) : Upholds I (MonadExcept.throw e : EStateM ε σ α) post := by
  intro s b s' ended
  cases ended

theorem throw_bind (e : ε) (f : α → EStateM ε σ β) :
    Upholds I (MonadExcept.throw e >>= f) post' := by
  intro s b s' ended
  cases ended

theorem bind {act : EStateM ε σ α} {f : α → EStateM ε σ β} (first : Upholds I act post)
    (rest : ∀ a, post a → Upholds I (f a) post') : Upholds I (act >>= f) post' := by
  intro s b s'' ended inv
  obtain ⟨a, s', ran, ended⟩ := LowerM.exists_of_bind_ok ended
  obtain ⟨inv', holds⟩ := first s a s' ran inv
  exact rest a holds s' b s'' ended inv'

theorem forM {xs : List α} {act : α → EStateM ε σ Unit}
    (each : ∀ x ∈ xs, Upholds I (act x) fun _ => True) : Upholds I (xs.forM act) fun _ => True := by
  induction xs with
  | nil => exact pure trivial
  | cons x xs ih =>
    exact bind (each x (by simp)) fun _ _ => ih fun y member => each y (by simp [member])

theorem mapM {xs : List α} {act : α → EStateM ε σ β} (each : ∀ x ∈ xs, Upholds I (act x) post') :
    Upholds I (xs.mapM act) fun ys => ∀ y ∈ ys, post' y := by
  induction xs with
  | nil => exact pure (by simp)
  | cons x xs ih =>
    rw [List.mapM_cons]
    refine bind (each x (by simp)) fun y holds => ?_
    refine bind (ih fun z member => each z (by simp [member])) fun ys all => pure ?_
    exact List.forall_mem_cons.2 ⟨holds, all⟩

end Upholds

/-- Which ids are inside, and which names the definitions with markers have there. -/
structure Region where
  inside : NodeId → Prop
  marked : String → Prop

namespace Region

structure Allows (r : Region) (node : Node NodeId) : Prop where
  parts : ∀ part ∈ node.children, r.inside part
  named : ∀ d, node = .stmt (.define d) → d.markers ≠ .none → r.marked d.name

/-- The nodes inside may stand there, and nodes that are still to come will be inside. -/
structure Closed (r : Region) (t : SyntaxTree) : Prop where
  later : ∀ id : Nat, t.size ≤ id → r.inside id
  nodes : ∀ id node, r.inside id → t.nodes[id]? = some node → r.Allows node

variable {r : Region} {t : SyntaxTree} {id : NodeId}

theorem allows_expr {e : Expr NodeId} (parts : ∀ part ∈ e.children, r.inside part) :
    r.Allows (.expr e) :=
  ⟨parts, fun _ same => by cases same⟩

theorem allows_stmt {s : Stmt NodeId} (parts : ∀ part ∈ s.children, r.inside part)
    (plain : ∀ d, s ≠ .define d) : r.Allows (.stmt s) :=
  ⟨parts, fun d same => absurd (Node.stmt.inj same) (plain d)⟩

namespace Closed

theorem push (closed : r.Closed t) {node : Node NodeId} (allowed : r.Allows node) :
    r.Closed (t.push node) where
  later other bound := closed.later other (by simp at bound; omega)
  nodes other node' inside found := by
    rw [SyntaxTree.nodes_push] at found
    split at found
    · cases found
      exact allowed
    · exact closed.nodes other node' inside found

theorem put (closed : r.Closed t) {node : Node NodeId} (allowed : r.Allows node) :
    r.Closed (t.put id node) where
  later other bound := closed.later other (by simpa using bound)
  nodes other node' inside found := by
    rw [SyntaxTree.nodes_put] at found
    split at found
    · cases found
      exact allowed
    · exact closed.nodes other node' inside found

theorem exists_of_mem_flatten {find : NodeId → Except TreeError (List NodeId)} {ids : List NodeId}
    {lists : List (List NodeId)} {other : NodeId} (ran : ids.mapM find = .ok lists)
    (listed : other ∈ lists.flatten) : ∃ part ∈ ids, ∃ found, find part = .ok found ∧ other ∈ found := by
  obtain ⟨found, there, inside⟩ := List.mem_flatten.1 listed
  obtain ⟨part, member, here⟩ := Plan.exists_of_mem ran there
  exact ⟨part, member, found, here, inside⟩

section Finding

variable (closed : r.Closed t)

include closed

theorem expr {e : Expr NodeId} (member : r.inside id) (found : t.expr id = .ok e) :
    ∀ part ∈ e.children, r.inside part := by
  unfold SyntaxTree.expr at found
  split at found
  next there =>
    cases found
    exact (closed.nodes id _ member there).parts
  all_goals cases found

theorem spans {u : Unfolding} (spans : Spans t u) (member : r.inside u.root) :
    ∀ other ∈ u.ids, r.inside other := by
  induction spans with
  | @node id parts node found kids _ ih =>
    have inner := (closed.nodes id node member found).parts
    intro other listed
    rw [Unfolding.ids, List.mem_cons] at listed
    rcases listed with rfl | listed
    · exact member
    · obtain ⟨ids, from_, within⟩ := List.mem_flatten.1 listed
      obtain ⟨u, part, rfl⟩ := List.mem_map.1 from_
      exact ih u part (inner _ (kids ▸ List.mem_map_of_mem part)) other within

theorem callsIn {ids : List NodeId} (member : r.inside id) (walked : t.callsIn id = .ok ids) :
    ∀ call ∈ ids, r.inside call := by
  obtain ⟨listed, below, kept⟩ := Plan.bind_eq_ok.1 walked
  obtain ⟨u, spans, rfl, rfl⟩ := Spans.exists_of_subtree below
  exact fun call inside => closed.spans spans member call (mem_of_filterM kept call inside)

theorem callee {func : NodeId} (member : r.inside id) (looked : t.callee id = .ok func) :
    r.inside func := by
  obtain ⟨e, found, looked⟩ := Plan.bind_eq_ok.1 looked
  split at looked
  · cases looked
    exact closed.expr member found _ (by simp [Expr.children])
  · cases looked

theorem chain {depth : Nat} {chain : List GateFunctor} {base : NodeId} (member : r.inside id)
    (walked : t.chainWithin depth id = .ok (chain, base)) : r.inside base := by
  induction depth generalizing id chain with
  | zero => cases walked
  | succ depth ih =>
    obtain ⟨e, found, walked⟩ := Plan.bind_eq_ok.1 walked
    split at walked
    · obtain ⟨⟨inner, base'⟩, below, walked⟩ := Plan.bind_eq_ok.1 walked
      cases walked
      exact ih (closed.expr member found _ (by simp [Expr.children])) below
    · cases walked
      exact member

theorem controls {depth : Nat} {ids : List NodeId} (member : r.inside id)
    (walked : t.controlsWithin depth id = .ok ids) : ∀ other ∈ ids, r.inside other := by
  induction depth generalizing id ids with
  | zero => cases walked
  | succ depth ih =>
    obtain ⟨e, found, walked⟩ := Plan.bind_eq_ok.1 walked
    split at walked
    case h_1 items | h_2 items =>
      obtain ⟨lists, below, walked⟩ := Plan.bind_eq_ok.1 walked
      cases walked
      intro other listed
      obtain ⟨item, part, ids, here, inside⟩ := exists_of_mem_flatten below listed
      exact ih (closed.expr member found item (by simpa [Expr.children] using part)) here other inside
    case h_3 =>
      cases walked
      simpa using member

theorem measurements {measureFn : String} {depth : Nat} {ids : List NodeId} (member : r.inside id)
    (walked : t.measurementsWithin measureFn depth id = .ok ids) : ∀ other ∈ ids, r.inside other := by
  induction depth generalizing id ids with
  | zero => cases walked
  | succ depth ih =>
    obtain ⟨measures, -, walked⟩ := Plan.bind_eq_ok.1 walked
    split at walked
    · cases walked
      simpa using member
    · obtain ⟨e, found, walked⟩ := Plan.bind_eq_ok.1 walked
      obtain ⟨lists, below, walked⟩ := Plan.bind_eq_ok.1 walked
      cases walked
      intro other listed
      obtain ⟨part, held, ids, here, inside⟩ := exists_of_mem_flatten below listed
      exact ih (closed.expr member found part held) here other inside

end Finding

end Closed

section Steps

theorem look {α : Type} {look : SyntaxTree → Except TreeError α} {post : α → Prop}
    (found : ∀ t a, r.Closed t → look t = .ok a → post a) :
    Upholds r.Closed ((get : TreeM SyntaxTree) >>= fun t => (liftM (look t) : TreeM α)) post := by
  intro t a t' ended closed
  rw [TreeM.run_bind TreeM.run_get] at ended
  cases looked : look t with
  | error e =>
    rw [looked] at ended
    cases ended
  | ok b =>
    rw [TreeM.run_lift looked] at ended
    cases ended
    exact ⟨closed, found t a closed looked⟩

theorem node (member : r.inside id) : Upholds r.Closed (TreeM.node id) r.Allows := by
  refine look fun t node closed found => ?_
  unfold SyntaxTree.node at found
  split at found
  next there =>
    cases found
    exact closed.nodes id _ member there
  next => cases found

theorem expr (member : r.inside id) :
    Upholds r.Closed (TreeM.expr id) fun e => ∀ part ∈ e.children, r.inside part :=
  look fun _ _ closed found => closed.expr member found

theorem stmt (member : r.inside id) : Upholds r.Closed (TreeM.stmt id) fun s => r.Allows (.stmt s) := by
  refine look fun t s closed found => ?_
  unfold SyntaxTree.stmt at found
  split at found
  next there =>
    cases found
    exact closed.nodes id _ member there
  all_goals cases found

theorem add {node : Node NodeId} (allowed : r.Allows node) :
    Upholds r.Closed (TreeM.add node) r.inside := by
  intro t new t' ended closed
  cases ended
  exact ⟨closed.push allowed, closed.later _ (Nat.le_refl _)⟩

theorem addExpr {e : Expr NodeId} (parts : ∀ part ∈ e.children, r.inside part) :
    Upholds r.Closed (TreeM.addExpr e) r.inside :=
  add (allows_expr parts)

theorem addName (name : String) : Upholds r.Closed (TreeM.addName name) r.inside :=
  addExpr (by simp [Expr.children])

theorem addNames (names : List String) :
    Upholds r.Closed (TreeM.addNames names) fun ids => ∀ id ∈ ids, r.inside id :=
  .mapM fun name _ => addName name

theorem setExpr {e : Expr NodeId} (parts : ∀ part ∈ e.children, r.inside part) :
    Upholds r.Closed (TreeM.setExpr id e) fun _ => True := by
  refine .bind (look fun _ _ _ _ => trivial) fun _ _ => ?_
  intro t _ t' ended closed
  cases ended
  exact ⟨closed.put (allows_expr parts), trivial⟩

theorem setStmt {s : Stmt NodeId} (allowed : r.Allows (.stmt s)) :
    Upholds r.Closed (TreeM.setStmt id s) fun _ => True := by
  refine .bind (look fun _ _ _ _ => trivial) fun _ _ => ?_
  intro t _ t' ended closed
  cases ended
  exact ⟨closed.put allowed, trivial⟩

variable {func : NodeId}

theorem setCallee (member : r.inside id) (inner : r.inside func) :
    Upholds r.Closed (TreeM.setCallee id func) fun _ => True := by
  refine .bind (expr member) fun e parts => ?_
  split
  · refine setExpr fun part listed => ?_
    simp only [Expr.children, List.mem_cons] at parts listed
    exact listed.elim (fun same => same ▸ inner) fun rest => parts part (.inr rest)
  · exact .pure trivial

theorem modifyArgs {f : List NodeId → List NodeId} (member : r.inside id)
    (kept : ∀ args, (∀ arg ∈ args, r.inside arg) → ∀ arg ∈ f args, r.inside arg) :
    Upholds r.Closed (TreeM.modifyArgs id f) fun _ => True := by
  refine .bind (expr member) fun e parts => ?_
  split
  next func args keywords =>
    simp only [Expr.children, List.forall_mem_cons, List.forall_mem_append] at parts
    refine setExpr ?_
    simp only [Expr.children, List.forall_mem_cons, List.forall_mem_append]
    exact ⟨parts.1, kept args parts.2.1, parts.2.2⟩
  next => exact .pure trivial

theorem mergeControl {existing control : NodeId} (member : r.inside existing) (new : r.inside control) :
    Upholds r.Closed (TreeM.mergeControl existing control) r.inside := by
  intro t merged t' ended closed
  rcases run_mergeControl_cases t existing control with
    ⟨e, failed⟩ | ⟨ids, members, listed, deduped, ran⟩
  · cases failed.symm.trans ended
  · cases ran.symm.trans ended
    refine ⟨closed.push (allows_expr fun part inner => ?_), closed.later _ (Nat.le_refl _)⟩
    rcases List.mem_cons.1 ((SyntaxTree.dedupe_sublist deduped).subset inner) with rfl | old
    · exact new
    · exact closed.controls member listed part old

theorem cancelAdjointPairs (member : r.inside id) :
    Upholds r.Closed (TreeM.cancelAdjointPairs id) r.inside := by
  have wrap (chain : List GateFunctor) {base : NodeId} (inner : r.inside base) :
      Upholds r.Closed (chain.foldrM TreeM.addFunctor base) r.inside := by
    induction chain with
    | nil => exact .pure inner
    | cons f chain ih =>
      rw [List.foldrM_cons]
      exact .bind ih fun target below => addExpr (by simpa [Expr.children] using below)
  have walked : Upholds r.Closed
      ((get : TreeM SyntaxTree) >>= fun t => (liftM (t.chain id) : TreeM (List GateFunctor × NodeId)))
      fun found => r.inside found.2 :=
    look fun _ _ closed found => closed.chain member found
  unfold TreeM.cancelAdjointPairs
  rw [← bind_assoc]
  refine .bind walked ?_
  rintro ⟨chain, base⟩ inner
  dsimp only
  split
  · exact .pure member
  · exact wrap _ inner

variable {body orelse : List NodeId}

theorem setDefinitionBody (member : r.inside id) (inner : ∀ part ∈ body, r.inside part) :
    Upholds r.Closed (TreeM.setDefinitionBody id body) fun _ => True := by
  refine .bind (stmt member) fun s allowed => ?_
  split
  next d =>
    refine setStmt ⟨by simpa [Node.children, Stmt.children] using inner, fun d' same marked => ?_⟩
    cases same
    exact allowed.named d rfl marked
  next => exact .pure trivial

theorem setClassBody (inner : ∀ part ∈ body, r.inside part) :
    Upholds r.Closed (TreeM.setClassBody id body) fun _ => True := by
  refine .bind (look fun _ _ _ _ => trivial) fun s _ => ?_
  split
  · exact setStmt (allows_stmt (by simpa [Stmt.children] using inner) fun _ same => by cases same)
  · exact .pure trivial

theorem setScopedBody (member : r.inside id) (inner : ∀ part ∈ body, r.inside part) :
    Upholds r.Closed (TreeM.setScopedBody id body) fun _ => True := by
  refine .bind (stmt member) fun s allowed => ?_
  split
  next context binding old =>
    have parts := allowed.parts
    simp only [Node.children, Stmt.children, List.forall_mem_cons, List.forall_mem_append] at parts
    refine setStmt (allows_stmt ?_ fun _ same => by cases same)
    simp only [Stmt.children, List.forall_mem_cons, List.forall_mem_append]
    exact ⟨parts.1, parts.2.1, inner⟩
  next => exact .pure trivial

theorem setBranches (member : r.inside id) (inner : ∀ part ∈ body, r.inside part)
    (inner' : ∀ part ∈ orelse, r.inside part) :
    Upholds r.Closed (TreeM.setBranches id body orelse) fun _ => True := by
  refine .bind (stmt member) fun s allowed => ?_
  split
  next test old old' =>
    have parts := allowed.parts
    simp only [Node.children, Stmt.children, List.forall_mem_cons, List.forall_mem_append] at parts
    refine setStmt (allows_stmt ?_ fun _ same => by cases same)
    simp only [Stmt.children, List.forall_mem_cons, List.forall_mem_append]
    exact ⟨parts.1, inner, inner'⟩
  next => exact .pure trivial

theorem traverse {f : NodeId → TreeM NodeId}
    (each : ∀ id, r.inside id → Upholds r.Closed (f id) r.inside) {node : Node NodeId}
    (allowed : r.Allows node) : Upholds r.Closed (node.traverse f) r.Allows := by
  intro t copied t' ended closed
  have children := TreeM.run_map (f := Node.children) ended
  rw [Node.children_traverse] at children
  have shape := TreeM.run_map (f := Node.shape) ended
  rw [Node.shape_traverse, TreeM.run_map children, EStateM.Result.ok.injEq] at shape
  obtain ⟨closed', parts⟩ :=
    Upholds.mapM (fun id listed => each id (allowed.parts id listed)) _ _ _ children closed
  refine ⟨closed', parts, fun d same marked => ?_⟩
  subst same
  obtain ⟨same, -⟩ := shape
  cases node with
  | expr e => cases same
  | stmt s =>
    cases s with
    | define source =>
      simp only [Node.shape, Node.map, Stmt.map, Node.stmt.injEq, Stmt.define.injEq,
        Definition.mk.injEq] at same
      have markers : source.markers = d.markers := by rw [Definition.markers, Definition.markers, same.2.2.2]
      rw [← markers] at marked
      exact same.1 ▸ allowed.named source rfl marked
    | _ => cases same

theorem copyWithin (depth : Nat) (member : r.inside id) :
    Upholds r.Closed (TreeM.copyWithin depth id) r.inside := by
  induction depth generalizing id with
  | zero => exact .throw _
  | succ depth ih =>
    exact .bind (node member) fun source allowed =>
      .bind (traverse (fun _ => ih) allowed) fun copied allowed' => add allowed'

theorem copyBlock {ids : List NodeId} (members : ∀ id ∈ ids, r.inside id) :
    Upholds r.Closed (TreeM.copyBlock ids) fun copies => ∀ id ∈ copies, r.inside id :=
  .mapM fun id listed => fun t a t' ended closed =>
    copyWithin t.depthBound (members id listed) t a t' ended closed

end Steps

end Region

end QuantumLowering
