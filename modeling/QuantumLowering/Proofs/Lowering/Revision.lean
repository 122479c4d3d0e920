import QuantumLowering.Lowering.Chain
import QuantumLowering.Proofs.Lowering.Effects
import QuantumLowering.Proofs.Syntax.Forests

/-!
What a run does to the arena, whether it fails or not: below some id nothing changes, and above it
calls get other parts, the bodies of scopes another order. The trees of a forest stay apart when the
links of a chain or of a list of controls are left out.
-/

namespace QuantumLowering

/-- The layers between a callee and its base, and between an argument and the controls it lists. -/
def Node.isLink {ι : Type} : Node ι → Bool
  | .expr (.functor ..) | .expr (.list _) | .expr (.aggregate _) => true
  | _ => false

/-- What may become of a node in place: calls change, and the bodies of scopes are reordered. -/
inductive Node.Revised : Node NodeId → Node NodeId → Prop where
  | same (node : Node NodeId) : Revised node node
  | call {func func' : NodeId} {args args' : List NodeId} {keywords keywords' : List (Keyword NodeId)} :
    Revised (.expr (.call func args keywords)) (.expr (.call func' args' keywords'))
  | scope {context : NodeId} {binding : Option NodeId} {body body' : List NodeId}
    (order : body'.Perm body) :
    Revised (.stmt (.scoped context binding body)) (.stmt (.scoped context binding body'))

namespace Node.Revised

variable {a b c : Node NodeId}

theorem trans (first : Revised a b) (second : Revised b c) : Revised a c := by
  cases first with
  | same => exact second
  | call =>
    cases second with
    | same => exact .call
    | call => exact .call
  | scope order =>
    cases second with
    | same => exact .scope order
    | scope order' => exact .scope (order'.trans order)

theorem isLink_eq (revised : Revised a b) : b.isLink = a.isLink := by
  cases revised <;> rfl

end Node.Revised

def SyntaxTree.IsLink (t : SyntaxTree) (id : NodeId) : Prop :=
  ∃ node, t.nodes[id]? = some node ∧ node.isLink

structure Revises (n : Nat) (t t' : SyntaxTree) : Prop where
  size_le : t.size ≤ t'.size
  body_eq : t'.body = t.body
  same : ∀ id : Nat, id < n → t'.nodes[id]? = t.nodes[id]?
  revised : ∀ (id : NodeId) (node : Node NodeId), t.nodes[id]? = some node →
    ∃ node', t'.nodes[id]? = some node' ∧ node.Revised node'

namespace Revises

variable {n : Nat} {t t' t'' : SyntaxTree} {id : NodeId} {node node' : Node NodeId}

theorem refl (n : Nat) (t : SyntaxTree) : Revises n t t :=
  ⟨Nat.le_refl _, rfl, fun _ _ => rfl, fun _ node found => ⟨node, found, .same node⟩⟩

theorem trans (first : Revises n t t') (second : Revises n t' t'') : Revises n t t'' := by
  refine ⟨first.size_le.trans second.size_le, second.body_eq.trans first.body_eq,
    fun id bound => (second.same id bound).trans (first.same id bound), fun id node found => ?_⟩
  obtain ⟨node', found', revised⟩ := first.revised id node found
  obtain ⟨node'', found'', revised'⟩ := second.revised id node' found'
  exact ⟨node'', found'', revised.trans revised'⟩

theorem of_extends (ext : Extends [] t t') (floor : n ≤ t.size) : Revises n t t' := by
  refine ⟨ext.size_le, ext.body_eq, fun id bound => ext.same id (by omega) (by simp),
    fun id node found => ⟨node, ?_, .same node⟩⟩
  have bound := (Array.getElem?_eq_some_iff.1 found).1
  rw [ext.same id bound (by simp), found]

theorem push (floor : n ≤ t.size) (node : Node NodeId) : Revises n t (t.push node) :=
  of_extends (Becomes.push t node).ext floor

theorem put (floor : n ≤ id) (found : t.nodes[id]? = some node) (revised : node.Revised node') :
    Revises n t (t.put id node') := by
  refine ⟨by simp, rfl, fun other bound => ?_, fun other old found' => ?_⟩
  · rw [SyntaxTree.nodes_put, if_neg fun both => ?_]
    obtain rfl := both.1
    exact absurd bound (by omega)
  · rw [SyntaxTree.nodes_put]
    split
    next here =>
      obtain rfl := here.1
      obtain rfl := Option.some.inj (found.symm.trans found')
      exact ⟨node', rfl, revised⟩
    next => exact ⟨old, found', .same old⟩

theorem isLink (revises : Revises n t t') (bound : id < t.size) (link : t'.IsLink id) :
    t.IsLink id := by
  obtain ⟨node, found⟩ : ∃ node, t.nodes[id]? = some node := ⟨_, Array.getElem?_eq_getElem bound⟩
  obtain ⟨node', found', revised⟩ := revises.revised id _ found
  obtain ⟨node, there, isLink⟩ := link
  obtain rfl := Option.some.inj (found'.symm.trans there)
  exact ⟨_, found, revised.isLink_eq ▸ isLink⟩

theorem not_isLink (revises : Revises n t t') (bound : id < t.size) (no : ¬ t.IsLink id) :
    ¬ t'.IsLink id := fun link => no (revises.isLink bound link)

end Revises

/-- However the computation ends, it has revised the arena; with a result it ends in an arena as
described. -/
def Tends {α : Type} (n : Nat) (act : LowerM α) (t : SyntaxTree) (post : α → SyntaxTree → Prop) :
    Prop :=
  ∀ c, Revises n t (act.final ⟨t, c⟩).tree ∧ ∀ a s, act ⟨t, c⟩ = .ok a s → post a s.tree

namespace Tends

variable {α β : Type} {n : Nat} {t : SyntaxTree} {post : β → SyntaxTree → Prop}

theorem pure {a : β} (holds : post a t) : Tends n (Pure.pure a) t post := by
  refine fun c => ⟨.refl n t, fun b s ran => ?_⟩
  cases ran
  exact holds

theorem throw (e : LoweringError) : Tends n (MonadExcept.throw e : LowerM β) t post :=
  fun c => ⟨.refl n t, fun _ _ ran => by cases ran⟩

theorem bind {act : LowerM α} {f : α → LowerM β} {Q : α → SyntaxTree → Prop}
    (first : Tends n act t Q)
    (rest : ∀ a t', Revises n t t' → Q a t' → Tends n (f a) t' post) :
    Tends n (act >>= f) t post := by
  intro c
  obtain ⟨revises, holds⟩ := first c
  unfold LowerM.final at revises ⊢
  cases ran : act ⟨t, c⟩ with
  | error e s =>
    simp only [Bind.bind, EStateM.bind, ran] at revises ⊢
    exact ⟨revises, fun _ _ failed => by cases failed⟩
  | ok a s =>
    simp only [Bind.bind, EStateM.bind, ran] at revises ⊢
    obtain ⟨more, holds'⟩ := rest a s.tree revises (holds a s ran) s.context
    exact ⟨revises.trans more, holds'⟩

theorem mono {act : LowerM β} {post' : β → SyntaxTree → Prop} (tends : Tends n act t post)
    (weaker : ∀ b t', Revises n t t' → post b t' → post' b t') : Tends n act t post' := by
  intro c
  obtain ⟨revises, holds⟩ := tends c
  refine ⟨revises, fun b s ran => weaker b s.tree ?_ (holds b s ran)⟩
  unfold LowerM.final at revises
  rwa [ran] at revises

theorem read_bind {act : LowerM α} {f : α → LowerM β} {a : SyntaxTree → Context → α}
    (reads : ∀ c, act ⟨t, c⟩ = .ok (a t c) ⟨t, c⟩) (rest : ∀ c, Tends n (f (a t c)) t post) :
    Tends n (act >>= f) t post := by
  intro c
  have same : (act >>= f) ⟨t, c⟩ = f (a t c) ⟨t, c⟩ := by
    simp only [Bind.bind, EStateM.bind, reads]
  unfold LowerM.final
  rw [same]
  exact rest c c

theorem tree_bind {f : SyntaxTree → LowerM β} (rest : Tends n (f t) t post) :
    Tends n (LowerM.tree >>= f) t post :=
  read_bind (a := fun t _ => t) (fun _ => rfl) fun _ => rest

theorem context_bind {f : Context → LowerM β} (rest : ∀ c, Tends n (f c) t post) :
    Tends n (LowerM.context >>= f) t post :=
  read_bind (a := fun _ c => c) (fun _ => rfl) rest

theorem options_bind {f : Options → LowerM β} (rest : ∀ o, Tends n (f o) t post) :
    Tends n (LowerM.options >>= f) t post :=
  read_bind (a := fun _ c => c.options) (fun _ => rfl) fun c => rest c.options

theorem operations_bind {f : OperationTable → LowerM β} (rest : ∀ known, Tends n (f known) t post) :
    Tends n (LowerM.operations >>= f) t post :=
  read_bind (a := fun _ c => c.operations) (fun _ => rfl) fun c => rest c.operations

theorem except_bind {r : Except TreeError α} {f : α → LowerM β}
    (rest : ∀ a, r = .ok a → Tends n (f a) t post) : Tends n (liftM r >>= f) t post := by
  cases r with
  | error e => exact fun c => ⟨.refl n t, fun _ _ ran => by cases ran⟩
  | ok a => exact rest a rfl

theorem variant_bind {r : Except UndefinedVariant α} {f : α → LowerM β}
    (rest : ∀ a, Tends n (f a) t post) : Tends n (liftM r >>= f) t post := by
  cases r with
  | error e => exact fun c => ⟨.refl n t, fun _ _ ran => by cases ran⟩
  | ok a => exact rest a

theorem treeM {act : TreeM β}
    (run : match act t with
      | .ok a t' => Revises n t t' ∧ post a t'
      | .error _ t' => Revises n t t') : Tends n (liftM act) t post := by
  intro c
  simp only [LowerM.final, liftM, monadLift, MonadLift.monadLift]
  cases ran : act t with
  | error e t' =>
    rw [ran] at run
    exact ⟨run, fun _ _ failed => by cases failed⟩
  | ok a t' =>
    rw [ran] at run
    refine ⟨run.1, fun b s same => ?_⟩
    cases same
    exact run.2

theorem run_bind {act : TreeM α} {f : α → LowerM β} {a : α} {t' : SyntaxTree}
    (ran : act t = .ok a t') (revises : Revises n t t') (rest : Tends n (f a) t' post) :
    Tends n (liftM act >>= f) t post := by
  refine bind (Q := fun b t'' => b = a ∧ t'' = t') (treeM ?_) ?_
  · rw [ran]
    exact ⟨revises, rfl, rfl⟩
  · rintro _ _ - ⟨rfl, rfl⟩
    exact rest

theorem failed_bind {act : TreeM α} {f : α → LowerM β} {e : TreeError} (failed : act t = .error e t) :
    Tends n (liftM act >>= f) t post := by
  refine bind (Q := fun _ _ => False) (treeM ?_) fun _ _ _ no => no.elim
  rw [failed]
  exact .refl ..

theorem look_bind (look : SyntaxTree → Except TreeError α) {f : α → LowerM β}
    (rest : ∀ a, look t = .ok a → Tends n (f a) t post) :
    Tends n (liftM ((get : TreeM SyntaxTree) >>= fun t => liftM (look t)) >>= f) t post := by
  cases looked : look t with
  | error e =>
    have failed : ((get : TreeM SyntaxTree) >>= fun t => (liftM (look t) : TreeM α)) t =
        .error e t := by
      rw [TreeM.run_bind TreeM.run_get, looked]
      rfl
    refine bind (Q := fun _ _ => False) (treeM ?_) fun _ _ _ no => no.elim
    rw [failed]
    exact .refl n t
  | ok a =>
    exact run_bind (TreeM.run_bind TreeM.run_get |>.trans (TreeM.run_lift looked)) (.refl n t)
      (rest a looked)

theorem stmt_bind {id : NodeId} {f : Stmt NodeId → LowerM β}
    (rest : ∀ s, t.nodes[id]? = some (.stmt s) → Tends n (f s) t post) :
    Tends n (liftM (TreeM.stmt id) >>= f) t post := by
  refine look_bind (·.stmt id) fun s found => rest s ?_
  unfold SyntaxTree.stmt at found
  split at found
  next found' => rw [found', Except.ok.inj found]
  all_goals cases found

theorem expr_bind {id : NodeId} {f : Expr NodeId → LowerM β}
    (rest : ∀ e, t.nodes[id]? = some (.expr e) → Tends n (f e) t post) :
    Tends n (liftM (TreeM.expr id) >>= f) t post := by
  refine look_bind (·.expr id) fun e found => rest e ?_
  unfold SyntaxTree.expr at found
  split at found
  next found' => rw [found', Except.ok.inj found]
  all_goals cases found

theorem contextM_bind {act : ContextM α} {f : α → LowerM β} (rest : ∀ a, Tends n (f a) t post) :
    Tends n (liftM act >>= f) t post := by
  refine bind (Q := fun _ t' => t' = t) (fun c => ?_) ?_
  · simp only [LowerM.final, liftM, monadLift, MonadLift.monadLift]
    cases act c with
    | error e c' => exact ⟨.refl n t, fun _ _ ran => by cases ran⟩
    | ok a c' => exact ⟨.refl n t, fun _ _ ran => by cases ran; rfl⟩
  · rintro a _ - rfl
    exact rest a

end Tends

/-- What an arena has become: still a forest, in which only links have died. -/
def Regrown (n : Nat) (roots : List NodeId) (t : SyntaxTree) (live : List NodeId) (t' : SyntaxTree) :
    Prop :=
  ∃ live', Forest n t' [] roots live' ∧ ∀ id ∈ live, ¬ t.IsLink id → id ∈ live'

/-- Whatever the walk does at an id, it does at a live node: a link is not what it is looking for. -/
def Tracked (t : SyntaxTree) (live : List NodeId) (id : NodeId) : Prop := ¬ t.IsLink id → id ∈ live

section Walks

variable {n : Nat} {t t' t'' : SyntaxTree} {roots live live' : List NodeId} {id : NodeId}

theorem Forest.bounds (forest : Forest n t [] roots live) (member : id ∈ live) :
    n ≤ id ∧ id < t.size :=
  forest.inside id (by simpa using member)

theorem Forest.regrown (forest : Forest n t [] roots live) : Regrown n roots t live t :=
  ⟨live, forest, fun _ member _ => member⟩

theorem Tracked.keep (tracked : Tracked t live id)
    (revises : Revises n t t') (kept : ∀ id ∈ live, ¬ t.IsLink id → id ∈ live') :
    Tracked t' live' id := by
  intro no
  by_cases link : t.IsLink id
  · obtain ⟨node, found, isLink⟩ := link
    obtain ⟨node', found', revised⟩ := revises.revised id node found
    exact absurd ⟨node', found', revised.isLink_eq.trans isLink⟩ no
  · exact kept id (tracked link) link

theorem Regrown.trans (forest : Forest n t [] roots live) (revises : Revises n t t')
    (kept : ∀ id ∈ live, ¬ t.IsLink id → id ∈ live') (later : Regrown n roots t' live' t'') :
    Regrown n roots t live t'' := by
  obtain ⟨live'', forest'', kept'⟩ := later
  exact ⟨live'', forest'', fun id member no =>
    kept' id (kept id member no) (revises.not_isLink (forest.bounds member).2 no)⟩

theorem Tends.forM {act : NodeId → LowerM Unit} {ids : List NodeId}
    (forest : Forest n t [] roots live) (tracked : ∀ id ∈ ids, Tracked t live id)
    (each : ∀ id t live, Forest n t [] roots live → Tracked t live id →
      Tends n (act id) t fun _ t' => Regrown n roots t live t') :
    Tends n (ids.forM act) t fun _ t' => Regrown n roots t live t' := by
  induction ids generalizing t live with
  | nil => exact .pure forest.regrown
  | cons id ids ih =>
    refine Tends.bind (each id t live forest (tracked id (by simp))) ?_
    rintro ⟨⟩ t' revises ⟨live', forest', kept⟩
    refine (ih forest' fun other member => ?_).mono fun _ _ _ later =>
      .trans forest revises kept later
    exact (tracked other (by simp [member])).keep revises kept

end Walks

section Links

variable {n : Nat} {t : SyntaxTree} {holes roots live : List NodeId} {id : NodeId}

/-- The same trees without some of their links. -/
def Unlinked (n : Nat) (t : SyntaxTree) (holes roots live : List NodeId) : Prop :=
  ∃ live', Forest n t holes roots live' ∧ ∀ id ∈ live, id ∈ live' ∨ t.IsLink id

theorem Unlinked.refl (forest : Forest n t holes roots live) : Unlinked n t holes roots live :=
  ⟨live, forest, fun _ member => .inl member⟩

theorem Unlinked.trans {live' roots' : List NodeId} (later : Unlinked n t holes roots' live')
    (kept : ∀ id ∈ live, id ∈ live' ∨ t.IsLink id) : Unlinked n t holes roots' live := by
  obtain ⟨live'', forest, kept'⟩ := later
  exact ⟨live'', forest, fun id member => (kept id member).elim (kept' id) .inr⟩

theorem Unlinked.perm {roots' : List NodeId} (unlinked : Unlinked n t holes roots live)
    (order : roots.Perm roots') : Unlinked n t holes roots' live := by
  obtain ⟨live', forest, kept⟩ := unlinked
  exact ⟨live', forest.perm order, kept⟩

theorem Forest.unlink (forest : Forest n t holes (id :: roots) live)
    (solid : ∀ hole ∈ holes, ¬ t.IsLink hole) {node : Node NodeId}
    (found : t.nodes[id]? = some node) (link : node.isLink) :
    Forest n t holes (node.children ++ roots) (live.erase id) ∧
      ∀ other ∈ live, other ∈ live.erase id ∨ t.IsLink other := by
  have isLink : t.IsLink id := ⟨node, found, link⟩
  have member : id ∈ live := (List.mem_append.1 (forest.closed id (by simp))).resolve_left
    fun hole => solid id hole isLink
  refine ⟨SyntaxTree.refs_eq found ▸ forest.splice member, fun other inside => ?_⟩
  by_cases same : other = id
  · exact .inr (same ▸ isLink)
  · exact .inl ((List.mem_erase_of_ne same).2 inside)

theorem Forest.base (forest : Forest n t holes (id :: roots) live)
    (solid : ∀ hole ∈ holes, ¬ t.IsLink hole) {depth : Nat} {chain : List GateFunctor}
    {base : NodeId} (walked : t.chainWithin depth id = .ok (chain, base)) :
    Unlinked n t holes (base :: roots) live := by
  induction depth generalizing id chain live with
  | zero => cases walked
  | succ depth ih =>
    unfold SyntaxTree.chainWithin SyntaxTree.expr at walked
    cases found : t.nodes[id]? with
    | none => simp [found, Bind.bind, Except.bind] at walked
    | some node =>
      cases node with
      | stmt s => simp [found, Bind.bind, Except.bind] at walked
      | expr e =>
        simp only [found, Bind.bind, Except.bind] at walked
        cases e with
        | functor f target =>
          obtain ⟨spliced, kept⟩ := forest.unlink solid found rfl
          simp only at walked
          cases below : t.chainWithin depth target with
          | error e => simp [below] at walked
          | ok found =>
            rw [below] at walked
            cases walked
            exact (ih spliced below).trans kept
        | _ =>
          cases walked
          exact .refl forest

theorem Unlinked.mapM {walk : NodeId → Except TreeError (List NodeId)}
    (each : ∀ id ids roots live, Forest n t holes (id :: roots) live → walk id = .ok ids →
      Unlinked n t holes (ids ++ roots) live)
    {items : List NodeId} {lists : List (List NodeId)} (forest : Forest n t holes (items ++ roots) live)
    (walked : items.mapM walk = .ok lists) : Unlinked n t holes (lists.flatten ++ roots) live := by
  induction items generalizing lists roots live with
  | nil =>
    cases walked
    exact .refl forest
  | cons item items ih =>
    rw [List.mapM_cons] at walked
    cases first : walk item with
    | error e => simp [first, Bind.bind, Except.bind] at walked
    | ok ids =>
      cases rest : items.mapM walk with
      | error e => simp [first, rest, Bind.bind, Except.bind] at walked
      | ok lists' =>
        simp only [first, rest, Bind.bind, Except.bind, Pure.pure, Except.pure, Except.ok.injEq]
          at walked
        subst walked
        obtain ⟨live', forest', kept⟩ := each item ids (items ++ roots) live forest first
        have moved : (ids ++ (items ++ roots)).Perm (items ++ (ids ++ roots)) := by
          simpa only [List.append_assoc] using
            (List.perm_append_comm : (ids ++ items).Perm _).append_right roots
        refine ((ih (forest'.perm moved) rest).trans kept).perm ?_
        simpa only [List.flatten_cons, List.append_assoc] using
          (List.perm_append_comm : (lists'.flatten ++ ids).Perm _).append_right roots

theorem Forest.controls (forest : Forest n t holes (id :: roots) live)
    (solid : ∀ hole ∈ holes, ¬ t.IsLink hole) {depth : Nat} {ids : List NodeId}
    (walked : t.controlsWithin depth id = .ok ids) : Unlinked n t holes (ids ++ roots) live := by
  induction depth generalizing id ids roots live with
  | zero => cases walked
  | succ depth ih =>
    unfold SyntaxTree.controlsWithin SyntaxTree.expr at walked
    cases found : t.nodes[id]? with
    | none => simp [found, Bind.bind, Except.bind] at walked
    | some node =>
      cases node with
      | stmt s => simp [found, Bind.bind, Except.bind] at walked
      | expr e =>
        simp only [found, Bind.bind, Except.bind] at walked
        cases e with
        | list items | aggregate items =>
          obtain ⟨spliced, kept⟩ := forest.unlink solid found rfl
          simp only at walked
          cases below : items.mapM (t.controlsWithin depth) with
          | error e => simp [below] at walked
          | ok lists =>
            simp only [below, Pure.pure, Except.pure, Except.ok.injEq] at walked
            subst walked
            exact (Unlinked.mapM (fun _ _ _ _ forest walked => ih forest walked) spliced below).trans kept
        | _ =>
          cases walked
          exact .refl forest

theorem SyntaxTree.dedupe_sublist {ids kept : List NodeId} (ran : t.dedupe ids = .ok kept) :
    kept.Sublist ids := by
  have each : ∀ (ids before kept : List NodeId),
      ids.foldlM (fun kept id => do
        if ← t.anySame id kept then return kept else return kept ++ [id]) before = .ok kept →
      kept.Sublist (before ++ ids) := by
    intro ids
    induction ids with
    | nil =>
      intro before kept ran
      cases ran
      simp
    | cons id ids ih =>
      intro before kept ran
      rw [List.foldlM_cons] at ran
      cases same : t.anySame id before with
      | error e => simp [same, Bind.bind, Except.bind] at ran
      | ok found =>
        cases found with
        | true =>
          simp only [same, Bind.bind, Except.bind, ↓reduceIte, Pure.pure, Except.pure] at ran
          exact (ih before kept ran).trans ((List.sublist_cons_self id ids).append_left before)
        | false =>
          simp only [same, Bind.bind, Except.bind, Bool.false_eq_true, ↓reduceIte, Pure.pure,
            Except.pure] at ran
          have more := ih (before ++ [id]) kept ran
          rwa [List.append_assoc] at more
  exact each ids [] kept ran

end Links

end QuantumLowering
