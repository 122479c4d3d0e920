import QuantumLowering.Proofs.Lowering.Blocks
import QuantumLowering.Proofs.Lowering.Inference
import QuantumLowering.Proofs.Lowering.Revision

namespace QuantumLowering

section Calls

variable {n : Nat} {t t' : SyntaxTree} {roots live : List NodeId} {call func func' : NodeId}
  {args args' : List NodeId} {keywords : List (Keyword NodeId)}

theorem not_isLink_call (found : t.nodes[call]? = some (.expr (.call func args keywords))) :
    ¬ t.IsLink call := by
  rintro ⟨node, found', link⟩
  obtain rfl := Option.some.inj (found.symm.trans found')
  cases link

theorem mem_of_call (tracked : Tracked t live call)
    (found : t.nodes[call]? = some (.expr (.call func args keywords))) : call ∈ live :=
  tracked (not_isLink_call found)

theorem Forest.dig_call (forest : Forest n t [] roots live) (member : call ∈ live)
    (found : t.nodes[call]? = some (.expr (.call func args keywords))) :
    Forest n t [call] (func :: (args ++ keywords.map Keyword.value) ++ roots) (live.erase call) := by
  have dug := forest.dig member
  rwa [SyntaxTree.refs_eq found] at dug

theorem Forest.fill_call
    (forest : Forest n t [call] (func :: (args ++ keywords.map Keyword.value) ++ roots) live) :
    Forest n (t.put call (.expr (.call func args keywords))) [] roots (call :: live) := by
  have bound : call < t.size := (forest.inside call (by simp)).2
  refine Forest.fill ?_
  rw [SyntaxTree.refs_put_self bound]
  exact forest.put _

theorem Forest.keeps_call {live' : List NodeId} {node : Node NodeId} (forest : Forest n t [] roots live)
    (kept : ∀ id ∈ t.size :: live.erase call, id ∈ live' ∨ (t.push node).IsLink id) :
    ∀ id ∈ live, ¬ t.IsLink id → id ∈ call :: live' := by
  intro id inside no
  by_cases same : id = call
  · simp [same]
  have old : id ∈ live.erase call := (List.mem_erase_of_ne same).2 inside
  rcases kept id (List.mem_cons_of_mem _ old) with stays | link
  · simp [stays]
  · exact absurd ((Revises.push forest.floor node).isLink (forest.bounds inside).2 link) no

theorem Revises.put_call (forest : Forest n t [call] roots live)
    (found : t.nodes[call]? = some (.expr (.call func args keywords))) :
    Revises n t (t.put call (.expr (.call func' args' keywords))) :=
  .put (forest.inside call (by simp)).1 found .call

theorem SyntaxTree.nodes_push_of_some {id : NodeId} {node : Node NodeId} (new : Node NodeId)
    (found : t.nodes[id]? = some node) : (t.push new).nodes[id]? = some node := by
  have bound : id < t.size := (Array.getElem?_eq_some_iff.1 found).1
  rw [nodes_push, if_neg (Nat.ne_of_lt bound), found]

theorem SyntaxTree.nodes_put_self {id : NodeId} {node new : Node NodeId}
    (found : t.nodes[id]? = some node) : (t.put id new).nodes[id]? = some new := by
  rw [nodes_put, if_pos ⟨rfl, (Array.getElem?_eq_some_iff.1 found).1⟩]

theorem setCallee_tends (forest : Forest n t [call]
      (func' :: (args ++ keywords.map Keyword.value) ++ roots) live)
    (found : t.nodes[call]? = some (.expr (.call func args keywords))) :
    Tends n (liftM (TreeM.setCallee call func')) t fun _ t' => Forest n t' [] roots (call :: live) := by
  refine .treeM ?_
  rw [run_setCallee found]
  exact ⟨.put_call forest found, forest.fill_call⟩

theorem modifyArgs_tends {f : List NodeId → List NodeId} (forest : Forest n t [call]
      (func :: (f args ++ keywords.map Keyword.value) ++ roots) live)
    (found : t.nodes[call]? = some (.expr (.call func args keywords))) :
    Tends n (liftM (TreeM.modifyArgs call f)) t fun _ t' => Forest n t' [] roots (call :: live) := by
  refine .treeM ?_
  rw [run_modifyArgs found]
  exact ⟨.put_call forest found, forest.fill_call⟩

theorem controlPlainCall_tends (control name : String) (forest : Forest n t [] roots live)
    (member : call ∈ live) (found : t.nodes[call]? = some (.expr (.call func args keywords))) :
    Tends n (LowerM.controlPlainCall control name call func) t fun _ t' =>
      Regrown n roots t live t' := by
  have dug := forest.dig_call member found
  have wrapped := Forest.push (.expr (.functor .controlled func)) (_ ++ roots) dug
  unfold LowerM.controlPlainCall
  refine Tends.run_bind (TreeM.run_addFunctor ..) (.push forest.floor _) ?_
  refine Tends.tree_bind (Tends.except_bind ?_)
  rintro ⟨chain, base⟩ -
  refine Tends.operations_bind fun known => Tends.variant_bind fun _ => ?_
  have named := Forest.push (.expr (.name control)) (_ :: _) wrapped
  refine Tends.run_bind (TreeM.run_addName control) (.push wrapped.floor _) ?_
  have there := SyntaxTree.nodes_push_of_some (.expr (.name control))
    (SyntaxTree.nodes_push_of_some (.expr (.functor .controlled func)) found)
  refine Tends.run_bind (run_setCallee there _) (.put_call named there) ?_
  have called := named.put (.expr (.call t.size args keywords))
  refine (modifyArgs_tends (called.perm (List.Perm.swap ..))
    (SyntaxTree.nodes_put_self there)).mono fun _ t' _ filled => ⟨_, filled, fun id inside _ => ?_⟩
  by_cases same : id = call
  · simp [same]
  · simp [(List.mem_erase_of_ne same).2 inside]

theorem run_mergeControl_cases (t : SyntaxTree) (existing new : NodeId) :
    (∃ e, TreeM.mergeControl existing new t = .error e t) ∨
      ∃ ids members, t.controls existing = .ok ids ∧ t.dedupe (new :: ids) = .ok members ∧
        TreeM.mergeControl existing new t = .ok t.size (t.push (.expr (.aggregate members))) := by
  unfold TreeM.mergeControl
  rw [TreeM.run_bind TreeM.run_get]
  cases listed : t.controls existing with
  | error e => exact .inl ⟨e, rfl⟩
  | ok ids =>
    rw [TreeM.run_bind (TreeM.run_lift rfl)]
    cases deduped : t.dedupe (new :: ids) with
    | error e => exact .inl ⟨e, rfl⟩
    | ok members =>
      rw [TreeM.run_bind (TreeM.run_lift rfl)]
      exact .inr ⟨ids, members, rfl, deduped, rfl⟩

theorem controlControlledCall_tends (control name : String) (forest : Forest n t [] roots live)
    (member : call ∈ live) (found : t.nodes[call]? = some (.expr (.call func args keywords))) :
    Tends n (LowerM.controlControlledCall control name call) t fun _ t' =>
      Regrown n roots t live t' := by
  unfold LowerM.controlControlledCall
  refine Tends.expr_bind fun e same => ?_
  obtain rfl : e = .call func args keywords := by simpa using same.symm.trans found
  cases args with
  | nil => exact .throw _
  | cons existing args =>
    have dug := forest.dig_call member found
    have named := Forest.push (.expr (.name control))
      (func :: (existing :: args ++ keywords.map Keyword.value) ++ roots) dug
    refine Tends.run_bind (TreeM.run_addName control) (.push forest.floor _) ?_
    have there := SyntaxTree.nodes_push_of_some (.expr (.name control)) found
    rcases run_mergeControl_cases (t.push (.expr (.name control))) existing t.size with
      ⟨e, failed⟩ | ⟨ids, members, listed, deduped, merged⟩
    · exact .failed_bind failed
    have order : (t.size :: (func :: (existing :: args ++ keywords.map Keyword.value) ++ roots)).Perm
        (existing :: (t.size :: func :: (args ++ keywords.map Keyword.value) ++ roots)) :=
      @List.perm_middle _ existing [t.size, func] _
    have solid : ∀ hole ∈ [call], ¬ (t.push (.expr (.name control))).IsLink hole := by
      simpa using not_isLink_call there
    obtain ⟨live', unlinked, kept⟩ := (named.perm order).controls solid listed
    have fewer : (members ++ (func :: (args ++ keywords.map Keyword.value) ++ roots)).Subperm
        (ids ++ (t.size :: func :: (args ++ keywords.map Keyword.value) ++ roots)) := by
      have sublist := (SyntaxTree.dedupe_sublist deduped).append_right
        (func :: (args ++ keywords.map Keyword.value) ++ roots)
      exact sublist.subperm.trans (@List.perm_middle _ t.size ids _).symm.subperm
    have aggregated := Forest.push (.expr (.aggregate members)) _ (unlinked.subperm fewer)
    refine Tends.run_bind merged (.push unlinked.floor _) ?_
    have keeps := forest.keeps_call kept
    exact (modifyArgs_tends (aggregated.perm (List.Perm.swap ..))
      (SyntaxTree.nodes_push_of_some _ there)).mono fun _ t' _ filled => ⟨_, filled,
        fun id inside no => List.cons_subset_cons call (List.subset_cons_self _ _) (keeps id inside no)⟩

theorem run_wrap_forest {holes : List NodeId} (chain : List GateFunctor) {base : NodeId}
    (forest : Forest n t holes (base :: roots) live) :
    ∃ top t' live', chain.foldrM TreeM.addFunctor base t = .ok top t' ∧ Extends [] t t' ∧
      Forest n t' holes (top :: roots) live' ∧ live ⊆ live' := by
  induction chain with
  | nil => exact ⟨base, t, live, rfl, .refl .., forest, fun _ member => member⟩
  | cons f chain ih =>
    obtain ⟨top, t', live', ran, ext, forest', kept⟩ := ih
    have wrapped := Forest.push (.expr (.functor f top)) _ forest'
    refine ⟨t'.size, _, _, ?_, ext.trans (Becomes.push t' (.expr (.functor f top))).ext (by simp),
      wrapped, fun id member => List.mem_cons_of_mem _ (kept member)⟩
    rw [List.foldrM_cons, TreeM.run_bind ran]
    exact TreeM.run_addFunctor ..

theorem run_cancel_forest {hole callee : NodeId} (forest : Forest n t [hole] (callee :: roots) live)
    (solid : ¬ t.IsLink hole) :
    (∃ e, TreeM.cancelAdjointPairs callee t = .error e t) ∨
      ∃ top t' live', TreeM.cancelAdjointPairs callee t = .ok top t' ∧ Extends [] t t' ∧
        Forest n t' [hole] (top :: roots) live' ∧ ∀ id ∈ live, id ∈ live' ∨ t.IsLink id := by
  unfold TreeM.cancelAdjointPairs
  rw [TreeM.run_bind TreeM.run_get]
  cases looked : t.chain callee with
  | error e => exact .inl ⟨e, rfl⟩
  | ok found =>
    obtain ⟨chain, base⟩ := found
    rw [TreeM.run_bind (TreeM.run_lift rfl)]
    by_cases same : (GateFunctor.reduceChain chain).length = chain.length
    · simp only [same, ↓reduceIte]
      exact .inr ⟨callee, t, live, rfl, .refl .., forest, fun id member => .inl member⟩
    · simp only [same, ↓reduceIte]
      obtain ⟨live', unlinked, kept⟩ := forest.base (by simpa using solid) looked
      obtain ⟨top, t', live'', ran, ext, forest', more⟩ :=
        run_wrap_forest (GateFunctor.reduceChain chain) unlinked
      exact .inr ⟨top, t', live'', ran, ext, forest', fun id member =>
        (kept id member).imp (fun stays => more stays) fun link => link⟩

theorem exists_call_of_callee (looked : t.callee call = .ok func) :
    ∃ args keywords, t.nodes[call]? = some (.expr (.call func args keywords)) := by
  unfold SyntaxTree.callee SyntaxTree.expr at looked
  cases found : t.nodes[call]? with
  | none => simp [found, Bind.bind, Except.bind] at looked
  | some node =>
    cases node with
    | stmt s => simp [found, Bind.bind, Except.bind] at looked
    | expr e =>
      simp only [found, Bind.bind, Except.bind] at looked
      cases e with
      | call func' args keywords =>
        cases looked
        exact ⟨args, keywords, rfl⟩
      | _ => cases looked

theorem adjointCall_tends (forest : Forest n t [] roots live) (tracked : Tracked t live call) :
    Tends n (LowerM.adjointCall call) t fun _ t' => Regrown n roots t live t' := by
  unfold LowerM.adjointCall
  refine Tends.tree_bind (Tends.except_bind fun func looked => Tends.tree_bind
    (Tends.except_bind fun name? _ => ?_))
  obtain ⟨args, keywords, found⟩ := exists_call_of_callee looked
  cases name? with
  | none => exact .pure forest.regrown
  | some name =>
    refine Tends.operations_bind fun known => ?_
    split
    case isFalse => exact .pure forest.regrown
    have member := mem_of_call tracked found
    have dug := forest.dig_call member found
    have wrapped := Forest.push (.expr (.functor .adjoint func)) (_ ++ roots) dug
    refine Tends.run_bind (TreeM.run_addFunctor ..) (.push forest.floor _) ?_
    have there := SyntaxTree.nodes_push_of_some (.expr (.functor .adjoint func)) found
    rcases run_cancel_forest wrapped (not_isLink_call there) with
      ⟨e, failed⟩ | ⟨top, t', live', ran, ext, reduced, kept⟩
    · exact .failed_bind failed
    refine Tends.run_bind ran (.of_extends ext wrapped.floor) ?_
    refine Tends.tree_bind (Tends.except_bind ?_)
    rintro ⟨chain, base⟩ -
    refine Tends.operations_bind fun known => Tends.variant_bind fun _ => ?_
    have there' : t'.nodes[call]? = some (.expr (.call func args keywords)) := by
      rw [ext.same call (Array.getElem?_eq_some_iff.1 there).1 (by simp), there]
    exact (setCallee_tends reduced there').mono fun _ _ _ filled =>
      ⟨_, filled, forest.keeps_call kept⟩

theorem controlCall_tends (control : String) (forest : Forest n t [] roots live)
    (tracked : Tracked t live call) :
    Tends n (LowerM.controlCall control call) t fun _ t' => Regrown n roots t live t' := by
  unfold LowerM.controlCall
  refine Tends.tree_bind (Tends.except_bind fun func looked => Tends.tree_bind
    (Tends.except_bind fun name? _ => ?_))
  obtain ⟨args, keywords, found⟩ := exists_call_of_callee looked
  cases name? with
  | none => exact .pure forest.regrown
  | some name =>
    refine Tends.operations_bind fun known => ?_
    split
    case isFalse => exact .pure forest.regrown
    have member := mem_of_call tracked found
    refine Tends.tree_bind (Tends.except_bind fun signature _ => ?_)
    cases signature with
    | identity => exact controlPlainCall_tends control name forest member found
    | controlled => exact controlControlledCall_tends control name forest member found

end Calls

section Statements

variable {n : Nat} {t : SyntaxTree} {roots live : List NodeId} {act : NodeId → LowerM Unit}
  {reversed : SyntaxTree → Options → NodeId → Except TreeError Bool}

def Reshapes (n : Nat) (roots : List NodeId) (act : NodeId → LowerM Unit) : Prop :=
  ∀ id t live, Forest n t [] roots live → Tracked t live id →
    Tends n (act id) t fun _ t' => Regrown n roots t live t'

theorem Forest.covers (forest : Forest n t [] roots live) {u : Unfolding} (spans : Spans t u)
    (member : u.root ∈ live) : ∀ id ∈ u.ids, id ∈ live := by
  induction spans with
  | @node id parts node found kids _ ih =>
    intro other inside
    rw [Unfolding.ids, List.mem_cons] at inside
    rcases inside with rfl | inside
    · exact member
    · obtain ⟨ids, listed, within⟩ := List.mem_flatten.1 inside
      obtain ⟨u, part, rfl⟩ := List.mem_map.1 listed
      refine ih u part (forest.ref_mem (show id ∈ live from member) ?_) other within
      rw [SyntaxTree.refs_eq found, kids]
      exact List.mem_map_of_mem part

theorem mem_of_filterM {p : NodeId → Except TreeError Bool} {ids kept : List NodeId}
    (ran : ids.filterM p = .ok kept) : ∀ id ∈ kept, id ∈ ids := by
  have each : ∀ (ids before kept : List NodeId), ids.filterAuxM p before = .ok kept →
      ∀ id ∈ kept, id ∈ before ∨ id ∈ ids := by
    intro ids
    induction ids with
    | nil =>
      intro before kept ran id member
      cases ran
      exact .inl member
    | cons head ids ih =>
      intro before kept ran id member
      rw [List.filterAuxM] at ran
      cases found : p head with
      | error e => simp [found, Bind.bind, Except.bind] at ran
      | ok keeps =>
        simp only [found, Bind.bind, Except.bind] at ran
        rcases ih _ kept ran id member with inside | later
        · cases keeps with
          | false => exact .inl inside
          | true =>
            rcases List.mem_cons.1 inside with rfl | old
            · exact .inr List.mem_cons_self
            · exact .inl old
        · exact .inr (List.mem_cons_of_mem _ later)
  intro id member
  unfold List.filterM at ran
  cases walked : ids.filterAuxM p [] with
  | error e => simp [walked, Bind.bind, Except.bind] at ran
  | ok found =>
    simp only [walked, Bind.bind, Except.bind, Pure.pure, Except.pure, Except.ok.injEq] at ran
    subst ran
    simpa using each ids [] found walked id (by simpa using member)

theorem changeCalls_tends (reshapes : Reshapes n roots act) (forest : Forest n t [] roots live)
    {value : NodeId} (member : value ∈ live) :
    Tends n (LowerM.changeCalls act value) t fun _ t' => Regrown n roots t live t' := by
  unfold LowerM.changeCalls
  refine Tends.tree_bind (Tends.except_bind fun calls listed => ?_)
  refine Tends.forM forest (fun call inside _ => ?_) reshapes
  unfold SyntaxTree.callsIn at listed
  cases walked : t.subtree value with
  | error e => simp [walked, Bind.bind, Except.bind] at listed
  | ok ids =>
    rw [walked] at listed
    obtain ⟨u, spans, rfl, rfl⟩ := Spans.exists_of_subtree walked
    exact forest.covers spans member call (mem_of_filterM listed call inside)

theorem setScopedBody_tends {id context : NodeId} {binding : Option NodeId} {body body' : List NodeId}
    (forest : Forest n t [] roots live) (member : id ∈ live)
    (found : t.nodes[id]? = some (.stmt (.scoped context binding body))) (order : body.Perm body') :
    Tends n (liftM (TreeM.setScopedBody id body')) t fun _ t' => Regrown n roots t live t' := by
  have bounds := forest.bounds member
  have dug := forest.dig member
  rw [SyntaxTree.refs_eq found] at dug
  have reordered : ((Stmt.scoped context binding body).children ++ roots).Perm
      ((Stmt.scoped context binding body').children ++ roots) :=
    List.Perm.append_right roots ((order.append_left _).cons context)
  have filled : Forest n (t.put id (.stmt (.scoped context binding body'))) [] roots
      (id :: live.erase id) := by
    refine Forest.fill ?_
    rw [SyntaxTree.refs_put_self bounds.2]
    exact (dug.perm reordered).put _
  refine .treeM ?_
  rw [run_setScopedBody found]
  refine ⟨.put bounds.1 found (.scope order.symm), _, filled, fun other inside _ => ?_⟩
  by_cases same : other = id
  · simp [same]
  · exact List.mem_cons_of_mem _ ((List.mem_erase_of_ne same).2 inside)

theorem changeStatement_tends (reshapes : Reshapes n roots act) (depth : Nat) :
    Reshapes n roots (LowerM.changeStatementWithin act reversed depth) := by
  induction depth with
  | zero => exact fun _ _ _ _ _ => .throw _
  | succ depth ih =>
    intro id t live forest tracked
    unfold LowerM.changeStatementWithin
    refine Tends.stmt_bind fun s found => ?_
    have solid : ¬ t.IsLink id := by
      rintro ⟨node, found', link⟩
      obtain rfl := Option.some.inj (found.symm.trans found')
      cases link
    have member := tracked solid
    have parts : ∀ part ∈ s.children, part ∈ live := fun part listed =>
      forest.ref_mem member (by rwa [SyntaxTree.refs_eq found])
    have block : ∀ body : List NodeId, (∀ part ∈ body, part ∈ s.children) → ∀ t' live',
        Revises n t t' → Forest n t' [] roots live' → (∀ id ∈ live, ¬ t.IsLink id → id ∈ live') →
        Tends n (body.forM (LowerM.changeStatementWithin act reversed depth)) t' fun _ t'' =>
          Regrown n roots t' live' t'' := by
      intro body listed t' live' revises forest' kept
      refine Tends.forM forest' (fun part inside => ?_) ih
      exact Tracked.keep (fun _ => parts part (listed part inside)) revises kept
    cases s with
    | importAs _ _ | define _ | classDef _ _ | wire _ _ _ | pass => exact .pure forest.regrown
    | expr value => exact changeCalls_tends reshapes forest (parts value (by simp [Stmt.children]))
    | assign target value =>
      exact changeCalls_tends reshapes forest (parts value (by simp [Stmt.children]))
    | conditional test body orelse =>
      refine Tends.bind (block body (by simp +contextual [Stmt.children]) t live (.refl n t) forest
        fun _ inside _ => inside) ?_
      rintro ⟨⟩ t' revises ⟨live', forest', kept⟩
      exact (block orelse (by simp +contextual [Stmt.children]) t' live' revises forest' kept).mono
        fun _ _ _ later => .trans forest revises kept later
    | «scoped» context binding body =>
      refine Tends.tree_bind (Tends.options_bind fun o => Tends.except_bind fun reverses _ => ?_)
      refine Tends.bind (block body (by simp +contextual [Stmt.children]) t live (.refl n t) forest
        fun _ inside _ => inside) ?_
      rintro ⟨⟩ t' revises ⟨live', forest', kept⟩
      cases reverses with
      | false => exact .pure ⟨live', forest', kept⟩
      | true =>
        obtain ⟨body', found', order⟩ : ∃ body',
            t'.nodes[id]? = some (.stmt (.scoped context binding body')) ∧ body'.Perm body := by
          obtain ⟨node', found', revised⟩ := revises.revised id _ found
          cases revised with
          | same => exact ⟨body, found', .refl _⟩
          | scope order => exact ⟨_, found', order⟩
        exact (setScopedBody_tends forest' (kept id member solid) found'
          (order.trans (List.reverse_perm body).symm)).mono
            fun _ _ _ later => .trans forest revises kept later

end Statements

def LowerM.derive : GateFunctor → Definition NodeId → LowerM (Definition NodeId)
  | .adjoint => deriveAdjoint
  | .controlled => deriveControlled

section Derived

variable {n : Nat} {t : SyntaxTree}

theorem copyBlock_tends (floor : n ≤ t.size) (ids : List NodeId) :
    Tends n (liftM (TreeM.copyBlock ids)) t fun roots t' => ∃ live, Forest n t' [] roots live := by
  refine .treeM ?_
  have planted := copyBlock_plants ids (Forest.empty floor)
  cases ran : TreeM.copyBlock ids t with
  | error e t' =>
    rw [ran] at planted
    exact .of_extends planted floor
  | ok roots t' =>
    rw [ran] at planted
    obtain ⟨ext, live, forest⟩ := planted
    rw [List.append_nil] at forest
    exact ⟨.of_extends ext floor, live, forest⟩

theorem adjointBlock_tends {roots live : List NodeId} (forest : Forest n t [] roots live) :
    Tends n (LowerM.adjointBlock roots) t fun body t' => ∃ live', Forest n t' [] body live' := by
  unfold LowerM.adjointBlock
  simp only [LowerM.adjointStatementWithin_eq]
  refine Tends.tree_bind (Tends.bind (Tends.forM forest (fun id inside _ => ?_)
    (changeStatement_tends (fun _ _ _ => adjointCall_tends) _)) ?_)
  · simpa using forest.closed id (by simp [inside])
  · rintro ⟨⟩ t' - ⟨live', forest', -⟩
    exact .pure ⟨live', forest'.perm (List.reverse_perm roots).symm⟩

theorem controlBlock_tends (control : String) {roots live : List NodeId}
    (forest : Forest n t [] roots live) :
    Tends n (LowerM.controlBlock control roots) t fun _ t' => ∃ live', Forest n t' [] roots live' := by
  unfold LowerM.controlBlock
  simp only [LowerM.controlStatementWithin_eq]
  refine Tends.tree_bind ((Tends.forM forest (fun id inside _ => ?_)
    (changeStatement_tends (fun _ _ _ => controlCall_tends control) _)).mono ?_)
  · simpa using forest.closed id (by simp [inside])
  · rintro ⟨⟩ t' - ⟨live', forest', -⟩
    exact ⟨live', forest'⟩

/-- Whether it succeeds or not, a derivation revises no node that was there, and the body it derives
is a forest of new nodes. -/
theorem derive_tends (f : GateFunctor) (d : Definition NodeId) (t : SyntaxTree) :
    Tends t.size (LowerM.derive f d) t fun derived t' =>
      ∃ live, Forest t.size t' [] derived.body live := by
  cases f with
  | adjoint =>
    refine Tends.bind (copyBlock_tends (Nat.le_refl _) d.body) fun roots t₁ _ => ?_
    rintro ⟨live, forest⟩
    refine Tends.bind (adjointBlock_tends forest) fun body t₂ _ reversed => ?_
    exact Tends.contextM_bind fun name => Tends.contextM_bind fun _ => .pure reversed
  | controlled =>
    refine Tends.bind (copyBlock_tends (Nat.le_refl _) d.body) fun roots t₁ _ => ?_
    rintro ⟨live, forest⟩
    refine Tends.options_bind fun o => Tends.contextM_bind fun control => ?_
    refine Tends.bind (controlBlock_tends control forest) fun _ t₂ _ controlled => ?_
    exact Tends.context_bind fun c => Tends.contextM_bind fun name =>
      Tends.contextM_bind fun _ => .pure controlled

theorem Revises.extends {t' : SyntaxTree} (revises : Revises t.size t t') : Extends [] t t' :=
  ⟨revises.size_le, revises.body_eq, fun id bound _ => revises.same id bound⟩

end Derived

/-- Deriving a form of a definition keeps every node and the module's body, whether it succeeds or not.
The nodes that are reached from the derived body are new, each is reached in one way only, and none is
reached from the body of the definition. -/
theorem derive_separate (f : GateFunctor) (d : Definition NodeId) (t : SyntaxTree) (c : Context)
    {below : List (List NodeId)} (finite : d.body.mapM t.subtree = .ok below) :
    Extends [] t ((LowerM.derive f d).final ⟨t, c⟩).tree ∧
      ∀ derived s, LowerM.derive f d ⟨t, c⟩ = .ok derived s →
        ∃ below', derived.body.mapM s.tree.subtree = .ok below' ∧ below'.flatten.Nodup ∧
          (∀ id ∈ below'.flatten, t.size ≤ id ∧ id < s.tree.size) ∧
          s.tree.sharesNodes d.body derived.body = .ok false := by
  obtain ⟨revises, grown⟩ := derive_tends f d t c
  refine ⟨revises.extends, fun derived s ran => ?_⟩
  have ext : Extends [] t s.tree := by
    have kept := revises.extends
    unfold LowerM.final at kept
    rwa [ran] at kept
  obtain ⟨live, forest⟩ := grown derived s ran
  obtain ⟨us, roots, spans, once, inside⟩ := forest.exists_unfoldings
  have new : ∀ id ∈ us.flatMap Unfolding.ids, t.size ≤ id ∧ id < s.tree.size := fun id member =>
    forest.bounds (inside id member)
  obtain ⟨vs, oldRoots, -, oldSpans⟩ :=
    Spans.exists_of_roots finite fun _ _ walked => Spans.exists_of_subtree walked
  have old : ∀ id ∈ (vs.map Unfolding.ids).flatten, id < t.size := by
    intro id member
    obtain ⟨v, listed, member⟩ := List.mem_flatMap.1 (List.flatMap_def ▸ member)
    obtain ⟨node, found, -⟩ := (oldSpans v listed).exists_node member
    exact (Array.getElem?_eq_some_iff.1 found).1
  have reached := Spans.mapM_subtree fun v member => (oldSpans v member).of_extends ext
  refine ⟨us.map Unfolding.ids, roots ▸ Spans.mapM_subtree spans, ?_, ?_, ?_⟩
  · rwa [← List.flatMap_def]
  · rwa [← List.flatMap_def]
  · rw [SyntaxTree.sharesNodes, ← oldRoots, ← roots]
    simp only [reached, Bind.bind, Except.bind]
    exact SyntaxTree.meets_eq_false old spans fun u member id inside =>
      (new id (List.mem_flatMap.2 ⟨u, member, inside⟩)).1

/-- A body with one statement in two places, whose callee is under an adjoint already. -/
theorem derive_separate_shared :
    let t : SyntaxTree := ⟨#[.expr (.name "R1"), .expr (.functor .adjoint 0), .expr (.name "q"),
      .expr (.call 1 [2] []), .stmt (.expr 3)], []⟩
    let d : Definition NodeId := ⟨"f", ["q"], [4, 4], none⟩
    d.body.mapM t.subtree = .ok [[4, 3, 1, 0, 2], [4, 3, 1, 0, 2]] ∧
      ∀ f, ∃ derived s, LowerM.derive f d ⟨t, .new .default⟩ = .ok derived s ∧
        ∃ below', derived.body.mapM s.tree.subtree = .ok below' ∧ below'.flatten.Nodup ∧
          (∀ id ∈ below'.flatten, t.size ≤ id ∧ id < s.tree.size) ∧
          s.tree.sharesNodes d.body derived.body = .ok false := by
  intro t d
  have finite : d.body.mapM t.subtree = .ok [[4, 3, 1, 0, 2], [4, 3, 1, 0, 2]] := by decide +kernel
  refine ⟨finite, fun f => ?_⟩
  have succeeds : LowerM.succeeds (LowerM.derive f d) ⟨t, .new .default⟩ := by
    cases f <;> decide +kernel
  obtain ⟨derived, s, ran⟩ := LowerM.exists_of_succeeds succeeds
  exact ⟨derived, s, ran, (derive_separate f d t (.new .default) finite).2 derived s ran⟩

end QuantumLowering
