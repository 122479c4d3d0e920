import Mathlib.Data.List.Forall2
import QuantumLowering.Proofs.Lowering.ControlledCalls
import QuantumLowering.Proofs.Syntax.Duplication
import QuantumLowering.Proofs.Syntax.Sameness

namespace QuantumLowering

section Firsts

variable {β : Type}

theorem firsts_eq_eraseDupsBy (r : β → β → Bool) (xs : List β) :
    firsts r xs = xs.eraseDupsBy fun x kept => r kept x := by
  have general : ∀ kept : List β,
      xs.foldl (fun kept x => if kept.any (r · x) then kept else kept ++ [x]) kept =
        List.eraseDupsBy.loop (fun x kept => r kept x) xs kept.reverse := by
    induction xs with
    | nil => simp [List.eraseDupsBy.loop]
    | cons x xs ih =>
      intro kept
      rw [List.foldl_cons, ih, List.eraseDupsBy.loop, List.any_reverse]
      cases kept.any (r · x) with
      | true => simp
      | false => simp
  exact general []

theorem firsts_cons (r : β → β → Bool) (x : β) (xs : List β) :
    firsts r (x :: xs) = x :: firsts r (xs.filter fun y => !r x y) := by
  simp [firsts_eq_eraseDupsBy, List.eraseDupsBy_cons]

theorem firsts_induct (r : β → β → Bool) {P : List β → Prop} (nil : P [])
    (cons : ∀ x xs, P (xs.filter fun y => !r x y) → P (x :: xs)) (xs : List β) : P xs :=
  match xs with
  | [] => nil
  | x :: xs => cons x xs (firsts_induct r nil cons _)
termination_by xs.length
decreasing_by exact Nat.lt_succ_of_le (List.length_filter_le ..)

theorem pairwise_firsts (r : β → β → Bool) (xs : List β) :
    (firsts r xs).Pairwise fun kept x => r kept x = false := by
  induction xs using firsts_induct r with
  | nil => exact .nil
  | cons x xs ih =>
    rw [firsts_cons]
    refine .cons (fun y member => ?_) ih
    simpa using (List.mem_filter.1 ((firsts_sublist r _).subset member)).2

theorem firsts_eq_self {r : β → β → Bool} {xs : List β}
    (apart : xs.Pairwise fun kept x => r kept x = false) : firsts r xs = xs := by
  induction apart with
  | nil => rfl
  | cons first _ ih =>
    rw [firsts_cons, List.filter_eq_self.2 fun y member => by simp [first y member], ih]

theorem firsts_congr {r r' : β → β → Bool} {xs : List β}
    (same : ∀ x ∈ xs, ∀ y ∈ xs, r x y = r' x y) : firsts r xs = firsts r' xs := by
  induction xs using firsts_induct r with
  | nil => rfl
  | cons x xs ih =>
    have rest : xs.filter (fun y => !r x y) = xs.filter fun y => !r' x y :=
      List.filter_congr fun y member => by rw [same x (by simp) y (by simp [member])]
    have within := ih fun y inside z inside' =>
      same y (List.mem_cons_of_mem _ (List.mem_of_mem_filter inside)) z
        (List.mem_cons_of_mem _ (List.mem_of_mem_filter inside'))
    rw [firsts_cons, firsts_cons, within, rest]

/-- Two lists without repetitions that meet each other's classes differ in order and choice only. -/
theorem exists_perm_of_classes {R : β → β → Prop} (equiv : Equivalence R) {xs ys : List β}
    (apart : xs.Pairwise fun x y => ¬ R x y) (apart' : ys.Pairwise fun x y => ¬ R x y)
    (meets : ∀ x ∈ xs, ∃ y ∈ ys, R x y) (met : ∀ y ∈ ys, ∃ x ∈ xs, R x y) :
    Relation.Comp (List.Forall₂ R) List.Perm xs ys := by
  classical
  induction apart generalizing ys with
  | nil =>
    cases ys with
    | nil => exact ⟨[], .nil, .nil⟩
    | cons y ys =>
      obtain ⟨x, ⟨⟩, -⟩ := met y (by simp)
  | @cons x xs first _ ih =>
    obtain ⟨y, inside, here⟩ := meets x (by simp)
    have order := List.perm_cons_erase inside
    have others := (order.pairwise_iff fun other => fun back => other (equiv.symm back)).1 apart'
    obtain ⟨alone, apart''⟩ := List.pairwise_cons.1 others
    have meets' : ∀ x' ∈ xs, ∃ y' ∈ ys.erase y, R x' y' := by
      intro x' member
      obtain ⟨y', inside', there⟩ := meets x' (List.mem_cons_of_mem _ member)
      refine ⟨y', ?_, there⟩
      rcases List.mem_cons.1 (order.mem_iff.1 inside') with rfl | rest
      · exact absurd (equiv.trans here (equiv.symm there)) (first x' member)
      · exact rest
    have met' : ∀ y' ∈ ys.erase y, ∃ x' ∈ xs, R x' y' := by
      intro y' member
      obtain ⟨x', inside', there⟩ := met y' (List.mem_of_mem_erase member)
      rcases List.mem_cons.1 inside' with rfl | rest
      · exact absurd (equiv.trans (equiv.symm here) there) (alone y' member)
      · exact ⟨x', rest, there⟩
    obtain ⟨zs, pairs, perm⟩ := ih apart'' meets' met'
    exact ⟨y :: zs, .cons here pairs, (perm.cons y).trans order.symm⟩

end Firsts

def Expr.listed? {ι : Type} : Expr ι → Option (List ι)
  | .list items => some items
  | .aggregate members => some members
  | _ => none

theorem Expr.children_of_listed? {ι : Type} {layer : Expr ι} {members : List ι}
    (group : layer.listed? = some members) : layer.children = members := by
  cases layer <;> cases group <;> rfl

namespace SyntaxTree

/-- Every reference below the expression leads to an expression, none is a NaN, and every way down
ends. -/
inductive Complete (t : SyntaxTree) : NodeId → Prop where
  | node {id : NodeId} {layer : Expr NodeId} (found : t.nodes[id]? = some (.expr layer))
    (free : (Node.expr layer).NaNFree)
    (below : ∀ part ∈ layer.children, Complete t part) : Complete t id

def IsSingle (t : SyntaxTree) (id : NodeId) : Prop :=
  ∃ layer, t.nodes[id]? = some (.expr layer) ∧ layer.listed? = none

/-- The single expressions in a list or an aggregate, at any depth and in order. -/
inductive Lists (t : SyntaxTree) : NodeId → List NodeId → Prop where
  | single {id : NodeId} (single : t.IsSingle id) : Lists t id [id]
  | group {id : NodeId} {layer : Expr NodeId} {members : List NodeId}
    {pick : NodeId → List NodeId} (found : t.nodes[id]? = some (.expr layer))
    (group : layer.listed? = some members) (below : ∀ m ∈ members, Lists t m (pick m)) :
    Lists t id (members.flatMap pick)

variable {t t' : SyntaxTree} {id : NodeId} {ids : List NodeId}

theorem Bounded.complete (bounded : t.Bounded id) (isExpr : t.IsExpr id)
    (kinded : ∀ (other : NodeId) (e : Expr NodeId), t.nodes[other]? = some (.expr e) →
      t.PartsKinded (.expr e))
    (free : ∀ (other : NodeId) (e : Expr NodeId), t.nodes[other]? = some (.expr e) →
      (Node.expr e).NaNFree) : t.Complete id := by
  induction bounded with
  | intro id _ ih =>
    obtain ⟨layer, found⟩ := isExpr
    refine .node found (free id layer found) fun part member =>
      ih part ?_ (kinded id layer found part member)
    rw [refs_eq found]
    exact member

theorem IsSingle.of_extends (single : t.IsSingle id) (ext : Extends [] t t') : t'.IsSingle id :=
  let ⟨layer, found, alone⟩ := single
  ⟨layer, ext.found found, alone⟩

namespace Complete

theorem of_extends (complete : t.Complete id) (ext : Extends [] t t') : t'.Complete id := by
  induction complete with
  | node found free _ ih => exact .node (ext.found found) free ih

theorem exists_unfolds (complete : t.Complete id) : ∃ x : Term, t.Unfolds id x ∧ x.NaNFree := by
  induction complete with
  | node found free _ ih =>
    obtain ⟨pick, below⟩ := exists_choice ih
    refine ⟨_, .node found fun part inside => (below part inside).1, Term.naNFree_node.2 ⟨?_, ?_⟩⟩
    · simpa [Node.NaNFree] using free
    · rw [Node.children_map, List.forall_mem_map]
      exact fun part inside => (below part inside).2

theorem exists_held (complete : t.Complete id) :
    ∃ e : ExprTree NodeId, e.label = id ∧ Holds t e.cells := by
  induction complete with
  | @node id layer found _ _ ih =>
    obtain ⟨pick, picked⟩ := exists_choice ih
    have labels : (layer.map pick).map ExprTree.label = layer := by
      rw [Expr.map_map]
      exact (Expr.map_congr fun part member => (picked part member).1).trans layer.map_id
    refine ⟨.node id (layer.map pick), rfl, ?_⟩
    simp only [ExprTree.cells_node, Holds.cons_iff, Holds.flatMap_iff, labels, Expr.children_map]
    refine ⟨found, fun e member => ?_⟩
    obtain ⟨part, inside, rfl⟩ := List.mem_map.1 member
    exact (picked part inside).2

end Complete

namespace Lists

theorem unique {ids' : List NodeId} (lists : t.Lists id ids) (lists' : t.Lists id ids') :
    ids = ids' := by
  induction lists generalizing ids' with
  | single single =>
    cases lists' with
    | single _ => rfl
    | group found group _ =>
      obtain ⟨layer, found', alone⟩ := single
      cases found.symm.trans found'
      cases group.symm.trans alone
  | group found group _ ih =>
    cases lists' with
    | single single =>
      obtain ⟨layer, found', alone⟩ := single
      cases found.symm.trans found'
      cases group.symm.trans alone
    | group found' group' below' =>
      cases found.symm.trans found'
      cases group.symm.trans group'
      exact List.flatMap_congr fun m member => ih m member (below' m member)

theorem isSingle (lists : t.Lists id ids) : ∀ leaf ∈ ids, t.IsSingle leaf := by
  induction lists with
  | single single => simpa using single
  | group _ _ _ ih =>
    intro leaf member
    obtain ⟨m, inside, listed⟩ := List.mem_flatMap.1 member
    exact ih m inside leaf listed

theorem complete (lists : t.Lists id ids) (complete : t.Complete id) :
    ∀ leaf ∈ ids, t.Complete leaf := by
  induction lists with
  | single _ => simpa using complete
  | group found group _ ih =>
    intro leaf member
    obtain ⟨m, inside, listed⟩ := List.mem_flatMap.1 member
    cases complete with
    | node found' _ below =>
      cases found.symm.trans found'
      rw [Expr.children_of_listed? group] at below
      exact ih m inside (below m inside) leaf listed

theorem of_members {members : List NodeId}
    (found : t.nodes[id]? = some (.expr (.aggregate members)))
    (singles : ∀ m ∈ members, t.IsSingle m) : t.Lists id members := by
  have lists : t.Lists id (members.flatMap fun m => [m]) :=
    .group found rfl fun m member => .single (singles m member)
  rwa [List.flatMap_singleton'] at lists

end Lists

end SyntaxTree

theorem Holds.lists {t : SyntaxTree} {e : ExprTree NodeId} (held : Holds t e.cells) :
    t.Lists e.label (e.leaves.map ExprTree.label) := by
  induction e using ExprTree.induct with
  | step id layer ih =>
    have found := held.expr_node
    have group : ∀ items : List (ExprTree NodeId), layer.children = items →
        (layer.map ExprTree.label).listed? = some (items.map ExprTree.label) →
        t.Lists id ((items.flatMap ExprTree.leaves).map ExprTree.label) := by
      rintro items rfl group
      have each : ∀ m ∈ layer.children.map ExprTree.label, ∃ ids, t.Lists m ids := by
        intro m member
        obtain ⟨item, inside, rfl⟩ := List.mem_map.1 member
        exact ⟨_, ih item inside (held.part inside)⟩
      obtain ⟨pick, below⟩ := exists_choice each
      have lists := SyntaxTree.Lists.group found group below
      rw [List.flatMap_map] at lists
      rw [List.map_flatMap]
      convert lists using 1
      exact List.flatMap_congr fun item inside =>
        (ih item inside (held.part inside)).unique (below _ (List.mem_map_of_mem inside))
    cases layer with
    | list items => exact ExprTree.leaves_list id items ▸ group items rfl rfl
    | aggregate items => exact ExprTree.leaves_aggregate id items ▸ group items rfl rfl
    | _ =>
      rw [ExprTree.leaves_of_ne (by simp [ExprTree.layer]) (by simp [ExprTree.layer])]
      exact .single ⟨_, found, rfl⟩

namespace SyntaxTree

variable {t t₀ : SyntaxTree} {id a b : NodeId} {ids : List NodeId}

theorem Complete.exists_lists (complete : t.Complete id) : ∃ ids, t.Lists id ids := by
  obtain ⟨e, rfl, held⟩ := complete.exists_held
  exact ⟨_, held.lists⟩

theorem Lists.controls_eq (lists : t.Lists id ids) (complete : t.Complete id) :
    t.controls id = .ok ids := by
  obtain ⟨e, rfl, held⟩ := complete.exists_held
  rw [held.controls_eq, lists.unique held.lists]

theorem Complete.same_cases (first : t.Complete a) (second : t.Complete b) :
    t.same a b = .ok true ∨ t.same a b = .ok false := by
  obtain ⟨x, unfolds, -⟩ := first.exists_unfolds
  obtain ⟨y, unfolds', -⟩ := second.exists_unfolds
  obtain ⟨r, ran, -⟩ := same_run unfolds unfolds'
  rw [ran]
  cases r <;> simp

theorem Complete.same_of_extends (first : t₀.Complete a) (second : t₀.Complete b)
    (ext : Extends [] t₀ t) : t.same a b = t₀.same a b := by
  obtain ⟨x, unfolds, -⟩ := first.exists_unfolds
  obtain ⟨y, unfolds', -⟩ := second.exists_unfolds
  obtain ⟨r, ran, holds⟩ := same_run unfolds unfolds'
  obtain ⟨r', ran', holds'⟩ := same_run (unfolds.of_extends ext) (unfolds'.of_extends ext)
  rw [ran, ran', Bool.eq_iff_iff.2 (holds'.trans holds.symm)]

theorem exists_terms (t : SyntaxTree) :
    ∃ read : NodeId → Term, ∀ id, t.Complete id → t.Unfolds id (read id) ∧ (read id).NaNFree := by
  obtain ⟨read, reads⟩ := Unfolds.exists_reading t
  refine ⟨read, fun id complete => ?_⟩
  obtain ⟨x, unfolds, free⟩ := complete.exists_unfolds
  rw [reads id x unfolds]
  exact ⟨unfolds, free⟩

/-- Sameness of complete expressions is part of an equivalence on all ids. -/
theorem exists_equivalence (t : SyntaxTree) : ∃ R : NodeId → NodeId → Prop, Equivalence R ∧
    ∀ a b, t.Complete a → t.Complete b → (t.same a b = .ok true ↔ R a b) := by
  obtain ⟨read, unfolds⟩ := t.exists_terms
  -- An id that stands for a term with a NaN, or for none, is related to itself alone.
  refine ⟨fun a b => a = b ∨ (read a).Alike (read b), ⟨fun a => .inl rfl, ?_, ?_⟩, ?_⟩
  · rintro a b (rfl | alike)
    · exact .inl rfl
    · exact .inr alike.symm
  · rintro a b c (rfl | alike) (rfl | alike')
    · exact .inl rfl
    · exact .inr alike'
    · exact .inr alike
    · exact .inr (alike.trans alike')
  · intro a b first second
    rw [same_iff (unfolds a first).1 (unfolds b second).1]
    refine ⟨.inr, ?_⟩
    rintro (rfl | alike)
    · exact Term.alike_self_iff.2 (unfolds a first).2
    · exact alike

theorem Complete.same_refl (complete : t.Complete id) : t.same id id = .ok true := by
  obtain ⟨R, equiv, alike⟩ := t.exists_equivalence
  exact (alike id id complete complete).2 (equiv.refl id)

theorem Complete.same_symm (first : t.Complete a) (second : t.Complete b)
    (same : t.same a b = .ok true) : t.same b a = .ok true := by
  obtain ⟨R, equiv, alike⟩ := t.exists_equivalence
  exact (alike b a second first).2 (equiv.symm ((alike a b first second).1 same))

theorem Complete.same_trans {c : NodeId} (first : t.Complete a) (second : t.Complete b)
    (third : t.Complete c) (same : t.same a b = .ok true) (same' : t.same b c = .ok true) :
    t.same a c = .ok true := by
  obtain ⟨R, equiv, alike⟩ := t.exists_equivalence
  exact (alike a c first third).2 (equiv.trans ((alike a b first second).1 same)
    ((alike b c second third).1 same'))

theorem same_aggregates {xs ys : List NodeId}
    (found : t.nodes[a]? = some (.expr (.aggregate xs)))
    (found' : t.nodes[b]? = some (.expr (.aggregate ys)))
    (complete : ∀ x ∈ xs, t.Complete x) (complete' : ∀ y ∈ ys, t.Complete y)
    (pairs : List.Forall₂ (fun x y => t.same x y = .ok true) xs ys) : t.same a b = .ok true := by
  obtain ⟨read, unfolds⟩ := t.exists_terms
  have top := Unfolds.node found fun part member => (unfolds part (complete part member)).1
  have top' := Unfolds.node found' fun part member => (unfolds part (complete' part member)).1
  rw [same_iff top top', Term.alike_map_iff]
  refine ⟨by simp [Node.sameHead, Expr.sameHead, pairs.length_eq], ?_⟩
  refine (forall₂_congr fun x member y member' => ?_).1 pairs
  exact same_iff (unfolds x (complete x member)).1 (unfolds y (complete' y member')).1

/-- The ids that are not the same as one before. -/
def distinct (t : SyntaxTree) (ids : List NodeId) : List NodeId :=
  ids.eraseDupsBy fun id kept => t.same kept id = .ok true

theorem distinct_eq (t : SyntaxTree) (ids : List NodeId) :
    t.distinct ids = firsts (fun kept id => decide (t.same kept id = .ok true)) ids :=
  (firsts_eq_eraseDupsBy _ ids).symm

theorem dedupe_eq (complete : ∀ id ∈ ids, t.Complete id) : t.dedupe ids = .ok (t.distinct ids) := by
  obtain ⟨pick, picked⟩ := exists_choice fun id member => (complete id member).exists_held
  have labels : (ids.map pick).map ExprTree.label = ids := by
    rw [List.map_map]
    exact (List.map_congr_left fun id member => (picked id member).1).trans (List.map_id ids)
  have helds : ∀ e ∈ ids.map pick, Holds t e.cells := by
    intro e member
    obtain ⟨id, inside, rfl⟩ := List.mem_map.1 member
    exact (picked id inside).2
  have deduped := Holds.dedupe_eq helds
  have firstOnes : firsts (fun a b => (pick a).same (pick b)) ids = t.distinct ids := by
    rw [distinct_eq]
    refine firsts_congr fun a first b second => ?_
    have same := (picked a first).2.same_eq (picked b second).2
    rw [(picked a first).1, (picked b second).1] at same
    rw [same]
    simp
  rw [labels, ← map_firsts, firstOnes, List.map_map] at deduped
  rw [deduped]
  refine congrArg Except.ok ((List.map_congr_left fun id member => ?_).trans (List.map_id _))
  have sublist := firsts_sublist (fun kept id => decide (t.same kept id = .ok true)) ids
  rw [← distinct_eq] at sublist
  exact (picked id (sublist.subset member)).1

theorem distinct_sublist (t : SyntaxTree) (ids : List NodeId) : (t.distinct ids).Sublist ids := by
  rw [distinct_eq]
  exact firsts_sublist ..

theorem pairwise_distinct (complete : ∀ id ∈ ids, t.Complete id) :
    (t.distinct ids).Pairwise fun kept id => t.same kept id = .ok false := by
  have apart := pairwise_firsts (fun kept id => decide (t.same kept id = .ok true)) ids
  rw [← distinct_eq] at apart
  refine apart.imp_of_mem fun {a b} first second other => ?_
  have inside := complete a ((distinct_sublist t ids).subset first)
  have inside' := complete b ((distinct_sublist t ids).subset second)
  exact (inside.same_cases inside').resolve_left (by simpa using other)

theorem exists_mem_distinct (complete : ∀ id ∈ ids, t.Complete id) (member : id ∈ ids) :
    ∃ kept ∈ t.distinct ids, t.same kept id = .ok true := by
  rw [distinct_eq]
  obtain ⟨kept, listed, alike⟩ :=
    exists_mem_firsts (fun kept id => decide (t.same kept id = .ok true)) member
  refine ⟨kept, listed, ?_⟩
  rcases alike with rfl | alike
  · exact (complete kept member).same_refl
  · exact of_decide_eq_true alike

theorem distinct_cons_of_same {rest : List NodeId} (complete : ∀ x ∈ b :: rest, t.Complete x)
    (completeNew : t.Complete a) (same : t.same a b = .ok true)
    (apart : (b :: rest).Pairwise fun kept id => t.same kept id = .ok false) :
    t.distinct (a :: b :: rest) = a :: rest := by
  obtain ⟨first, others⟩ := List.pairwise_cons.1 apart
  have completeFirst := complete b List.mem_cons_self
  have stays : ∀ x ∈ rest, ¬ t.same a x = .ok true := by
    intro x member back
    have met := completeFirst.same_trans completeNew (complete x (List.mem_cons_of_mem _ member))
      (completeNew.same_symm completeFirst same) back
    rw [first x member] at met
    cases met
  have kept : (b :: rest).filter (fun x => !decide (t.same a x = .ok true)) = rest := by
    rw [List.filter_cons_of_neg (by simp [same]), List.filter_eq_self]
    exact fun x member => by simp [stays x member]
  rw [distinct_eq, firsts_cons, kept, firsts_eq_self]
  exact others.imp fun other => by simp [other]

end SyntaxTree

/-- An aggregate of single expressions. -/
structure SyntaxTree.FlatAggregate (t : SyntaxTree) (id : NodeId) (members : List NodeId) :
    Prop where
  found : t.nodes[id]? = some (.expr (.aggregate members))
  complete : ∀ m ∈ members, t.Complete m
  singles : ∀ m ∈ members, t.IsSingle m

namespace SyntaxTree.FlatAggregate

variable {t t' : SyntaxTree} {id : NodeId} {members : List NodeId}

theorem of_extends (flat : t.FlatAggregate id members) (ext : Extends [] t t') :
    t'.FlatAggregate id members :=
  ⟨ext.found flat.found, fun m member => (flat.complete m member).of_extends ext,
    fun m member => (flat.singles m member).of_extends ext⟩

theorem complete_self (flat : t.FlatAggregate id members) : t.Complete id :=
  .node flat.found (fun _ inside => nomatch inside) flat.complete

theorem lists (flat : t.FlatAggregate id members) : t.Lists id members :=
  .of_members flat.found flat.singles

end SyntaxTree.FlatAggregate

namespace TreeM

variable {t : SyntaxTree} {existing control : NodeId} {leaves : List NodeId}

theorem run_merge (complete : t.Complete existing) (completeNew : t.Complete control)
    (lists : t.Lists existing leaves) : mergeControl existing control t =
      .ok t.size (t.push (.expr (.aggregate (t.distinct (control :: leaves))))) := by
  have all : ∀ id ∈ control :: leaves, t.Complete id :=
    List.forall_mem_cons.2 ⟨completeNew, lists.complete complete⟩
  unfold mergeControl
  rw [run_bind run_get, run_bind (run_lift (lists.controls_eq complete)),
    run_bind (run_lift (SyntaxTree.dedupe_eq all))]
  exact run_addExpr _

theorem flat_merge (complete : t.Complete existing) (completeNew : t.Complete control)
    (single : t.IsSingle control) (lists : t.Lists existing leaves) :
    (t.push (.expr (.aggregate (t.distinct (control :: leaves))))).FlatAggregate t.size
      (t.distinct (control :: leaves)) := by
  have ext := (Becomes.push t (.expr (.aggregate (t.distinct (control :: leaves))))).ext
  have inside := (t.distinct_sublist (control :: leaves)).subset
  refine ⟨by simp [SyntaxTree.nodes_push], fun m member => ?_, fun m member => ?_⟩
  · rcases List.mem_cons.1 (inside member) with rfl | listed
    · exact completeNew.of_extends ext
    · exact (lists.complete complete m listed).of_extends ext
  · rcases List.mem_cons.1 (inside member) with rfl | listed
    · exact single.of_extends ext
    · exact (lists.isSingle m listed).of_extends ext

theorem run_merge_again {t' : SyntaxTree} {id again : NodeId} {rest : List NodeId}
    (flat : t'.FlatAggregate id (control :: rest))
    (apart : (control :: rest).Pairwise fun a b => t'.same a b = .ok false)
    (complete : t'.Complete again) (same : t'.same again control = .ok true) :
    ∃ t'', mergeControl id again t' = .ok t'.size t'' ∧ t''.same id t'.size = .ok true := by
  have merged := run_merge flat.complete_self complete flat.lists
  rw [SyntaxTree.distinct_cons_of_same flat.complete complete same apart] at merged
  refine ⟨_, merged, ?_⟩
  have ext := (Becomes.push t' (.expr (.aggregate (again :: rest)))).ext
  have flat' := flat.of_extends ext
  obtain ⟨completeFirst, others⟩ := List.forall_mem_cons.1 flat'.complete
  have new : (t'.push (.expr (.aggregate (again :: rest)))).nodes[t'.size]? =
      some (.expr (.aggregate (again :: rest))) := by simp [SyntaxTree.nodes_push]
  refine SyntaxTree.same_aggregates flat'.found new flat'.complete
    (List.forall_mem_cons.2 ⟨complete.of_extends ext, others⟩) (.cons ?_ ?_)
  · refine (complete.of_extends ext).same_symm completeFirst ?_
    rw [complete.same_of_extends (flat.complete control List.mem_cons_self) ext, same]
  · exact List.forall₂_same.2 fun m member => (others m member).same_refl

/-- The members stand for the ids, each structure once. -/
structure Represents (t : SyntaxTree) (members ids : List NodeId) : Prop where
  subset : members ⊆ ids
  apart : members.Pairwise fun a b => t.same a b = .ok false
  covers : ∀ x ∈ ids, ∃ m ∈ members, t.same m x = .ok true

theorem represents_distinct {t₀ : SyntaxTree} {ids : List NodeId} (ext : Extends [] t₀ t)
    (known : ∀ x ∈ ids, t₀.Complete x) : Represents t₀ (t.distinct ids) ids := by
  have complete : ∀ x ∈ ids, t.Complete x := fun x member => (known x member).of_extends ext
  have inside := (t.distinct_sublist ids).subset
  refine ⟨inside, ?_, fun x member => ?_⟩
  · refine (SyntaxTree.pairwise_distinct complete).imp_of_mem fun {a b} first second apart => ?_
    rwa [← (known a (inside first)).same_of_extends (known b (inside second)) ext]
  · obtain ⟨kept, listed, same⟩ := SyntaxTree.exists_mem_distinct complete member
    exact ⟨kept, listed, by
      rwa [← (known kept (inside listed)).same_of_extends (known x member) ext]⟩

theorem Represents.trans {members between ids more : List NodeId}
    (known : ∀ x ∈ more ++ ids, t.Complete x) (last : Represents t members (more ++ between))
    (first : Represents t between ids) : Represents t members (more ++ ids) := by
  have inside : members ⊆ more ++ ids := by
    intro m member
    rcases List.mem_append.1 (last.subset member) with listed | listed
    · exact List.mem_append_left _ listed
    · exact List.mem_append_right _ (first.subset listed)
  refine ⟨inside, last.apart, fun x member => ?_⟩
  rcases List.mem_append.1 member with listed | listed
  · exact last.covers x (List.mem_append_left _ listed)
  · obtain ⟨b, there, same⟩ := first.covers x listed
    obtain ⟨m, kept, same'⟩ := last.covers b (List.mem_append_right _ there)
    have between := known b (List.mem_append_right _ (first.subset there))
    exact ⟨m, kept, (known m (inside kept)).same_trans between (known x member) same' same⟩

theorem Represents.of_mem_iff {members ids ids' : List NodeId}
    (represents : Represents t members ids) (same : ∀ x, x ∈ ids ↔ x ∈ ids') :
    Represents t members ids' :=
  ⟨fun x member => (same x).1 (represents.subset member), represents.apart,
    fun x member => represents.covers x ((same x).2 member)⟩

theorem Represents.comp_perm {members members' ids : List NodeId}
    (known : ∀ x ∈ ids, t.Complete x) (first : Represents t members ids)
    (second : Represents t members' ids) :
    Relation.Comp (List.Forall₂ fun a b => t.same a b = .ok true) List.Perm members members' := by
  obtain ⟨R, equiv, alike⟩ := t.exists_equivalence
  have inside : ∀ m ∈ members, t.Complete m := fun m member => known m (first.subset member)
  have inside' : ∀ m ∈ members', t.Complete m := fun m member => known m (second.subset member)
  have separate : ∀ ms : List NodeId, (∀ m ∈ ms, t.Complete m) →
      (ms.Pairwise fun a b => t.same a b = .ok false) → ms.Pairwise fun a b => ¬ R a b := by
    intro ms complete apart
    refine apart.imp_of_mem fun {a b} here there other => ?_
    rw [← alike a b (complete a here) (complete b there), other]
    simp
  obtain ⟨zs, pairs, perm⟩ := exists_perm_of_classes equiv (separate members inside first.apart)
    (separate members' inside' second.apart)
    (fun m member => by
      obtain ⟨m', listed, same⟩ := second.covers m (first.subset member)
      exact ⟨m', listed, equiv.symm ((alike m' m (inside' m' listed) (inside m member)).1 same)⟩)
    fun m' member => by
      obtain ⟨m, listed, same⟩ := first.covers m' (second.subset member)
      exact ⟨m, listed, (alike m m' (inside m listed) (inside' m' member)).1 same⟩
  refine ⟨zs, (forall₂_congr fun x member z listed => ?_).2 pairs, perm⟩
  exact alike x z (inside x member) (inside' z (perm.mem_iff.1 listed))

theorem run_merges {t₀ : SyntaxTree} {k : NodeId} {ks : List NodeId} (ext : Extends [] t₀ t)
    (controls : ∀ x ∈ k :: ks, t₀.Complete x ∧ t₀.IsSingle x) (complete : t.Complete existing)
    (lists : t.Lists existing leaves) (known : ∀ leaf ∈ leaves, t₀.Complete leaf) :
    ∃ top t' members, (k :: ks).foldlM mergeControl existing t = .ok top t' ∧
      t'.FlatAggregate top members ∧ Represents t₀ members (k :: ks ++ leaves) := by
  induction ks generalizing t existing leaves k with
  | nil =>
    obtain ⟨completeNew, single⟩ := controls k List.mem_cons_self
    have merged := run_merge complete (completeNew.of_extends ext) lists
    refine ⟨_, _, _, ?_, flat_merge complete (completeNew.of_extends ext)
      (single.of_extends ext) lists, ?_⟩
    · rw [List.foldlM_cons, run_bind merged]
      rfl
    · exact represents_distinct ext (List.forall_mem_cons.2 ⟨completeNew, known⟩)
  | cons k' ks ih =>
    obtain ⟨completeNew, single⟩ := controls k List.mem_cons_self
    have merged := run_merge complete (completeNew.of_extends ext) lists
    have flat := flat_merge complete (completeNew.of_extends ext) (single.of_extends ext) lists
    have grown := (Becomes.push t (.expr (.aggregate (t.distinct (k :: leaves))))).ext
    have all : ∀ x ∈ k :: leaves, t₀.Complete x := List.forall_mem_cons.2 ⟨completeNew, known⟩
    have first := represents_distinct ext all
    obtain ⟨top, t', members, ran, flat', rest⟩ := ih (ext.trans grown (by simp))
      (fun x member => controls x (List.mem_cons_of_mem _ member)) flat.complete_self flat.lists
      fun leaf listed => all leaf (first.subset listed)
    refine ⟨top, t', members, ?_, flat', ?_⟩
    · rw [List.foldlM_cons, run_bind merged]
      exact ran
    · have every : ∀ x ∈ k' :: ks ++ (k :: leaves), t₀.Complete x := by
        intro x member
        rcases List.mem_append.1 member with listed | listed
        · exact (controls x (List.mem_cons_of_mem _ listed)).1
        · exact all x listed
      exact (rest.trans every first).of_mem_iff fun x => by simp [or_left_comm]

theorem run_merges_perm {ks ks' : List NodeId} (order : ks.Perm ks')
    (controls : ∀ k ∈ ks, t.Complete k ∧ t.IsSingle k) (complete : t.Complete existing) :
    ∃ top t' ms top' t'' ms', ks.foldlM mergeControl existing t = .ok top t' ∧
      ks'.foldlM mergeControl existing t = .ok top' t'' ∧ t'.Lists top ms ∧ t''.Lists top' ms' ∧
      Relation.Comp (List.Forall₂ fun a b => t.same a b = .ok true) List.Perm ms ms' ∧
      (ks ≠ [] → t'.nodes[top]? = some (.expr (.aggregate ms)) ∧
        t''.nodes[top']? = some (.expr (.aggregate ms'))) := by
  obtain ⟨leaves, lists⟩ := complete.exists_lists
  have known := lists.complete complete
  cases ks with
  | nil =>
    obtain rfl := order.nil_eq
    refine ⟨existing, t, leaves, existing, t, leaves, rfl, rfl, lists, lists, ⟨leaves, ?_, .rfl⟩,
      fun nonempty => absurd rfl nonempty⟩
    exact List.forall₂_same.2 fun leaf listed => (known leaf listed).same_refl
  | cons k ks =>
    cases ks' with
    | nil => cases order.eq_nil
    | cons k' ks' =>
      have controls' : ∀ x ∈ k' :: ks', t.Complete x ∧ t.IsSingle x :=
        fun x member => controls x (order.mem_iff.2 member)
      obtain ⟨top, t', ms, ran, flat, first⟩ :=
        run_merges (.refl _ t) controls complete lists known
      obtain ⟨top', t'', ms', ran', flat', second⟩ :=
        run_merges (.refl _ t) controls' complete lists known
      have every : ∀ x ∈ k :: ks ++ leaves, t.Complete x := by
        intro x member
        rcases List.mem_append.1 member with listed | listed
        · exact (controls x listed).1
        · exact known x listed
      have together := first.comp_perm every
        (second.of_mem_iff fun x => by rw [List.mem_append, List.mem_append, order.mem_iff])
      exact ⟨top, t', ms, top', t'', ms', ran, ran', flat.lists, flat'.lists, together,
        fun _ => ⟨flat.found, flat'.found⟩⟩

/-- A control that is merged adds one node to the arena: the aggregate of the control and of the
single expressions that the others consist of, those left out that are the same as one before. To
merge it once more, or another control of the same structure, changes nothing in the structure. Of
controls merged in two orders the same structures remain. -/
theorem mergeControl_flat (complete : t.Complete existing) (completeNew : t.Complete control)
    (single : t.IsSingle control) :
    ∃ leaves members, t.Lists existing leaves ∧ members = t.distinct (control :: leaves) ∧
      mergeControl existing control t = .ok t.size (t.push (.expr (.aggregate members))) ∧
      (∀ m ∈ members, t.IsSingle m) ∧
      members.Pairwise (fun a b => t.same a b = .ok false) ∧
      (∀ t' again, Extends [] (t.push (.expr (.aggregate members))) t' → t'.Complete again →
        t'.same again control = .ok true → ∃ t'', mergeControl t.size again t' = .ok t'.size t'' ∧
          t''.same t.size t'.size = .ok true) ∧
      ∀ ks ks' : List NodeId, ks.Perm ks' → (∀ k ∈ ks, t.Complete k ∧ t.IsSingle k) →
        ∃ top t' ms top' t'' ms', ks.foldlM mergeControl existing t = .ok top t' ∧
          ks'.foldlM mergeControl existing t = .ok top' t'' ∧
          t'.Lists top ms ∧ t''.Lists top' ms' ∧
          Relation.Comp (List.Forall₂ fun a b => t.same a b = .ok true) List.Perm ms ms' ∧
          (ks ≠ [] → t'.nodes[top]? = some (.expr (.aggregate ms)) ∧
            t''.nodes[top']? = some (.expr (.aggregate ms'))) := by
  obtain ⟨leaves, lists⟩ := complete.exists_lists
  have known := lists.complete complete
  have all : ∀ x ∈ control :: leaves, t.Complete x := List.forall_mem_cons.2 ⟨completeNew, known⟩
  have flat := flat_merge complete completeNew single lists
  have inside := (t.distinct_sublist (control :: leaves)).subset
  have apart := SyntaxTree.pairwise_distinct all
  refine ⟨leaves, _, lists, rfl, run_merge complete completeNew lists, fun m member => ?_, apart,
    fun t' again ext completeAgain same => ?_, fun ks ks' order controls =>
      run_merges_perm order controls complete⟩
  · rcases List.mem_cons.1 (inside member) with rfl | listed
    · exact single
    · exact lists.isSingle m listed
  · have whole := (Becomes.push t (.expr (.aggregate (t.distinct (control :: leaves))))).ext
    have apart' : (t.distinct (control :: leaves)).Pairwise fun a b => t'.same a b = .ok false :=
      apart.imp_of_mem fun {a b} first second other => by
        rwa [(all a (inside first)).same_of_extends (all b (inside second))
          (whole.trans ext (by simp))]
    obtain ⟨rest, split⟩ : ∃ rest, t.distinct (control :: leaves) = control :: rest :=
      ⟨_, (t.distinct_eq _).trans (firsts_cons ..)⟩
    have flat' := flat.of_extends ext
    rw [split] at flat' apart'
    exact run_merge_again flat' apart' completeAgain same

def nestedControls : SyntaxTree :=
  ⟨#[.expr (.name "a"), .expr (.name "b"), .expr (.aggregate [1]), .expr (.list [0, 2, 0]),
    .expr (.name "b"), .expr (.name "c")], []⟩

/-- The nested control like the merged one is left out, and so is the second of two in the list. -/
theorem mergeControl_flat_nested :
    nestedControls.Complete 3 ∧ nestedControls.Complete 4 ∧ nestedControls.IsSingle 4 ∧
      mergeControl 3 4 nestedControls =
        .ok 6 (nestedControls.push (.expr (.aggregate [4, 0]))) ∧
      ∃ top t' ms top' t'' ms', [4, 5].foldlM mergeControl 3 nestedControls = .ok top t' ∧
        [5, 4].foldlM mergeControl 3 nestedControls = .ok top' t'' ∧
        t'.Lists top ms ∧ t''.Lists top' ms' ∧
        Relation.Comp (List.Forall₂ fun a b => nestedControls.same a b = .ok true) List.Perm
          ms ms' := by
  have name : ∀ id ∈ [0, 1, 4, 5], nestedControls.Complete id ∧ nestedControls.IsSingle id := by
    simp only [List.forall_mem_cons]
    refine ⟨⟨?_, _, rfl, rfl⟩, ⟨?_, _, rfl, rfl⟩, ⟨?_, _, rfl, rfl⟩, ⟨?_, _, rfl, rfl⟩, by simp⟩
    all_goals exact .node rfl (fun _ inside => nomatch inside) (by simp [Expr.children])
  have aggregate : nestedControls.nodes[2]? = some (.expr (.aggregate [1])) := rfl
  have list : nestedControls.nodes[3]? = some (.expr (.list [0, 2, 0])) := rfl
  have group : nestedControls.Complete 2 :=
    .node aggregate (fun _ inside => nomatch inside)
      (by simpa [Expr.children] using (name 1 (by simp)).1)
  have complete : nestedControls.Complete 3 := by
    refine .node list (fun _ inside => nomatch inside) ?_
    simpa [Expr.children, group] using (name 0 (by simp)).1
  obtain ⟨completeNew, single⟩ := name 4 (by simp)
  have lists : nestedControls.Lists 3 [0, 1, 0] := by
    let pick : NodeId → List NodeId := fun m => if m = 2 then [1] else [m]
    have inner : nestedControls.Lists 2 [1] :=
      .of_members aggregate (by simpa using (name 1 (by simp)).2)
    have below : ∀ m ∈ [0, 2, 0], nestedControls.Lists m (pick m) := by
      simpa [pick, inner] using SyntaxTree.Lists.single (name 0 (by simp)).2
    exact .group list rfl below
  obtain ⟨leaves, members, listed, rfl, merged, -, -, -, orders⟩ :=
    mergeControl_flat complete completeNew single
  obtain rfl := listed.unique lists
  have distinct : nestedControls.distinct [4, 0, 1, 0] = [4, 0] := by decide +kernel
  rw [distinct] at merged
  obtain ⟨top, t', ms, top', t'', ms', ran, ran', first, second, together, -⟩ :=
    orders [4, 5] [5, 4] (.swap ..) fun k member => name k (by simp_all)
  exact ⟨complete, completeNew, single, merged, top, t', ms, top', t'', ms', ran, ran', first,
    second, together⟩

end TreeM

end QuantumLowering
