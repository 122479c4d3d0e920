import Mathlib.Data.Finset.Card
import QuantumLowering.Syntax.Walk

/-!
What a node unfolds to: the tree of the ids met when every reference under it is followed. A node
has at most one unfolding, and an unfolding is no higher than the arena is long. The walk along a
stack lists the ids of the unfolding in the order of a recursion over it.
-/

namespace QuantumLowering

theorem mapM_ok_of_forall {ε α β : Type} {f : α → Except ε β} {g : α → β} {xs : List α}
    (h : ∀ x ∈ xs, f x = .ok (g x)) : xs.mapM f = .ok (xs.map g) := by
  induction xs with
  | nil => rfl
  | cons x xs ih =>
    have first := h x (by simp)
    have rest := ih fun y member => h y (by simp [member])
    simp only [List.mapM_cons, first, rest, List.map_cons]
    rfl

namespace SyntaxTree

variable (t : SyntaxTree)

/-- The ids under a node in pre-order, down to the given depth, by recursion over the parts. -/
def subtreeWithin : Nat → NodeId → Except TreeError (List NodeId)
  | 0, id => .error (.cyclic id)
  | depth + 1, id => do
    let kids ← t.children id
    let below ← kids.mapM (subtreeWithin depth)
    return id :: below.flatten

/-- What is on the stack is still to be listed: each id with all that the recursion finds under it,
from the top of the stack down. -/
theorem subtreeFrom_eq (stack : List Pending) (listed : Array NodeId) :
    t.subtreeFrom stack listed = do
      let below ← stack.mapM fun waiting => t.subtreeWithin waiting.levels waiting.id
      return listed.toList ++ below.flatten := by
  fun_induction subtreeFrom t stack listed with
  | case1 listed => exact congrArg Except.ok (List.append_nil _).symm
  | case2 listed id rest => rfl
  | case3 listed id levels rest e failed =>
    rw [List.mapM_cons, subtreeWithin, failed]
    rfl
  | case4 listed id levels rest kids found ih =>
    have here : t.subtreeWithin (levels + 1) id = do
        let below ← kids.mapM (t.subtreeWithin levels)
        return id :: below.flatten := by
      rw [subtreeWithin, found]
      rfl
    rw [ih, pushAll_eq, List.mapM_append, List.mapM_map, List.mapM_cons, here]
    simp [Function.comp_def]

theorem subtree_eq_subtreeWithin (id : NodeId) :
    t.subtree id = t.subtreeWithin t.depthBound id := by
  rw [subtree, subtreeFrom_eq]
  simp

end SyntaxTree

/-- The ids under a node, as a tree. -/
inductive Unfolding where
  | node (id : NodeId) (parts : List Unfolding)

namespace Unfolding

def root : Unfolding → NodeId
  | .node id _ => id

def ids : Unfolding → List NodeId
  | .node id parts => id :: (parts.map ids).flatten

def height : Unfolding → Nat
  | .node _ parts => (parts.map height).foldr max 0 + 1

theorem height_lt {id : NodeId} {parts : List Unfolding} {u : Unfolding} (member : u ∈ parts) :
    u.height < (node id parts).height := by
  rw [height]
  induction parts with
  | nil => cases member
  | cons v parts ih =>
    simp only [List.map_cons, List.foldr_cons]
    rcases List.mem_cons.1 member with rfl | member
    · omega
    · have := ih member
      omega

theorem exists_height {id : NodeId} {parts : List Unfolding}
    (positive : 1 < (node id parts).height) :
    ∃ u ∈ parts, u.height + 1 = (node id parts).height := by
  rw [height] at positive ⊢
  induction parts with
  | nil => simp at positive
  | cons v parts ih =>
    simp only [List.map_cons, List.foldr_cons] at positive ⊢
    by_cases larger : (parts.map height).foldr max 0 ≤ v.height
    · exact ⟨v, by simp, by omega⟩
    · obtain ⟨u, member, same⟩ := ih (by omega)
      exact ⟨u, by simp [member], by omega⟩

theorem height_pos (u : Unfolding) : 0 < u.height := by
  cases u
  rw [height]
  omega

end Unfolding

/-- The arena resolves every reference of the unfolding. -/
inductive Spans (t : SyntaxTree) : Unfolding → Prop where
  | node {id : NodeId} {parts : List Unfolding} {node : Node NodeId}
    (found : t.nodes[id]? = some node) (kids : node.children = parts.map Unfolding.root)
    (below : ∀ u ∈ parts, Spans t u) : Spans t (.node id parts)

namespace Spans

variable {t : SyntaxTree} {u v : Unfolding}

theorem root_lt (h : Spans t u) : u.root < t.size := by
  cases h with
  | node found _ _ => exact (Array.getElem?_eq_some_iff.1 found).1

theorem children_eq {id : NodeId} {parts : List Unfolding} (h : Spans t (.node id parts)) :
    t.children id = .ok (parts.map Unfolding.root) := by
  cases h with
  | node found kids _ => simp [SyntaxTree.children, SyntaxTree.node, found, kids, Functor.map, Except.map]

theorem parts_span {id : NodeId} {parts : List Unfolding} (h : Spans t (.node id parts)) :
    ∀ u ∈ parts, Spans t u := by
  cases h with
  | node _ _ below => exact below

theorem eq_of_roots {us vs : List Unfolding} (unique : ∀ u ∈ us, ∀ v ∈ vs, u.root = v.root → u = v)
    (roots : us.map Unfolding.root = vs.map Unfolding.root) : us = vs := by
  induction us generalizing vs with
  | nil => cases vs <;> simp_all
  | cons u us ih =>
    cases vs with
    | nil => simp at roots
    | cons v vs =>
      simp only [List.map_cons, List.cons.injEq] at roots
      have first := unique u (by simp) v (by simp) roots.1
      have rest := ih (fun x hx y hy => unique x (by simp [hx]) y (by simp [hy])) roots.2
      rw [first, rest]

theorem eq_of_root (hu : Spans t u) (hv : Spans t v) (same : u.root = v.root) : u = v := by
  induction hu generalizing v with
  | @node id parts node found kids _ ih =>
    cases hv with
    | @node other parts' node' found' kids' below' =>
      cases same
      have equal : node = node' := Option.some.inj (found.symm.trans found')
      subst equal
      have roots := kids.symm.trans kids'
      rw [eq_of_roots (fun u hu v hv same => ih u hu (below' v hv) same) roots]

theorem exists_of_height (hu : Spans t u) (k : Nat) (positive : 0 < k) (bound : k ≤ u.height) :
    ∃ v, Spans t v ∧ v.height = k := by
  induction hu with
  | @node id parts node found kids below ih =>
    by_cases whole : k = (Unfolding.node id parts).height
    · exact ⟨_, .node found kids below, whole.symm⟩
    · obtain ⟨u, member, height⟩ := Unfolding.exists_height (by omega : 1 < (Unfolding.node id parts).height)
      exact ih u member (by omega)

/-- No path through an unfolding meets a node twice: two nodes with one id would unfold alike and
so lie at one height. -/
theorem height_le_size (hu : Spans t u) : u.height ≤ t.size := by
  have pick : ∀ k : Nat, ∃ v : Unfolding, k < u.height → Spans t v ∧ v.height = k + 1 := by
    intro k
    by_cases bound : k < u.height
    · obtain ⟨v, spans, height⟩ := hu.exists_of_height (k + 1) (by omega) bound
      exact ⟨v, fun _ => ⟨spans, height⟩⟩
    · exact ⟨u, fun h => absurd h bound⟩
  choose at_ spec using pick
  have card := Finset.card_le_card_of_injOn (s := Finset.range u.height)
    (t := Finset.range t.size) (fun k => (at_ k).root) ?_ ?_
  · simpa using card
  · intro k hk
    simp only [Finset.coe_range, Set.mem_Iio] at hk ⊢
    exact (spec k hk).1.root_lt
  · intro j hj k hk same
    simp only [Finset.coe_range, Set.mem_Iio] at hj hk
    have equal := (spec j hj).1.eq_of_root (spec k hk).1 same
    have heights := (spec j hj).2
    rw [equal, (spec k hk).2] at heights
    omega

theorem subtreeWithin_eq {depth : Nat} (hu : Spans t u) (bound : u.height ≤ depth) :
    t.subtreeWithin depth u.root = .ok u.ids := by
  induction hu generalizing depth with
  | @node id parts node found kids below ih =>
    cases depth with
    | zero => have := Unfolding.height_pos (.node id parts); omega
    | succ depth =>
      have parts_eq : (parts.map Unfolding.root).mapM (t.subtreeWithin depth) =
          .ok (parts.map Unfolding.ids) := by
        rw [List.mapM_map]
        apply mapM_ok_of_forall
        intro u member
        have lower : u.height < (Unfolding.node id parts).height := Unfolding.height_lt member
        exact ih u member (by omega)
      simp only [Unfolding.root, SyntaxTree.subtreeWithin, children_eq (.node found kids below),
        Bind.bind, Except.bind, parts_eq, Pure.pure, Except.pure, Unfolding.ids]

theorem subtreeFrom_eq {levels : Nat} (hu : Spans t u) (deep : u.height ≤ levels)
    (rest : List SyntaxTree.Pending) (listed : Array NodeId) :
    t.subtreeFrom (⟨u.root, levels⟩ :: rest) listed =
      t.subtreeFrom rest (listed ++ u.ids.toArray) := by
  have found : t.subtreeWithin levels u.root = pure u.ids := hu.subtreeWithin_eq deep
  simp [t.subtreeFrom_eq, found]

theorem subtree_eq (hu : Spans t u) : t.subtree u.root = .ok u.ids := by
  have deep : u.height ≤ t.depthBound := Nat.le_succ_of_le hu.height_le_size
  rw [SyntaxTree.subtree, hu.subtreeFrom_eq deep, SyntaxTree.subtreeFrom]
  simp

theorem mapM_subtree {us : List Unfolding} (spans : ∀ u ∈ us, Spans t u) :
    (us.map Unfolding.root).mapM t.subtree = .ok (us.map Unfolding.ids) := by
  rw [List.mapM_map]
  exact mapM_ok_of_forall fun u member => (spans u member).subtree_eq

theorem exists_of_roots {walk : NodeId → Except TreeError (List NodeId)} {roots : List NodeId}
    {below : List (List NodeId)} (walked : roots.mapM walk = .ok below)
    (each : ∀ root ids, walk root = .ok ids → ∃ u, Spans t u ∧ u.root = root ∧ u.ids = ids) :
    ∃ us : List Unfolding, us.map Unfolding.root = roots ∧ us.map Unfolding.ids = below ∧
      ∀ u ∈ us, Spans t u := by
  induction roots generalizing below with
  | nil =>
    cases walked
    exact ⟨[], rfl, rfl, by simp⟩
  | cons root roots ih =>
    rw [List.mapM_cons] at walked
    cases first : walk root with
    | error e =>
      simp only [first, Bind.bind, Except.bind] at walked
      cases walked
    | ok ids =>
      cases later : roots.mapM walk with
      | error e =>
        simp only [first, later, Bind.bind, Except.bind] at walked
        cases walked
      | ok rest =>
        simp only [first, later, Bind.bind, Except.bind] at walked
        cases walked
        obtain ⟨u, spans, rfl, rfl⟩ := each root ids first
        obtain ⟨us, rfl, rfl, others⟩ := ih later
        exact ⟨u :: us, rfl, rfl, by simpa using ⟨spans, others⟩⟩

theorem exists_of_subtreeWithin {depth : Nat} {root : NodeId} {ids : List NodeId}
    (walked : t.subtreeWithin depth root = .ok ids) :
    ∃ u, Spans t u ∧ u.root = root ∧ u.ids = ids := by
  induction depth generalizing root ids with
  | zero => cases walked
  | succ depth ih =>
    unfold SyntaxTree.subtreeWithin SyntaxTree.children SyntaxTree.node at walked
    cases found : t.nodes[root]? with
    | none =>
      rw [found] at walked
      cases walked
    | some node =>
      simp only [found, Functor.map, Except.map, Bind.bind, Except.bind] at walked
      cases below : node.children.mapM (t.subtreeWithin depth) with
      | error e =>
        rw [below] at walked
        cases walked
      | ok lists =>
        rw [below] at walked
        cases walked
        obtain ⟨us, roots, rfl, spans⟩ := exists_of_roots below fun _ _ => ih
        exact ⟨.node root us, .node found roots.symm spans, rfl, by rw [Unfolding.ids]⟩

theorem exists_of_subtree {root : NodeId} {ids : List NodeId} (walked : t.subtree root = .ok ids) :
    ∃ u, Spans t u ∧ u.root = root ∧ u.ids = ids :=
  exists_of_subtreeWithin ((t.subtree_eq_subtreeWithin root).symm.trans walked)

theorem exists_node (spans : Spans t u) {id : NodeId} (member : id ∈ u.ids) :
    ∃ node, t.nodes[id]? = some node ∧ ∀ part ∈ node.children, part ∈ u.ids := by
  induction spans with
  | @node root parts node found kids below ih =>
    rw [Unfolding.ids, List.mem_cons] at member
    rcases member with rfl | member
    · refine ⟨node, found, fun part listed => ?_⟩
      rw [kids] at listed
      obtain ⟨u, inside, rfl⟩ := List.mem_map.1 listed
      have first : u.root ∈ u.ids := by
        cases u
        simp [Unfolding.root, Unfolding.ids]
      rw [Unfolding.ids]
      exact List.mem_cons_of_mem _ (List.mem_flatten.2 ⟨_, List.mem_map_of_mem inside, first⟩)
    · obtain ⟨listed, from_, inside⟩ := List.mem_flatten.1 member
      obtain ⟨u, under, rfl⟩ := List.mem_map.1 from_
      obtain ⟨node', found', closed⟩ := ih u under inside
      refine ⟨node', found', fun part below => ?_⟩
      rw [Unfolding.ids]
      exact List.mem_cons_of_mem _
        (List.mem_flatten.2 ⟨_, List.mem_map_of_mem under, closed part below⟩)

theorem lt_size (spans : Spans t u) {id : Nat} (member : id ∈ u.ids) : id < t.size := by
  obtain ⟨node, found, -⟩ := spans.exists_node member
  exact (Array.getElem?_eq_some_iff.1 found).1

end Spans

theorem SyntaxTree.meets_eq_false {t : SyntaxTree} {n : Nat} {ids : List NodeId} (old : ∀ id ∈ ids, id < n)
    {us : List Unfolding} (spans : ∀ u ∈ us, Spans t u) (new : ∀ u ∈ us, ∀ id ∈ u.ids, n ≤ id) :
    t.meets ids (us.map Unfolding.root) = .ok false := by
  induction us with
  | nil => rfl
  | cons u us ih =>
    have apart : u.ids.any (· ∈ ids) = false := by
      simp only [List.any_eq_false, decide_eq_true_eq]
      intro id inside member
      exact absurd (old id member) (Nat.not_lt.2 (new u (by simp) id inside))
    have rest := ih (fun v member => spans v (by simp [member]))
      fun v member => new v (by simp [member])
    rw [List.map_cons, meets]
    simp only [(spans u (by simp)).subtree_eq, Bind.bind, Except.bind, apart, rest]
    rfl

theorem SyntaxTree.sharesNodes_eq_false {t : SyntaxTree} {n : Nat} {u v : Unfolding}
    (spans : Spans t u) (old : ∀ id : Nat, id ∈ u.ids → id < n) (spans' : Spans t v)
    (new : ∀ id : Nat, id ∈ v.ids → n ≤ id) : t.sharesNodes [u.root] [v.root] = .ok false := by
  have below : [u.root].mapM t.subtree = .ok [u.ids] :=
    Spans.mapM_subtree (fun w member => List.mem_singleton.1 member ▸ spans : ∀ w ∈ [u], Spans t w)
  have walk : t.meets [u.ids].flatten [v.root] = .ok false :=
    meets_eq_false (fun id member => old id (by simpa using member))
      (fun w member => List.mem_singleton.1 member ▸ spans' : ∀ w ∈ [v], Spans t w)
      fun w member id inside => new id (List.mem_singleton.1 member ▸ inside)
  rw [sharesNodes, below]
  exact walk

end QuantumLowering
