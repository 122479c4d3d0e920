import QuantumLowering.Proofs.Syntax.References
import QuantumLowering.Proofs.Syntax.Unfolded

/-!
What a copy does to any arena, well formed or not. A node that stands for a term gets a copy of its own
at the end of the arena, in which nothing is shared. References are looked up in the arena as it grows,
so a dangling one fails only while the arena has not reached its id.
-/

namespace QuantumLowering

open TreeM

namespace SyntaxTree

/-- In the order of a copy the first reference under the id that leads out of the arena is `missing`. It
is so many levels down, and before it come whole terms with so many nodes. -/
inductive Dangles (t : SyntaxTree) : (depth : Nat) → (id : NodeId) → (passed : Nat) →
    (missing : NodeId) → Prop where
  | here {id : NodeId} (outside : t.size ≤ id) : Dangles t 0 id 0 id
  | step {depth : Nat} {id part missing : NodeId} {passed : Nat} {node : Node NodeId}
    {before after : List NodeId} {pick : NodeId → Term} (found : t.nodes[id]? = some node)
    (split : node.children = before ++ part :: after)
    (whole : ∀ other ∈ before, t.Unfolds other (pick other))
    (ends : Dangles t depth part passed missing) :
    Dangles t (depth + 1) id ((before.map fun other => (pick other).size).sum + passed) missing

/-- Every way down from the id ends. -/
def Bounded (t : SyntaxTree) : NodeId → Prop := Acc fun part id => part ∈ t.refs id

end SyntaxTree

theorem forall_or_exists_first {β : Type} (P : β → Prop) (xs : List β) :
    (∀ x ∈ xs, P x) ∨
      ∃ before x after, xs = before ++ x :: after ∧ (∀ y ∈ before, P y) ∧ ¬ P x := by
  induction xs with
  | nil => exact .inl (by simp)
  | cons x xs ih =>
    by_cases holds : P x
    · rcases ih with all | ⟨before, y, after, rfl, earlier, fails⟩
      · exact .inl (List.forall_mem_cons.2 ⟨holds, all⟩)
      · exact .inr ⟨x :: before, y, after, rfl, List.forall_mem_cons.2 ⟨holds, earlier⟩, fails⟩
    · exact .inr ⟨[], x, xs, rfl, by simp, holds⟩

namespace SyntaxTree

variable {t : SyntaxTree} {id missing : NodeId} {depth passed : Nat} {u : Unfolding}

theorem Bounded.unfolds_or_dangles (bounded : t.Bounded id) :
    (∃ x, t.Unfolds id x) ∨ ∃ depth passed missing, t.Dangles depth id passed missing := by
  induction bounded with
  | intro id _ ih =>
    cases found : t.nodes[id]? with
    | none => exact .inr ⟨0, 0, id, .here (Array.getElem?_eq_none_iff.1 found)⟩
    | some node =>
      rw [refs_eq found] at ih
      rcases forall_or_exists_first (fun part => ∃ x, t.Unfolds part x) node.children with
        all | ⟨before, part, after, split, earlier, none⟩
      · obtain ⟨pick, below⟩ := exists_choice all
        exact .inl ⟨_, .node found below⟩
      · obtain ⟨pick, whole⟩ := exists_choice earlier
        obtain ⟨depth, passed, missing, ends⟩ := (ih part (by simp [split])).resolve_left none
        exact .inr ⟨_, _, missing, .step found split whole ends⟩

namespace Dangles

theorem not_spans (ends : t.Dangles depth id passed missing) (spans : Spans t u) : u.root ≠ id := by
  induction ends generalizing u with
  | here outside =>
    rintro rfl
    exact absurd spans.root_lt (Nat.not_lt.2 outside)
  | @step _ id part _ _ node before after _ found split _ _ ih =>
    rintro rfl
    cases spans with
    | @node _ parts _ found' kids spans =>
      cases found.symm.trans found'
      have member : part ∈ parts.map Unfolding.root := by simp [← kids, split]
      obtain ⟨v, listed, root⟩ := List.mem_map.1 member
      exact ih (spans v listed) root

theorem not_unfolds (ends : t.Dangles depth id passed missing) (x : Term) : ¬ t.Unfolds id x := by
  intro unfolds
  obtain ⟨u, spans, root, -⟩ := unfolds.exists_spans
  exact ends.not_spans spans root

theorem depth_unique {depth' passed' missing' : Nat} (ends : t.Dangles depth id passed missing)
    (ends' : t.Dangles depth' id passed' missing') : depth = depth' := by
  induction ends generalizing depth' passed' missing' with
  | here outside =>
    cases ends' with
    | here _ => rfl
    | step found _ _ _ =>
      have := (Array.getElem?_eq_some_iff.1 found).1
      exact absurd this (Nat.not_lt.2 outside)
  | step found split whole ends ih =>
    cases ends' with
    | here outside =>
      have := (Array.getElem?_eq_some_iff.1 found).1
      exact absurd this (Nat.not_lt.2 outside)
    | step found' split' whole' ends' =>
      cases found.symm.trans found'
      rcases List.append_eq_append_iff.1 (split.symm.trans split') with
        ⟨more, rfl, same⟩ | ⟨more, rfl, same⟩
      · cases more with
        | nil =>
          cases same
          rw [ih ends']
        | cons other more =>
          cases same
          exact absurd (whole' _ (by simp)) (ends.not_unfolds _)
      · cases more with
        | nil =>
          cases same
          rw [ih ends']
        | cons other more =>
          cases same
          exact absurd (whole _ (by simp)) (ends'.not_unfolds _)

theorem exists_depth {level : Nat} (ends : t.Dangles depth id passed missing) (bound : level ≤ depth) :
    ∃ id' passed', t.Dangles level id' passed' missing := by
  induction ends with
  | here outside =>
    obtain rfl := Nat.le_zero.1 bound
    exact ⟨_, _, .here outside⟩
  | @step depth id _ _ _ _ _ _ _ found split whole ends ih =>
    by_cases top : level = depth + 1
    · subst top
      exact ⟨_, _, .step found split whole ends⟩
    · exact ih (by omega)

theorem lt_size (ends : t.Dangles (depth + 1) id passed missing) : id < t.size := by
  cases ends with
  | step found _ _ _ => exact (Array.getElem?_eq_some_iff.1 found).1

/-- A way to a dangling reference meets no node twice, and none that stands for a term. -/
theorem height_add_depth_le {height : Nat} (ends : t.Dangles depth id passed missing)
    (levels : ∀ level < height, ∃ u, Spans t u ∧ u.height = level + 1) :
    height + depth ≤ t.size := by
  -- Below `height` a node that stands for a term is picked at each level, above it one on the way.
  have pick : ∀ level, ∃ id, level < height + depth → id < t.size ∧
      ((level < height ∧ ∃ u, Spans t u ∧ u.root = id ∧ u.height = level + 1) ∨
        (height ≤ level ∧ ∃ passed, t.Dangles (level - height + 1) id passed missing)) := by
    intro level
    by_cases low : level < height
    · obtain ⟨u, spans, top⟩ := levels level low
      exact ⟨u.root, fun _ => ⟨spans.root_lt, .inl ⟨low, u, spans, rfl, top⟩⟩⟩
    · by_cases bound : level < height + depth
      · obtain ⟨id', passed', ends'⟩ :=
          ends.exists_depth (show level - height + 1 ≤ depth by omega)
        exact ⟨id', fun _ => ⟨ends'.lt_size, .inr ⟨Nat.le_of_not_lt low, _, ends'⟩⟩⟩
      · exact ⟨0, fun inside => absurd inside bound⟩
  choose at_ spec using pick
  have card := Finset.card_le_card_of_injOn (s := Finset.range (height + depth))
    (t := Finset.range t.size) at_ ?_ ?_
  · simpa using card
  · intro level inside
    simp only [Finset.coe_range, Set.mem_Iio] at inside ⊢
    exact (spec level inside).1
  · intro j hj k hk same
    simp only [Finset.coe_range, Set.mem_Iio] at hj hk
    obtain ⟨-, first⟩ := spec j hj
    obtain ⟨-, second⟩ := spec k hk
    rw [← same] at second
    rcases first with ⟨-, u, spans, root, top⟩ | ⟨low, _, ends₁⟩ <;>
      rcases second with ⟨-, v, spans', root', top'⟩ | ⟨low', _, ends₂⟩
    · have equal := spans.eq_of_root spans' (root.trans root'.symm)
      rw [equal, top'] at top
      omega
    · exact absurd root (ends₂.not_spans spans)
    · exact absurd root' (ends₁.not_spans spans')
    · have := ends₁.depth_unique ends₂
      omega

end Dangles

end SyntaxTree

def TreeM.final {α : Type} (act : TreeM α) (t : SyntaxTree) : SyntaxTree :=
  match act t with
  | .ok _ t' => t'
  | .error _ t' => t'

section Final

variable {α β : Type} {act : TreeM α} {t t' : SyntaxTree}

theorem TreeM.final_of_ok {a : α} (ran : act t = .ok a t') : act.final t = t' := by
  rw [TreeM.final, ran]

theorem TreeM.final_of_error {e : TreeError} (ran : act t = .error e t') : act.final t = t' := by
  rw [TreeM.final, ran]

theorem TreeM.final_map (f : α → β) : (f <$> act).final t = act.final t := by
  simp only [TreeM.final, Functor.map, EStateM.map]
  cases act t <;> rfl

theorem Plants.keeps {roots : α → List NodeId} (plants : Plants act roots) (t : SyntaxTree) :
    Extends [] t (act.final t) := by
  have ends := plants (Forest.empty (Nat.zero_le t.size))
  rw [TreeM.final]
  cases ran : act t <;> rw [ran] at ends
  · exact ends.1
  · exact ends

end Final

variable {t₀ t t' : SyntaxTree} {id : NodeId} {depth : Nat}

theorem copyWithin_keeps (depth : Nat) (id : NodeId) (t : SyntaxTree) :
    Extends [] t ((copyWithin depth id).final t) :=
  Plants.keeps (copyWithin_plants depth id) t

theorem copyAll_keeps (depth : Nat) (ids : List NodeId) (t : SyntaxTree) :
    Extends [] t ((ids.mapM (copyWithin depth)).final t) :=
  Plants.keeps (Plants.mapM (fun id => copyWithin_plants depth id) ids) t

/-- The roots of copies that were added stand for the terms. -/
structure Duplicates (t t' : SyntaxTree) (roots : List NodeId) (xs : List Term) : Prop where
  kept : Extends [] t t'
  size : t'.size = t.size + (xs.map Term.size).sum
  unfolds : List.Forall₂ t'.Unfolds roots xs

namespace Duplicates

variable {t'' : SyntaxTree} {root : NodeId} {roots : List NodeId} {x : Term} {xs : List Term}

theorem nil (t : SyntaxTree) : Duplicates t t [] [] := ⟨.refl .., by simp, .nil⟩

theorem cons (first : Duplicates t t' [root] [x]) (rest : Duplicates t' t'' roots xs) :
    Duplicates t t'' (root :: roots) (x :: xs) := by
  refine ⟨first.kept.trans rest.kept (by simp), ?_, ?_⟩
  · rw [rest.size, first.size]
    simp [Nat.add_assoc]
  · exact .cons ((List.forall₂_cons.1 first.unfolds).1.of_extends rest.kept) rest.unfolds

theorem push {node : Node NodeId} {layer : Node Term} (shapes : node.shape = layer.shape)
    (parts : Duplicates t t' node.children layer.children) :
    Duplicates t (t'.push node) [t'.size] [.node layer] := by
  have kept : Extends [] t' (t'.push node) := (Becomes.push t' node).ext
  refine ⟨parts.kept.trans kept (by simp), ?_, .cons ?_ .nil⟩
  · rw [SyntaxTree.size_push, parts.size]
    simp [Nat.add_assoc]
  · refine SyntaxTree.Unfolds.node_iff.2 ⟨node, ?_, shapes, parts.unfolds.imp fun _ _ unfolds =>
      unfolds.of_extends kept⟩
    rw [SyntaxTree.nodes_push, if_pos rfl]

end Duplicates

theorem mapM_duplicates {act : NodeId → TreeM NodeId} {pick : NodeId → Term} {ids : List NodeId}
    (each : ∀ id ∈ ids, ∀ t₁, Extends [] t t₁ →
      ∃ root t₂, act id t₁ = .ok root t₂ ∧ Duplicates t₁ t₂ [root] [pick id]) :
    ∃ roots t', ids.mapM act t = .ok roots t' ∧ Duplicates t t' roots (ids.map pick) := by
  induction ids generalizing t with
  | nil => exact ⟨[], t, rfl, .nil t⟩
  | cons id ids ih =>
    obtain ⟨root, t₁, first, copied⟩ := each id List.mem_cons_self t (.refl ..)
    obtain ⟨roots, t₂, rest, copies⟩ := ih fun id member t₂ ext =>
      each id (List.mem_cons_of_mem _ member) t₂ (copied.kept.trans ext (by simp))
    refine ⟨root :: roots, t₂, ?_, copied.cons copies⟩
    rw [List.mapM_cons, run_bind first, run_bind rest]
    rfl

section Traverse

variable {f : NodeId → TreeM NodeId} {node : Node NodeId}

theorem run_traverse {parts : List NodeId} (ran : node.children.mapM f t = .ok parts t') :
    ∃ copied, node.traverse f t = .ok copied t' ∧ copied.children = parts ∧
      copied.shape = node.shape := by
  cases ran' : node.traverse f t with
  | error e t₁ =>
    have failed := map_error_iff (f := Node.children).2 ran'
    rw [Node.children_traverse, ran] at failed
    cases failed
  | ok copied t₁ =>
    have children := run_map (f := Node.children) ran'
    have shape := run_map (f := Node.shape) ran'
    rw [Node.children_traverse, ran] at children
    rw [Node.shape_traverse, run_map ran] at shape
    rw [EStateM.Result.ok.injEq] at children shape
    exact ⟨copied, by rw [children.2], children.1.symm, shape.1.symm⟩

theorem traverse_error_iff {e : TreeError} :
    node.traverse f t = .error e t' ↔ node.children.mapM f t = .error e t' := by
  rw [← Node.children_traverse, map_error_iff]

end Traverse

theorem copyWithin_run {u : Unfolding} {x : Term} (spans : Spans t₀ u)
    (unfolds : t₀.Unfolds u.root x) (bound : u.height ≤ depth) (ext : Extends [] t₀ t) :
    ∃ root t', copyWithin depth u.root t = .ok root t' ∧ root + 1 = t'.size ∧
      Duplicates t t' [root] [x] := by
  induction spans generalizing x depth t with
  | @node id parts layer found kids below ih =>
    obtain ⟨depth, rfl⟩ : ∃ d, depth = d + 1 :=
      ⟨depth - 1, by have := Unfolding.height_pos (.node id parts); omega⟩
    cases unfolds with
    | @node _ _ pick found' unfolds =>
    cases found.symm.trans found'
    have each : ∀ part ∈ layer.children, ∀ t₁, Extends [] t t₁ → ∃ root t₂,
        copyWithin depth part t₁ = .ok root t₂ ∧ Duplicates t₁ t₂ [root] [pick part] := by
      intro part inside t₁ ext₁
      obtain ⟨v, member, rfl⟩ := List.mem_map.1 (kids ▸ inside)
      have lower : v.height < (Unfolding.node id parts).height := Unfolding.height_lt member
      obtain ⟨root, t₂, ran, -, copied⟩ := ih v member (unfolds _ inside)
        (show v.height ≤ depth by omega) (ext.trans ext₁ (by simp))
      exact ⟨root, t₂, ran, copied⟩
    obtain ⟨roots, t₁, ran, copies⟩ := mapM_duplicates each
    obtain ⟨copied, filled, rfl, shape⟩ := run_traverse ran
    have held := ext.found found
    refine ⟨t₁.size, t₁.push copied, ?_, by simp, ?_⟩
    · unfold copyWithin
      rw [Unfolding.root, run_bind (run_node held), run_bind filled]
      rfl
    · rw [← Node.children_map] at copies
      exact copies.push (by simp [shape])

theorem copyWithin_missing (outside : t.size ≤ id) :
    copyWithin (depth + 1) id t = .error (.notFound id) t := by
  have none : t.node id = .error (.notFound id) := by
    simp [SyntaxTree.node, Array.getElem?_eq_none_iff.2 outside]
  have missing : TreeM.node id t = .error (.notFound id) t := by
    rw [TreeM.node, run_bind run_get, none]
    rfl
  unfold copyWithin
  rw [bind_error missing]

theorem mapM_error {act : NodeId → TreeM NodeId} {ids : List NodeId} {e : TreeError}
    (failed : ids.mapM act t = .error e t') : ∃ id ∈ ids, ∃ t₁, act id t₁ = .error e t' := by
  induction ids generalizing t with
  | nil => cases failed
  | cons id ids ih =>
    rw [List.mapM_cons] at failed
    cases ran : act id t with
    | error e₁ t₁ =>
      rw [bind_error ran] at failed
      cases failed
      exact ⟨id, List.mem_cons_self, t, ran⟩
    | ok root t₁ =>
      rw [run_bind ran, ← map_eq_pure_bind, map_error_iff] at failed
      obtain ⟨other, inside, below⟩ := ih failed
      exact ⟨other, List.mem_cons_of_mem _ inside, below⟩

theorem size_le_of_notFound {missing : NodeId}
    (failed : copyWithin depth id t = .error (.notFound missing) t') : t'.size ≤ missing := by
  induction depth generalizing id t t' with
  | zero => cases failed
  | succ depth ih =>
    cases found : t.nodes[id]? with
    | none =>
      have outside := Array.getElem?_eq_none_iff.1 found
      rw [copyWithin_missing outside] at failed
      cases failed
      exact outside
    | some node =>
      unfold copyWithin at failed
      rw [run_bind (run_node found)] at failed
      cases ran : node.traverse (copyWithin depth) t with
      | error e t₁ =>
        rw [bind_error ran] at failed
        cases failed
        obtain ⟨part, -, t₂, below⟩ := mapM_error (traverse_error_iff.1 ran)
        exact ih below
      | ok copied t₁ =>
        rw [run_bind ran] at failed
        cases failed

theorem final_mapM_append {act : NodeId → TreeM NodeId} {ids rest roots : List NodeId}
    (ran : ids.mapM act t = .ok roots t') :
    ((ids ++ rest).mapM act).final t = (rest.mapM act).final t' := by
  rw [List.mapM_append, TreeM.final, run_bind ran, ← map_eq_pure_bind]
  exact TreeM.final_map _

theorem final_mapM_cons (depth : Nat) (id : NodeId) (rest : List NodeId) (t : SyntaxTree) :
    Extends [] ((copyWithin depth id).final t) (((id :: rest).mapM (copyWithin depth)).final t) := by
  cases ran : copyWithin depth id t with
  | error e t₁ =>
    rw [List.mapM_cons, final_of_error ran, final_of_error (bind_error ran)]
    exact .refl ..
  | ok root t₁ =>
    have first : [id].mapM (copyWithin depth) t = .ok [root] t₁ := by
      rw [List.mapM_cons, run_bind ran]
      rfl
    rw [final_of_ok ran, show id :: rest = [id] ++ rest from rfl, final_mapM_append first]
    exact copyAll_keeps ..

theorem final_copyWithin (depth : Nat) {node : Node NodeId} (found : t.nodes[id]? = some node) :
    Extends [] ((node.children.mapM (copyWithin depth)).final t)
      ((copyWithin (depth + 1) id).final t) := by
  rw [← Node.children_traverse, final_map]
  unfold copyWithin
  cases ran : node.traverse (copyWithin depth) t with
  | error e t₁ =>
    rw [final_of_error ran, final_of_error ((run_bind (run_node found)).trans (bind_error ran))]
    exact .refl ..
  | ok copied t₁ =>
    rw [final_of_ok ran, final_of_ok ((run_bind (run_node found)).trans (run_bind ran))]
    exact (Becomes.push t₁ copied).ext

theorem copyWithin_dangles {levels passed missing : Nat}
    (ends : t₀.Dangles levels id passed missing) (ext : Extends [] t₀ t)
    (room : ∀ u, Spans t₀ u → u.height + levels ≤ depth) (deep : levels < depth) :
    t.size + passed ≤ ((copyWithin depth id).final t).size ∧
      (t.size + passed ≤ missing → ∃ t', copyWithin depth id t = .error (.notFound missing) t' ∧
        t'.size = t.size + passed) := by
  induction ends generalizing t depth with
  | here _ =>
    obtain ⟨depth, rfl⟩ : ∃ d, depth = d + 1 := ⟨depth - 1, by omega⟩
    exact ⟨(copyWithin_keeps ..).size_le, fun outside => ⟨t, copyWithin_missing outside, rfl⟩⟩
  | @step levels id part missing passed node before after pick found split whole _ ih =>
    obtain ⟨depth, rfl⟩ : ∃ d, depth = d + 1 := ⟨depth - 1, by omega⟩
    have held := ext.found found
    have each : ∀ other ∈ before, ∀ t₁, Extends [] t t₁ → ∃ root t₂,
        copyWithin depth other t₁ = .ok root t₂ ∧ Duplicates t₁ t₂ [root] [pick other] := by
      intro other inside t₁ ext₁
      obtain ⟨u, spans, rfl, -⟩ := (whole other inside).exists_spans
      have := room u spans
      obtain ⟨root, t₂, ran, -, copied⟩ := copyWithin_run spans (whole _ inside)
        (show u.height ≤ depth by omega) (ext.trans ext₁ (by simp))
      exact ⟨root, t₂, ran, copied⟩
    obtain ⟨roots, t₁, ran, copies⟩ := mapM_duplicates each
    have size := copies.size
    rw [List.map_map, Function.comp_def] at size
    obtain ⟨grown, fails⟩ := ih (ext.trans copies.kept (by simp))
      (fun u spans => by have := room u spans; omega) (by omega : levels < depth)
    constructor
    -- Whatever follows the dangling reference, and however it ends, only adds nodes.
    · have all := (final_mapM_cons depth part after t₁).size_le
      rw [← final_mapM_append ran, ← split] at all
      have := (final_copyWithin depth held).size_le
      omega
    · intro outside
      obtain ⟨t₂, failed, size₂⟩ := fails (by omega)
      have below : node.children.mapM (copyWithin depth) t = .error (.notFound missing) t₂ := by
        rw [split, List.mapM_append, run_bind ran, List.mapM_cons]
        exact bind_error (bind_error failed)
      refine ⟨t₂, ?_, by omega⟩
      unfold copyWithin
      rw [run_bind (run_node held)]
      exact bind_error (traverse_error_iff.2 below)

/-- The root is the last of the nodes that were added, as many as the term has. They hold a copy of the
term in which nothing is shared, neither with the source nor among themselves. -/
structure SyntaxTree.CopyOf (t : SyntaxTree) (id : NodeId) (x : Term) (root : NodeId)
    (t' : SyntaxTree) : Prop where
  kept : Extends [] t t'
  size : t'.size = t.size + x.size
  last : root + 1 = t'.size
  unfolds : t'.Unfolds root x
  nodes : ∃ ids, t'.subtree root = .ok ids ∧ ids.Perm (List.range' t.size x.size)
  once : ∀ new ∈ List.range' t.size x.size,
    ((List.range' t.size x.size).flatMap t'.refs).count new = if new = root then 0 else 1
  apart : t'.sharesNodes [id] [root] = .ok false

theorem exists_new_spans {root : NodeId} (ran : copyWithin depth id t = .ok root t') :
    ∃ v, Spans t' v ∧ v.root = root ∧ v.ids.Nodup ∧ ∀ new : Nat, new ∈ v.ids → t.size ≤ new := by
  have plants := copyWithin_plants depth id (Forest.empty (Nat.le_refl t.size))
  rw [ran] at plants
  obtain ⟨-, live, forest⟩ := plants
  obtain ⟨us, roots, spans, once, inside⟩ := forest.exists_unfoldings
  obtain ⟨v, rfl⟩ : ∃ v, us = [v] := List.length_eq_one_iff.1 (by simpa using congrArg List.length roots)
  rw [List.flatMap_singleton] at once inside
  exact ⟨v, spans v (by simp), by simpa using roots, once, fun new member =>
    (forest.inside new (by simpa using inside new member)).1⟩

theorem copyOf_run {x : Term} (unfolds : t.Unfolds id x) :
    ∃ root t', TreeM.copy id t = .ok root t' ∧ t.CopyOf id x root t' := by
  obtain ⟨u, spans, rfl, -⟩ := unfolds.exists_spans
  obtain ⟨root, t', ran, last, copied⟩ :=
    copyWithin_run spans unfolds (Nat.le_succ_of_le spans.height_le_size) (.refl [] t)
  obtain ⟨v, spans', rfl, once, new⟩ := exists_new_spans ran
  have stands : t'.Unfolds v.root x := (List.forall₂_cons.1 copied.unfolds).1
  have size : t'.size = t.size + x.size := by simpa using copied.size
  have order : v.ids.Perm (List.range' t.size x.size) := by
    obtain ⟨w, spans'', root, length⟩ := stands.exists_spans
    rw [spans''.eq_of_root spans' root] at length
    refine (once.subperm fun id member => ?_).perm_of_length_le (by simp [length])
    have := new id member
    have := spans'.lt_size member
    rw [List.mem_range'_1]
    omega
  refine ⟨v.root, t', ran, copied.kept, size, last, stands, ⟨v.ids, spans'.subtree_eq, order⟩,
    fun id member => ?_, ?_⟩
  · rw [← (order.flatMap_right t'.refs).count_eq]
    exact spans'.count_refs once (order.mem_iff.2 member)
  · exact SyntaxTree.sharesNodes_eq_false (spans.of_extends copied.kept)
      (fun id => spans.lt_size) spans' new

/-- A node that stands for a term is copied, whatever is shared below it. Where every way down ends,
that is each node without a dangling reference below. With one, the copy fails at the first of them
unless the nodes that it has added by then reach that far. However it ends, the arena has only grown. -/
theorem copy_outcome (t : SyntaxTree) (id : NodeId) :
    (∀ x, t.Unfolds id x → ∃ root t', TreeM.copy id t = .ok root t' ∧ t.CopyOf id x root t') ∧
    (∀ depth passed missing : Nat, t.Dangles depth id passed missing →
      (t.size + passed ≤ missing → ∃ t', TreeM.copy id t = .error (.notFound missing) t' ∧
        t'.size = t.size + passed) ∧
      (missing < t.size + passed → ∀ t', TreeM.copy id t ≠ .error (.notFound missing) t')) ∧
    (t.Bounded id → (∃ x, t.Unfolds id x) ∨ ∃ depth passed missing, t.Dangles depth id passed missing) ∧
    Extends [] t ((TreeM.copy id).final t) := by
  refine ⟨fun x => copyOf_run, fun depth passed missing ends => ?_,
    SyntaxTree.Bounded.unfolds_or_dangles, copyWithin_keeps t.depthBound id t⟩
  have room : ∀ u, Spans t u → u.height + depth ≤ t.depthBound := fun u spans =>
    Nat.le_succ_of_le (ends.height_add_depth_le fun level low =>
      spans.exists_of_height (level + 1) (Nat.succ_pos _) low)
  have deep : 0 + depth ≤ t.size := ends.height_add_depth_le fun level low => absurd low (by simp)
  obtain ⟨grown, fails⟩ := copyWithin_dangles ends (.refl [] t) room
    (show depth < t.size + 1 by omega)
  refine ⟨fails, fun inside t' failed => ?_⟩
  have ran : copyWithin t.depthBound id t = .error (.notFound missing) t' := failed
  have outside := size_le_of_notFound ran
  rw [final_of_error ran] at grown
  omega

def danglingTuple : SyntaxTree := ⟨#[.expr (.name "a"), .expr (.tuple [0, 2])], []⟩

/-- The copy of the first item takes the id that the second one refers to. -/
theorem copy_outcome_reached : danglingTuple.Dangles 1 1 1 2 ∧
    (∀ t', TreeM.copy 1 danglingTuple ≠ .error (.notFound 2) t') ∧
    ∃ t', TreeM.copy 1 danglingTuple = .ok 4 t' ∧ t'.nodes[4]? = some (.expr (.tuple [2, 3])) := by
  have named : danglingTuple.Unfolds 0 (.node (.expr (.name "a"))) :=
    SyntaxTree.Unfolds.node_iff.2 ⟨.expr (.name "a"), rfl, rfl, .nil⟩
  have last : danglingTuple.Dangles 0 2 0 2 := .here (by decide)
  have ends : danglingTuple.Dangles 1 1 1 2 := by
    have step := @SyntaxTree.Dangles.step danglingTuple 0 1 2 2 0 (.expr (.tuple [0, 2])) [0] []
      (fun _ => .node (.expr (.name "a"))) rfl rfl (by simpa using named) last
    simpa [Node.children, Expr.children] using step
  exact ⟨ends, ((copy_outcome danglingTuple 1).2.1 1 1 2 ends).2 (by decide), _, rfl, rfl⟩

end QuantumLowering
