import QuantumLowering.Proofs.Syntax.Unfolded
import QuantumLowering.Syntax.Equivalence

namespace QuantumLowering

variable {ι κ : Type}

theorem Binary64.agrees_iff {x y : Binary64} : x.agrees y ↔
    x.magnitude = y.magnitude ∧ (x.negative = y.negative ∨ x.magnitude = 0) := by
  simp [Binary64.agrees]

theorem Binary64.agrees_equivalence : Equivalence fun x y : Binary64 => x.agrees y := by
  refine ⟨fun x => ?_, fun {x y} same => ?_, fun {x y z} same same' => ?_⟩ <;>
    simp only [agrees_iff] at * <;> grind

namespace FloatValue

variable {x y z : FloatValue}

theorem agrees_self_iff : x.agrees x ↔ x.isNaN = false := by
  cases x with
  | finite x => simpa [agrees, isNaN] using Binary64.agrees_equivalence.refl x
  | infinite | nan => simp [agrees, isNaN]

theorem agrees_symm (same : x.agrees y) : y.agrees x := by
  cases x <;> cases y <;> simp only [agrees, Bool.false_eq_true] at same ⊢
  case finite.finite => exact Binary64.agrees_equivalence.symm same
  case infinite.infinite => exact Bool.beq_comm.trans same

theorem agrees_trans (same : x.agrees y) (same' : y.agrees z) : x.agrees z := by
  cases x <;> cases y <;> cases z <;> simp only [agrees, Bool.false_eq_true] at same same' ⊢
  case finite.finite.finite => exact Binary64.agrees_equivalence.trans same same'
  case infinite.infinite.infinite =>
    rw [beq_iff_eq] at same same' ⊢
    exact same.trans same'

end FloatValue

def Node.blank : Node ι → Node ι
  | .expr (.float _) => .expr (.float default)
  | node => node

def Node.NaNFree (node : Node ι) : Prop := ∀ x ∈ node.floats, x.isNaN = false

namespace Node

@[simp]
theorem floats_map (f : ι → κ) (node : Node ι) : (node.map f).floats = node.floats := by
  match node with
  | .expr e => cases e <;> rfl
  | .stmt s => rfl

@[simp]
theorem children_blank (node : Node ι) : node.blank.children = node.children := by
  match node with
  | .expr e => cases e <;> rfl
  | .stmt s => rfl

theorem shape_blank (node : Node ι) : node.blank.shape = node.shape.blank := by
  match node with
  | .expr e => cases e <;> rfl
  | .stmt s => rfl

theorem length_floats_blank (node : Node ι) : node.blank.floats.length = node.floats.length := by
  match node with
  | .expr e => cases e <;> rfl
  | .stmt s => rfl

theorem blank_map_eq_iff [Inhabited κ] {f g : ι → κ} {x y : Node ι} :
    (x.map f).blank = (y.map g).blank ↔
      x.shape.blank = y.shape.blank ∧ x.children.map f = y.children.map g := by
  constructor
  · intro same
    refine ⟨?_, by simpa using congrArg children same⟩
    simpa [shape_blank] using congrArg shape same
  · rintro ⟨shapes, parts⟩
    exact ext_shape (by simpa [shape_blank] using shapes) (by simpa using parts)

end Node

theorem Keyword.map_unit_eq_iff {xs : List (Keyword ι)} {ys : List (Keyword κ)} :
    xs.map (Keyword.map fun _ => ()) = ys.map (Keyword.map fun _ => ()) ↔
      xs.map Keyword.name = ys.map Keyword.name := by
  induction xs generalizing ys with
  | nil => cases ys <;> simp
  | cons x xs ih => cases ys <;> simp [Keyword.map, ih]

theorem optional_unit_eq_iff {x : Option ι} {y : Option κ} :
    x.map (fun _ => ()) = y.map (fun _ => ()) ↔ x.isSome = y.isSome := by
  cases x <;> cases y <;> simp

/-- Heads agree if nothing but the parts and a float can tell the two nodes apart. -/
theorem Node.sameHead_iff {x : Node ι} {y : Node κ} : x.sameHead y ↔
    x.shape.blank = y.shape.blank ∧ List.Forall₂ (fun p q => p.agrees q) x.floats y.floats := by
  match x, y with
  | .expr x, .expr y =>
    cases x <;> cases y <;>
      simp [sameHead, Expr.sameHead, shape, map, Expr.map, blank, floats, Keyword.map_unit_eq_iff]
  | .stmt x, .stmt y =>
    cases x <;> cases y <;>
      simp [sameHead, Stmt.sameHead, shape, map, Stmt.map, blank, floats, optional_unit_eq_iff,
        and_assoc, and_comm, and_left_comm]
  | .expr x, .stmt y => cases x <;> simp [sameHead, shape, map, Expr.map, blank]
  | .stmt x, .expr y => cases y <;> simp [sameHead, shape, map, Expr.map, blank]

theorem forall₂_congr {R S : ι → κ → Prop} {xs : List ι} {ys : List κ}
    (each : ∀ x ∈ xs, ∀ y ∈ ys, R x y ↔ S x y) : List.Forall₂ R xs ys ↔ List.Forall₂ S xs ys := by
  induction xs generalizing ys with
  | nil => simp
  | cons x xs ih =>
    cases ys with
    | nil => simp
    | cons y ys =>
      rw [List.forall₂_cons, List.forall₂_cons, each x List.mem_cons_self y List.mem_cons_self,
        ih fun x inside y inside' =>
          each x (List.mem_cons_of_mem _ inside) y (List.mem_cons_of_mem _ inside')]

theorem forall₂_trans {R : ι → ι → Prop} (trans : ∀ x y z, R x y → R y z → R x z)
    {xs ys zs : List ι} (first : List.Forall₂ R xs ys) (second : List.Forall₂ R ys zs) : List.Forall₂ R xs zs := by
  induction first generalizing zs with
  | nil => exact second
  | cons head _ ih =>
    cases second with
    | cons head' rest => exact .cons (trans _ _ _ head head') (ih rest)

namespace Term

theorem induct {P : Term → Prop}
    (step : ∀ layer, (∀ part ∈ layer.children, P part) → P (.node layer)) (x : Term) : P x :=
  match x with
  | .node layer => step layer fun part _ => induct step part
termination_by sizeOf x
decreasing_by exact sizeOf_part ‹_›

def floats : Term → List FloatValue
  | .node layer => layer.floats ++ (layer.children.attach.map fun part => floats part.1).flatten
termination_by x => sizeOf x
decreasing_by exact sizeOf_part part.2

def blank : Term → Term
  | .node layer => .node (layer.attach.map fun part => blank part.1).blank
termination_by x => sizeOf x
decreasing_by exact sizeOf_part part.2

def NaNFree (x : Term) : Prop := ∀ value ∈ x.floats, value.isNaN = false

/-- The same term, but that float literals need only agree as numbers. -/
structure Alike (x y : Term) : Prop where
  terms : x.blank = y.blank
  numbers : List.Forall₂ (fun p q => p.agrees q) x.floats y.floats

@[simp]
theorem floats_node (layer : Node Term) :
    (node layer).floats = layer.floats ++ layer.children.flatMap floats := by
  rw [floats, List.attach_map_val (f := floats), List.flatMap_def]

theorem naNFree_node {layer : Node Term} :
    (node layer).NaNFree ↔ layer.NaNFree ∧ ∀ part ∈ layer.children, part.NaNFree := by
  simp only [NaNFree, Node.NaNFree, floats_node, List.forall_mem_append, List.forall_mem_flatMap]

@[simp]
theorem blank_node (layer : Node Term) : (node layer).blank = .node (layer.map blank).blank := by
  rw [blank, Node.attach_map blank]

theorem length_floats_blank (x : Term) : x.blank.floats.length = x.floats.length := by
  induction x using induct with
  | step layer ih =>
    simp only [blank_node, floats_node, List.length_append, Node.length_floats_blank,
      Node.floats_map, Node.children_blank, Node.children_map, List.length_flatMap, List.map_map]
    congr 2
    exact List.map_congr_left ih

theorem length_floats_eq {x y : Term} (same : x.blank = y.blank) :
    x.floats.length = y.floats.length := by
  rw [← length_floats_blank, same, length_floats_blank]

theorem forall₂_alike_iff {xs ys : List Term} : List.Forall₂ Alike xs ys ↔
    xs.map blank = ys.map blank ∧
      List.Forall₂ (fun p q => p.agrees q) (xs.flatMap floats) (ys.flatMap floats) := by
  induction xs generalizing ys with
  | nil => cases ys <;> simp
  | cons x xs ih =>
    cases ys with
    | nil => simp
    | cons y ys =>
      simp only [List.forall₂_cons, List.map_cons, List.cons.injEq, List.flatMap_cons, ih]
      constructor
      · rintro ⟨⟨terms, numbers⟩, terms', numbers'⟩
        exact ⟨⟨terms, terms'⟩, (forall₂_append_iff (length_floats_eq terms)).2 ⟨numbers, numbers'⟩⟩
      · rintro ⟨⟨terms, terms'⟩, numbers⟩
        obtain ⟨first, rest⟩ := (forall₂_append_iff (length_floats_eq terms)).1 numbers
        exact ⟨⟨terms, first⟩, terms', rest⟩

theorem alike_node_iff {x y : Node Term} :
    (node x).Alike (node y) ↔ x.sameHead y ∧ List.Forall₂ Alike x.children y.children := by
  have unfold_ : (node x).Alike (node y) ↔ (x.map blank).blank = (y.map blank).blank ∧
      List.Forall₂ (fun p q => p.agrees q) (x.floats ++ x.children.flatMap floats)
        (y.floats ++ y.children.flatMap floats) := by
    constructor
    · rintro ⟨terms, numbers⟩
      exact ⟨by simpa using terms, by simpa using numbers⟩
    · rintro ⟨terms, numbers⟩
      exact ⟨by simpa using terms, by simpa using numbers⟩
  rw [unfold_, Node.blank_map_eq_iff, Node.sameHead_iff, forall₂_alike_iff]
  constructor
  · rintro ⟨⟨shapes, parts⟩, numbers⟩
    -- The shapes alone say whether there is a float, so both lists split at the same place.
    have lengths : x.floats.length = y.floats.length := by
      simpa [Node.length_floats_blank, Node.shape] using congrArg (List.length ∘ Node.floats) shapes
    obtain ⟨own, below⟩ := (forall₂_append_iff lengths).1 numbers
    exact ⟨⟨shapes, own⟩, parts, below⟩
  · rintro ⟨⟨shapes, own⟩, parts, below⟩
    exact ⟨⟨shapes, parts⟩, (forall₂_append_iff own.length_eq).2 ⟨own, below⟩⟩

theorem alike_map_iff {x y : Node NodeId} {pick pick' : NodeId → Term} :
    (node (x.map pick)).Alike (node (y.map pick')) ↔
      x.sameHead y ∧ List.Forall₂ (fun p q => (pick p).Alike (pick' q)) x.children y.children := by
  have heads : (x.map pick).sameHead (y.map pick') = x.sameHead y := by
    rw [Bool.eq_iff_iff, Node.sameHead_iff, Node.sameHead_iff]
    simp
  rw [alike_node_iff, heads, Node.children_map, Node.children_map, List.forall₂_map_left_iff,
    List.forall₂_map_right_iff]

theorem alike_self_iff {x : Term} : x.Alike x ↔ x.NaNFree := by
  constructor
  · rintro ⟨-, agree⟩ value inside
    exact FloatValue.agrees_self_iff.1 (List.forall₂_same.1 agree value inside)
  · intro free
    exact ⟨rfl, List.forall₂_same.2 fun value inside =>
      FloatValue.agrees_self_iff.2 (free value inside)⟩

theorem Alike.symm {x y : Term} (alike : x.Alike y) : y.Alike x :=
  ⟨alike.terms.symm, (alike.numbers.imp fun _ _ => FloatValue.agrees_symm).flip⟩

theorem Alike.trans {x y z : Term} (alike : x.Alike y) (alike' : y.Alike z) : x.Alike z := by
  refine ⟨alike.terms.trans alike'.terms, forall₂_trans ?_ alike.numbers alike'.numbers⟩
  exact fun _ _ _ => FloatValue.agrees_trans

end Term

namespace SyntaxTree

variable {t : SyntaxTree}

theorem allPairs_run {f : NodeId → NodeId → Except TreeError Bool} {R : NodeId → NodeId → Prop}
    {xs ys : List NodeId}
    (each : ∀ x ∈ xs, ∀ y ∈ ys, ∃ r, f x y = .ok r ∧ (r = true ↔ R x y)) :
    ∃ r, allPairs f xs ys = .ok r ∧ (r = true ↔ List.Forall₂ R xs ys) := by
  induction xs generalizing ys with
  | nil =>
    cases ys with
    | nil => exact ⟨true, rfl, by simp⟩
    | cons y ys => exact ⟨false, rfl, by simp⟩
  | cons x xs ih =>
    cases ys with
    | nil => exact ⟨false, rfl, by simp⟩
    | cons y ys =>
      obtain ⟨first, ran, holds⟩ := each x List.mem_cons_self y List.mem_cons_self
      rw [allPairs, ran, List.forall₂_cons, ← holds]
      cases first with
      | false => exact ⟨false, rfl, by simp⟩
      | true =>
        obtain ⟨rest, ran', holds'⟩ := ih fun x inside y inside' =>
          each x (List.mem_cons_of_mem _ inside) y (List.mem_cons_of_mem _ inside')
        exact ⟨rest, ran', by simp [holds']⟩

theorem sameWithin_succ {depth : Nat} {a b : NodeId} {x y : Node NodeId}
    (found : t.nodes[a]? = some x) (found' : t.nodes[b]? = some y) :
    t.sameWithin (depth + 1) a b =
      if x.sameHead y then allPairs (t.sameWithin depth) x.children y.children else .ok false := by
  rw [sameWithin, node, node, found, found']
  rfl

theorem sameWithin_run {u : Unfolding} (spans : Spans t u) {b : NodeId} {x y : Term} {depth : Nat}
    (unfolds : t.Unfolds u.root x) (unfolds' : t.Unfolds b y) (bound : u.height ≤ depth) :
    ∃ r, t.sameWithin depth u.root b = .ok r ∧ (r = true ↔ x.Alike y) := by
  induction spans generalizing b x y depth with
  | @node id parts layer found kids below ih =>
    obtain ⟨depth, rfl⟩ : ∃ d, depth = d + 1 :=
      ⟨depth - 1, by have := Unfolding.height_pos (.node id parts); omega⟩
    cases unfolds with
    | @node _ _ pick found₁ parts₁ =>
    cases unfolds' with
    | @node _ layer' pick' found' parts' =>
    cases found.symm.trans found₁
    have each : ∀ p ∈ layer.children, ∀ q ∈ layer'.children,
        ∃ r, t.sameWithin depth p q = .ok r ∧ (r = true ↔ (pick p).Alike (pick' q)) := by
      intro p inside q inside'
      obtain ⟨v, member, rfl⟩ := List.mem_map.1 (kids ▸ inside)
      have lower : v.height < (Unfolding.node id parts).height := Unfolding.height_lt member
      exact ih v member (parts₁ _ inside) (parts' q inside') (by omega)
    rw [Term.alike_map_iff, Unfolding.root, sameWithin_succ found found']
    by_cases head : layer.sameHead layer' = true
    · obtain ⟨r, ran, holds⟩ := allPairs_run each
      rw [if_pos head, ran]
      exact ⟨r, rfl, by simp [holds, head]⟩
    · rw [if_neg head]
      exact ⟨false, rfl, by simp [head]⟩

theorem same_run {a b : NodeId} {x y : Term} (unfolds : t.Unfolds a x) (unfolds' : t.Unfolds b y) :
    ∃ r, t.same a b = .ok r ∧ (r = true ↔ x.Alike y) := by
  obtain ⟨u, spans, rfl, -⟩ := unfolds.exists_spans
  exact sameWithin_run spans unfolds unfolds' (Nat.le_succ_of_le spans.height_le_size)

theorem same_iff {a b : NodeId} {x y : Term} (unfolds : t.Unfolds a x) (unfolds' : t.Unfolds b y) :
    t.same a b = .ok true ↔ x.Alike y := by
  obtain ⟨r, ran, holds⟩ := same_run unfolds unfolds'
  rw [ran, Except.ok.injEq, holds]

/-- Two nodes that stand for terms are always compared, and they are the same if they stand for the
same term, up to numbers that agree. So among those of these nodes that no NaN is below sameness is an
equivalence. Two nodes are the same if one constructor makes both from parts that are the same in
their places: an argument is never compared with a keyword argument, a binding with the first
statement of a body, or a statement of one branch with one of the other. -/
theorem same_outcome (t : SyntaxTree) :
    (∀ a b x y, t.Unfolds a x → t.Unfolds b y →
      ∃ r, t.same a b = .ok r ∧ (r = true ↔ x.Alike y)) ∧
    (Equivalence fun a b : { id : NodeId // ∃ x : Term, t.Unfolds id x ∧ x.NaNFree } =>
      t.same a b = .ok true) ∧
    ∀ (a b : { id : NodeId // ∃ x, t.Unfolds id x }) (x y : Node NodeId),
      t.nodes[a.1]? = some x → t.nodes[b.1]? = some y →
        (t.same a b = .ok true ↔ x.Related (fun p q => t.same p q = .ok true) y) := by
  refine ⟨fun a b x y => same_run, ⟨?_, ?_, ?_⟩, ?_⟩
  · rintro ⟨a, x, unfolds, free⟩
    exact (same_iff unfolds unfolds).2 (Term.alike_self_iff.2 free)
  · rintro ⟨a, x, unfolds, _⟩ ⟨b, y, unfolds', _⟩ same
    exact (same_iff unfolds' unfolds).2 ((same_iff unfolds unfolds').1 same).symm
  · rintro ⟨a, x, unfolds, _⟩ ⟨b, y, unfolds', _⟩ ⟨c, z, unfolds'', _⟩ same same'
    exact (same_iff unfolds unfolds'').2 (((same_iff unfolds unfolds').1 same).trans
      ((same_iff unfolds' unfolds'').1 same'))
  · rintro ⟨a, _, unfolds⟩ ⟨b, _, unfolds'⟩ x y found found'
    rw [same_iff unfolds unfolds', Node.related_iff]
    obtain ⟨found₁, below⟩ := unfolds
    obtain ⟨found₂, below'⟩ := unfolds'
    cases found.symm.trans found₁
    cases found'.symm.trans found₂
    rw [Term.alike_map_iff]
    refine and_congr_right fun _ => forall₂_congr fun p inside q inside' => ?_
    exact (same_iff (below p inside) (below' q inside')).symm

example : (⟨#[.expr (.name "f"), .expr (.name "x"), .expr (.call 0 [1] []),
    .expr (.call 0 [] [⟨"k", 1⟩])], []⟩ : SyntaxTree).same 2 3 = .ok false := by
  decide +kernel

example : (⟨#[.expr (.float .nan)], []⟩ : SyntaxTree).same 0 0 = .ok false := by
  decide +kernel

end SyntaxTree

end QuantumLowering
