import Mathlib.Algebra.Group.End
import Mathlib.Algebra.PresentedMonoid.Basic
import Mathlib.Data.Fintype.Card
import QuantumLowering.Proofs.Lowering.Involution

/-!
Cancellation of adjoints around a callee. Functors form a monoid in which an adjoint is its own
inverse. Every element of it is written by one chain without two adjoints side by side, and the
callee with adjacent adjoints cancelled is wrapped in that chain.
-/

namespace QuantumLowering

namespace GateFunctor

theorem CancelsPair.reverse {chain chain' : List GateFunctor}
    (cancels : CancelsPair chain chain') : CancelsPair chain.reverse chain'.reverse := by
  obtain ⟨front, back⟩ := cancels
  simpa using CancelsPair.pair back.reverse front.reverse

theorem Irreducible.reverse {chain : List GateFunctor} (irreducible : Irreducible chain) :
    Irreducible chain.reverse := by
  intro pair
  exact irreducible (List.reverse_infix.1 (by simpa using pair))

theorem Cancelled.reverse {chain chain' : List GateFunctor} (cancelled : Cancelled chain chain') :
    Cancelled chain.reverse chain'.reverse :=
  ⟨cancelled.1.lift List.reverse fun _ _ cancels => cancels.reverse, cancelled.2.reverse⟩

/-- Taken one by one from the outermost, with a stack of those that stay, the functors leave the
same chain. -/
theorem reverse_foldl_compose (chain : List GateFunctor) :
    (chain.foldl (fun taken f => compose f taken) []).reverse = reduceChain chain := by
  have stack : chain.foldl (fun taken f => compose f taken) [] = reduceChain chain.reverse :=
    List.foldr_reverse.symm
  have inward := (cancelled_iff.2 (Eq.refl (reduceChain chain.reverse))).reverse
  rw [List.reverse_reverse] at inward
  rw [stack, cancelled_iff.1 inward]

/-- The law between functors: an adjoint inside an adjoint is nothing. -/
inductive Law : FreeMonoid GateFunctor → FreeMonoid GateFunctor → Prop where
  | adjoint_twice : Law (.of .adjoint * .of .adjoint) 1

def product (chain : List GateFunctor) : PresentedMonoid Law :=
  PresentedMonoid.mk Law (FreeMonoid.ofList chain)

theorem product_cons (f : GateFunctor) (chain : List GateFunctor) :
    product (f :: chain) = PresentedMonoid.of Law f * product chain := by
  rw [product, FreeMonoid.ofList_cons, map_mul]
  rfl

theorem product_adjoint_twice (chain : List GateFunctor) :
    product (.adjoint :: .adjoint :: chain) = product chain := by
  have law : PresentedMonoid.of Law .adjoint * PresentedMonoid.of Law .adjoint = 1 :=
    PresentedMonoid.mk_eq_mk_of_rel .adjoint_twice
  rw [product_cons, product_cons, ← mul_assoc, law, one_mul]

theorem product_compose (f : GateFunctor) (chain : List GateFunctor) :
    product (compose f chain) = PresentedMonoid.of Law f * product chain := by
  rcases compose_cases f chain with ⟨back, rfl, rfl, same⟩ | ⟨same, -⟩
  · rw [same, ← product_cons, product_adjoint_twice]
  · rw [same, product_cons]

theorem product_reduceChain (chain : List GateFunctor) :
    product (reduceChain chain) = product chain := by
  induction chain with
  | nil => rfl
  | cons f chain ih => rw [reduceChain_cons, product_compose, ih, product_cons]

def before (f : GateFunctor) (chain : Subtype Irreducible) : Subtype Irreducible :=
  ⟨compose f chain, chain.2.compose f⟩

/-- The monoid acts on the chains without two adjoints side by side. -/
def act : PresentedMonoid Law →* Function.End (Subtype Irreducible) :=
  PresentedMonoid.lift (M := Function.End (Subtype Irreducible)) before fun _ _ law => by
    cases law
    funext chain
    exact Subtype.ext (compose_adjoint_twice chain.2)

theorem act_product (chain : List GateFunctor) :
    act (product chain) ⟨[], irreducible_reduceChain []⟩ =
      ⟨reduceChain chain, irreducible_reduceChain chain⟩ := by
  induction chain with
  | nil => rfl
  | cons f chain ih =>
    rw [product_cons, map_mul]
    exact congrArg (before f) ih

theorem reduceChain_eq_iff {chain chain' : List GateFunctor} :
    reduceChain chain = reduceChain chain' ↔ product chain = product chain' := by
  constructor
  · intro same
    rw [← product_reduceChain chain, same, product_reduceChain]
  · intro same
    have acts := act_product chain
    rw [same, act_product chain'] at acts
    exact (congrArg Subtype.val acts).symm

theorem normal_iff {chain chain' : List GateFunctor} :
    Irreducible chain' ∧ product chain' = product chain ↔ chain' = reduceChain chain := by
  constructor
  · rintro ⟨irreducible, same⟩
    rw [← irreducible.reduceChain_eq, reduceChain_eq_iff.2 same]
  · rintro rfl
    exact ⟨irreducible_reduceChain chain, product_reduceChain chain⟩

theorem length_reduceChain_eq_iff {chain : List GateFunctor} :
    (reduceChain chain).length = chain.length ↔ Irreducible chain := by
  constructor
  · intro length
    rw [← reduceChain_eq_of_length length]
    exact irreducible_reduceChain chain
  · intro irreducible
    rw [irreducible.reduceChain_eq]

end GateFunctor

/-- The functors from an id down to the first expression that is none, the outermost first. -/
inductive SyntaxTree.Wraps (t : SyntaxTree) : NodeId → List GateFunctor → NodeId → Prop where
  | base {id : NodeId} {layer : Expr NodeId} (found : t.nodes[id]? = some (.expr layer))
    (other : ∀ f target, layer ≠ .functor f target) : Wraps t id [] id
  | functor {id target base : NodeId} {f : GateFunctor} {chain : List GateFunctor}
    (found : t.nodes[id]? = some (.expr (.functor f target)))
    (inner : Wraps t target chain base) : Wraps t id (f :: chain) base

namespace SyntaxTree.Wraps

variable {t t' : SyntaxTree} {id base : NodeId} {chain : List GateFunctor}

theorem lt_size (wraps : t.Wraps id chain base) : id < t.size := by
  cases wraps with
  | base found _ | functor found _ => exact (Array.getElem?_eq_some_iff.1 found).1

theorem unique {chain' : List GateFunctor} {base' : NodeId} (wraps : t.Wraps id chain base)
    (wraps' : t.Wraps id chain' base') : chain' = chain ∧ base' = base := by
  induction wraps generalizing chain' with
  | base found other =>
    cases wraps' with
    | base _ _ => exact ⟨rfl, rfl⟩
    | functor found' _ =>
      cases found.symm.trans found'
      exact absurd rfl (other _ _)
  | functor found _ ih =>
    cases wraps' with
    | base found' other =>
      cases found.symm.trans found'
      exact absurd rfl (other _ _)
    | functor found' inner =>
      cases found.symm.trans found'
      obtain ⟨rfl, rfl⟩ := ih inner
      exact ⟨rfl, rfl⟩

theorem exists_drop (wraps : t.Wraps id chain base) {k : Nat} (bound : k ≤ chain.length) :
    ∃ id', t.Wraps id' (chain.drop k) base := by
  induction wraps generalizing k with
  | base found other =>
    obtain rfl := Nat.le_zero.1 bound
    exact ⟨_, .base found other⟩
  | functor found inner ih =>
    cases k with
    | zero => exact ⟨_, .functor found inner⟩
    | succ k => exact ih (Nat.le_of_succ_le_succ bound)

/-- No node is met twice on the way down: below it the chain would have two lengths. -/
theorem length_lt_size (wraps : t.Wraps id chain base) : chain.length < t.size := by
  choose at_ stands using fun k : Fin (chain.length + 1) =>
    wraps.exists_drop (Nat.le_of_lt_succ k.isLt)
  have card := Fintype.card_le_of_injective
    (fun k => (⟨at_ k, (stands k).lt_size⟩ : Fin t.size)) fun j k same => ?_
  · simpa [Nat.succ_le_iff] using card
  · have below := stands j
    rw [Fin.mk.inj_iff.1 same] at below
    have lengths := congrArg List.length (below.unique (stands k)).1
    rw [List.length_drop, List.length_drop] at lengths
    omega

theorem chainWithin_eq {depth : Nat} (wraps : t.Wraps id chain base)
    (bound : chain.length < depth) : t.chainWithin depth id = .ok (chain, base) := by
  induction wraps generalizing depth with
  | base found other =>
    obtain ⟨depth, rfl⟩ := Nat.exists_eq_add_one_of_ne_zero (Nat.ne_of_gt bound)
    simp only [chainWithin, expr, found, Bind.bind, Except.bind]
    rfl
  | functor found _ ih =>
    obtain ⟨depth, rfl⟩ := Nat.exists_eq_add_one_of_ne_zero (Nat.ne_zero_of_lt bound)
    simp only [chainWithin, expr, found, Bind.bind, Except.bind,
      ih (Nat.lt_of_succ_lt_succ bound)]
    rfl

theorem chain_eq (wraps : t.Wraps id chain base) : t.chain id = .ok (chain, base) :=
  wraps.chainWithin_eq (Nat.lt_succ_of_lt wraps.length_lt_size)

theorem of_extends (wraps : t.Wraps id chain base) (ext : Extends [] t t') :
    t'.Wraps id chain base := by
  induction wraps with
  | base found other => exact .base (ext.found found) other
  | functor found _ ih => exact .functor (ext.found found) ih

theorem base_self (wraps : t.Wraps id chain base) : t.Wraps base [] base := by
  induction wraps with
  | base found other => exact .base found other
  | functor _ _ ih => exact ih

end SyntaxTree.Wraps

namespace TreeM

open GateFunctor

variable {t : SyntaxTree} {callee base : NodeId} {chain : List GateFunctor}

theorem run_wrap (chain : List GateFunctor) (stands : t.Wraps base [] base) :
    ∃ top t', chain.foldrM addFunctor base t = .ok top t' ∧ Extends [] t t' ∧
      t'.Wraps top chain base ∧ t'.size = t.size + chain.length := by
  induction chain with
  | nil => exact ⟨base, t, rfl, .refl .., stands, rfl⟩
  | cons f chain ih =>
    obtain ⟨top, t', ran, ext, wraps, size⟩ := ih
    have grown : Extends [] t' (t'.push (.expr (.functor f top))) := (Becomes.push t' _).ext
    refine ⟨t'.size, t'.push (.expr (.functor f top)), ?_, ext.trans grown (by simp),
      .functor (by simp [SyntaxTree.nodes_push]) (wraps.of_extends grown), ?_⟩
    · rw [List.foldrM_cons, run_bind ran]
      exact run_addFunctor ..
    · rw [SyntaxTree.size_push, size, List.length_cons]
      omega

theorem run_cancel_irreducible (wraps : t.Wraps callee chain base)
    (irreducible : GateFunctor.Irreducible chain) : cancelAdjointPairs callee t = .ok callee t := by
  unfold cancelAdjointPairs
  rw [run_bind run_get, run_bind (run_lift wraps.chain_eq)]
  simp only [length_reduceChain_eq_iff.2 irreducible, ↓reduceIte]
  rfl

theorem run_cancel_reducible (wraps : t.Wraps callee chain base)
    (reducible : ¬ GateFunctor.Irreducible chain) :
    cancelAdjointPairs callee t = (reduceChain chain).foldrM addFunctor base t := by
  unfold cancelAdjointPairs
  rw [run_bind run_get, run_bind (run_lift wraps.chain_eq)]
  simp only [mt length_reduceChain_eq_iff.1 reducible, ↓reduceIte]

/-- The callee is wrapped in the one chain that amounts to the same and has no two adjoints side by
side, over the same base. It is the callee itself, and nothing is added, exactly when that is the
chain it has. Once cancelled, it stays as it is. -/
theorem cancelAdjointPairs_normal (wraps : t.Wraps callee chain base) :
    ∃ top t' chain', cancelAdjointPairs callee t = .ok top t' ∧ Extends [] t t' ∧
      t'.Wraps top chain' base ∧
      (∀ other, GateFunctor.Irreducible other ∧ product other = product chain ↔ other = chain') ∧
      (top = callee ∧ t' = t ↔ GateFunctor.Irreducible chain) ∧
      cancelAdjointPairs top t' = .ok top t' := by
  by_cases irreducible : GateFunctor.Irreducible chain
  · have stays := run_cancel_irreducible wraps irreducible
    refine ⟨callee, t, chain, stays, .refl .., wraps, fun other => ?_, by simp [irreducible], stays⟩
    rw [normal_iff, irreducible.reduceChain_eq]
  · obtain ⟨top, t', ran, ext, wraps', -⟩ := run_wrap (reduceChain chain) wraps.base_self
    refine ⟨top, t', reduceChain chain, (run_cancel_reducible wraps irreducible).trans ran, ext,
      wraps', fun _ => normal_iff, ?_, run_cancel_irreducible wraps' (irreducible_reduceChain _)⟩
    -- a chain that can be shortened is not found again in the same arena
    refine iff_of_false (fun unchanged => irreducible ?_) irreducible
    obtain ⟨rfl, rfl⟩ := unchanged
    rw [← (wraps.unique wraps').1]
    exact irreducible_reduceChain chain

def wrappedModule : SyntaxTree :=
  ⟨#[.expr (.name "op"), .expr (.functor .adjoint 0), .expr (.functor .adjoint 1),
    .expr (.functor .adjoint 2), .expr (.functor .controlled 3), .expr (.functor .adjoint 4),
    .expr (.functor .adjoint 5)], []⟩

/-- One adjoint inside a control is left. -/
theorem cancelAdjointPairs_normal_wrapped :
    wrappedModule.Wraps 6 [.adjoint, .adjoint, .controlled, .adjoint, .adjoint, .adjoint] 0 ∧
      ∃ top t', cancelAdjointPairs 6 wrappedModule = .ok top t' ∧
        t'.Wraps top [.controlled, .adjoint] 0 ∧ ¬ (top = 6 ∧ t' = wrappedModule) := by
  have wraps : wrappedModule.Wraps 6
      [.adjoint, .adjoint, .controlled, .adjoint, .adjoint, .adjoint] 0 := by
    have op : wrappedModule.nodes[0]? = some (.expr (.name "op")) := rfl
    iterate 6 refine .functor rfl ?_
    exact .base op fun _ _ functor => by cases functor
  obtain ⟨top, t', chain', ran, -, wraps', only, same, -⟩ := cancelAdjointPairs_normal wraps
  obtain rfl := (only [.controlled, .adjoint]).1
    ⟨irreducible_reduceChain [.controlled, .adjoint], reduceChain_eq_iff.1 rfl⟩
  have reducible : ¬ GateFunctor.Irreducible
      [.adjoint, .adjoint, .controlled, .adjoint, .adjoint, .adjoint] := by
    unfold GateFunctor.Irreducible
    decide
  exact ⟨wraps, top, t', ran, wraps', mt same.1 reducible⟩

end TreeM

end QuantumLowering
