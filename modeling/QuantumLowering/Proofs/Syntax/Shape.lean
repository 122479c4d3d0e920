import Mathlib.Data.List.Forall2
import QuantumLowering.Proofs.Syntax.Layer

namespace QuantumLowering

variable {ι κ : Type}

/-- All of a node but its parts: how many there are stays. -/
def Node.shape (node : Node ι) : Node Unit := node.map fun _ => ()

@[simp]
theorem Node.shape_map (f : ι → κ) (node : Node ι) : (node.map f).shape = node.shape :=
  node.map_map _ f

theorem Expr.ext_shape [Inhabited ι] {x y : Expr ι}
    (shapes : (x.map fun _ => ()) = y.map fun _ => ()) (parts : x.children = y.children) : x = y := by
  have blank : (x.map fun _ => (default : ι)) = y.map fun _ => default := by
    simpa only [Expr.map_map, Function.comp_def] using
      congrArg (Expr.map fun _ => (default : ι)) shapes
  calc x = (x.map fun _ => default).refill x.children := by
        rw [Expr.refill_map _ rfl, Expr.refill_children]
    _ = (y.map fun _ => default).refill y.children := by rw [blank, parts]
    _ = y := by rw [Expr.refill_map _ rfl, Expr.refill_children]

theorem Stmt.ext_shape {x y : Stmt ι} (shapes : (x.map fun _ => ()) = y.map fun _ => ())
    (parts : x.children = y.children) : x = y := by
  cases x <;> cases y <;>
    simp only [Stmt.map, reduceCtorEq, Stmt.importAs.injEq, Stmt.define.injEq, Stmt.classDef.injEq,
      Stmt.scoped.injEq, Stmt.conditional.injEq, Stmt.wire.injEq, Definition.mk.injEq] at shapes <;>
    simp only [Stmt.children] at parts
  case define.define d d' =>
    cases d
    cases d'
    simp_all
  case scoped.scoped context binding body context' binding' body' =>
    cases binding <;> cases binding' <;> simp_all
  case conditional.conditional test body orelse test' body' orelse' =>
    have lengths : body.length = body'.length := by simpa using congrArg List.length shapes.2.1
    obtain ⟨tests, blocks⟩ := List.cons.inj parts
    obtain ⟨bodies, orelses⟩ := List.append_inj blocks lengths
    rw [tests, bodies, orelses]
  all_goals simp_all

theorem Node.ext_shape [Inhabited ι] {x y : Node ι} (shapes : x.shape = y.shape)
    (parts : x.children = y.children) : x = y := by
  cases x <;> cases y <;>
    simp only [Node.shape, Node.map, reduceCtorEq, Node.expr.injEq, Node.stmt.injEq] at shapes
  · exact congrArg Node.expr (Expr.ext_shape shapes parts)
  · exact congrArg Node.stmt (Stmt.ext_shape shapes parts)

section Traverse

variable {m : Type → Type} [Monad m] [LawfulMonad m] (f : ι → m ι)

theorem Expr.shape_traverse (e : Expr ι) :
    (Expr.map fun _ => ()) <$> e.traverse f =
      (fun _ => e.map fun _ => ()) <$> e.children.mapM f := by
  rw [Expr.traverse_eq_refill, ← comp_map, map_eq_pure_bind, map_eq_pure_bind]
  refine mapM_bind_congr fun parts length => ?_
  have unit : parts.map (fun _ => ()) = (e.map fun _ => ()).children := by simp [length]
  simp only [Function.comp_apply]
  rw [Expr.map_refill _ length, unit, Expr.refill_children]

theorem Stmt.shape_traverse (s : Stmt ι) :
    (Stmt.map fun _ => ()) <$> s.traverse f =
      (fun _ => s.map fun _ => ()) <$> s.children.mapM f := by
  have same : ∀ xs ys : List ι, ys.length = xs.length →
      ys.map (fun _ => ()) = xs.map fun _ => () := by
    intro xs ys length
    simp [length]
  match s with
  | .importAs .. | .wire .. | .pass | .expr _ | .assign .. =>
    simp [Stmt.traverse, Stmt.children, Stmt.map]
  | .define d =>
    simp only [Stmt.traverse, Stmt.children, map_eq_pure_bind, bind_assoc, pure_bind]
    refine mapM_bind_congr fun body length => ?_
    simp only [Stmt.map, same _ _ length]
  | .classDef name body =>
    simp only [Stmt.traverse, Stmt.children, map_eq_pure_bind, bind_assoc, pure_bind]
    refine mapM_bind_congr fun body' length => ?_
    simp only [Stmt.map, same _ _ length]
  | .scoped context none body =>
    simp only [Stmt.traverse, Stmt.children, map_eq_pure_bind, bind_assoc, pure_bind,
      Option.toList_none, List.nil_append, List.mapM_cons]
    congr 1
    funext context'
    refine mapM_bind_congr fun body' length => ?_
    simp only [Stmt.map, same _ _ length, Option.map_none]
  | .scoped context (some binding) body =>
    simp only [Stmt.traverse, Stmt.children, map_eq_pure_bind, bind_assoc, pure_bind,
      Option.toList_some, List.cons_append, List.nil_append, List.mapM_cons]
    congr 1
    funext context'
    congr 1
    funext binding'
    refine mapM_bind_congr fun body' length => ?_
    simp only [Stmt.map, same _ _ length, Option.map_some]
  | .conditional test body orelse =>
    simp only [Stmt.traverse, Stmt.children, map_eq_pure_bind, bind_assoc, pure_bind,
      List.mapM_cons, List.mapM_append]
    congr 1
    funext test'
    refine mapM_bind_congr fun body' length => ?_
    refine mapM_bind_congr fun orelse' length' => ?_
    simp only [Stmt.map, same _ _ length, same _ _ length']

theorem Node.shape_traverse (node : Node ι) :
    Node.shape <$> node.traverse f = (fun _ => node.shape) <$> node.children.mapM f := by
  cases node with
  | expr e =>
    have kept := congrArg (Functor.map Node.expr) (e.shape_traverse f)
    simpa [Node.traverse, Node.shape, Node.map, Node.children] using kept
  | stmt s =>
    have kept := congrArg (Functor.map Node.stmt) (s.shape_traverse f)
    simpa [Node.traverse, Node.shape, Node.map, Node.children] using kept

end Traverse

theorem forall₂_append_iff {R : ι → κ → Prop} {xs xs' : List ι} {ys ys' : List κ}
    (length : xs.length = ys.length) : List.Forall₂ R (xs ++ xs') (ys ++ ys') ↔
      List.Forall₂ R xs ys ∧ List.Forall₂ R xs' ys' := by
  induction xs generalizing ys with
  | nil =>
    obtain rfl := List.length_eq_zero_iff.1 length.symm
    simp
  | cons x xs ih =>
    cases ys with
    | nil => simp at length
    | cons y ys => simp [ih (Nat.succ.inj length), and_assoc]

structure Keyword.Related (R : ι → κ → Prop) (x : Keyword ι) (y : Keyword κ) : Prop where
  names : x.name = y.name
  values : R x.value y.value

theorem Keyword.forall₂_related_iff {R : ι → κ → Prop} {xs : List (Keyword ι)}
    {ys : List (Keyword κ)} : List.Forall₂ (Keyword.Related R) xs ys ↔
      xs.map Keyword.name = ys.map Keyword.name ∧
        List.Forall₂ R (xs.map Keyword.value) (ys.map Keyword.value) := by
  constructor
  · intro related
    induction related with
    | nil => exact ⟨rfl, .nil⟩
    | cons head _ ih => exact ⟨by simp [head.names, ih.1], .cons head.values ih.2⟩
  · rintro ⟨names, values⟩
    induction xs generalizing ys with
    | nil => simp [List.map_eq_nil_iff.1 names.symm]
    | cons x xs ih =>
      cases ys with
      | nil => cases names
      | cons y ys =>
        simp only [List.map_cons, List.cons.injEq, List.forall₂_cons] at names values
        exact .cons ⟨names.1, values.1⟩ (ih names.2 values.2)

/-- Two expressions made by one constructor from related parts. Numbers need only agree. -/
inductive Expr.Related (R : ι → κ → Prop) : Expr ι → Expr κ → Prop where
  | name (name : String) : Related R (.name name) (.name name)
  | int (value : Int64) : Related R (.int value) (.int value)
  | float {x y : FloatValue} (agree : x.agrees y) : Related R (.float x) (.float y)
  | bool (value : Bool) : Related R (.bool value) (.bool value)
  | str (value : String) : Related R (.str value) (.str value)
  | attribute {x : ι} {y : κ} (attr : String) (values : R x y) :
    Related R (.attribute x attr) (.attribute y attr)
  | call {func : ι} {func' : κ} {args : List ι} {args' : List κ} {keywords : List (Keyword ι)}
    {keywords' : List (Keyword κ)} (funcs : R func func') (positional : List.Forall₂ R args args')
    (named : List.Forall₂ (Keyword.Related R) keywords keywords') :
    Related R (.call func args keywords) (.call func' args' keywords')
  | functor {x : ι} {y : κ} (functor : GateFunctor) (targets : R x y) :
    Related R (.functor functor x) (.functor functor y)
  | aggregate {xs : List ι} {ys : List κ} (members : List.Forall₂ R xs ys) :
    Related R (.aggregate xs) (.aggregate ys)
  | list {xs : List ι} {ys : List κ} (items : List.Forall₂ R xs ys) :
    Related R (.list xs) (.list ys)
  | tuple {xs : List ι} {ys : List κ} (items : List.Forall₂ R xs ys) :
    Related R (.tuple xs) (.tuple ys)
  | compare {left right : ι} {left' right' : κ} (op : Comparison) (lefts : R left left')
    (rights : R right right') : Related R (.compare left op right) (.compare left' op right')

inductive Stmt.Related (R : ι → κ → Prop) : Stmt ι → Stmt κ → Prop where
  | importAs (module name : String) : Related R (.importAs module name) (.importAs module name)
  | expr {x : ι} {y : κ} (values : R x y) : Related R (.expr x) (.expr y)
  | assign {target value : ι} {target' value' : κ} (targets : R target target')
    (values : R value value') : Related R (.assign target value) (.assign target' value')
  | define {body : List ι} {body' : List κ} (name : String) (params : List String)
    (operation : Option Markers) (bodies : List.Forall₂ R body body') :
    Related R (.define ⟨name, params, body, operation⟩) (.define ⟨name, params, body', operation⟩)
  | classDef {body : List ι} {body' : List κ} (name : String) (bodies : List.Forall₂ R body body') :
    Related R (.classDef name body) (.classDef name body')
  | scoped {context : ι} {context' : κ} {binding : Option ι} {binding' : Option κ} {body : List ι}
    {body' : List κ} (contexts : R context context') (bindings : Option.Rel R binding binding')
    (bodies : List.Forall₂ R body body') :
    Related R (.scoped context binding body) (.scoped context' binding' body')
  | conditional {test : ι} {test' : κ} {body orelse : List ι} {body' orelse' : List κ}
    (tests : R test test') (bodies : List.Forall₂ R body body')
    (orelses : List.Forall₂ R orelse orelse') :
    Related R (.conditional test body orelse) (.conditional test' body' orelse')
  | wire (functor : GateFunctor) (operation variant : String) :
    Related R (.wire functor operation variant) (.wire functor operation variant)
  | pass : Related R .pass .pass

inductive Node.Related (R : ι → κ → Prop) : Node ι → Node κ → Prop where
  | expr {x : Expr ι} {y : Expr κ} (related : x.Related R y) : Related R (.expr x) (.expr y)
  | stmt {x : Stmt ι} {y : Stmt κ} (related : x.Related R y) : Related R (.stmt x) (.stmt y)

section Related

variable {R : ι → κ → Prop}

theorem Expr.related_iff {x : Expr ι} {y : Expr κ} :
    x.Related R y ↔ x.sameHead y ∧ List.Forall₂ R x.children y.children := by
  constructor
  · intro related
    cases related with
    | call funcs positional named =>
      obtain ⟨names, values⟩ := Keyword.forall₂_related_iff.1 named
      refine ⟨?_, .cons funcs ((forall₂_append_iff positional.length_eq).2 ⟨positional, values⟩)⟩
      simp [Expr.sameHead, positional.length_eq, names]
    | aggregate parts | list parts | tuple parts =>
      exact ⟨by simp [Expr.sameHead, parts.length_eq], parts⟩
    | _ => simp_all [Expr.sameHead, Expr.children]
  · rintro ⟨head, parts⟩
    cases x <;> cases y <;>
      simp only [Expr.sameHead, Bool.false_eq_true, beq_iff_eq, Bool.and_eq_true] at head <;>
      simp only [Expr.children] at parts
    case call.call func args keywords func' args' keywords' =>
      obtain ⟨funcs, rest⟩ := List.forall₂_cons.1 parts
      obtain ⟨positional, values⟩ := (forall₂_append_iff head.1).1 rest
      exact .call funcs positional (Keyword.forall₂_related_iff.2 ⟨head.2, values⟩)
    case compare.compare left op right left' op' right' =>
      obtain ⟨lefts, rest⟩ := List.forall₂_cons.1 parts
      obtain ⟨rights, -⟩ := List.forall₂_cons.1 rest
      exact head ▸ .compare op lefts rights
    case attribute.attribute => exact head ▸ .attribute _ (List.forall₂_cons.1 parts).1
    case functor.functor => exact head ▸ .functor _ (List.forall₂_cons.1 parts).1
    case aggregate.aggregate => exact .aggregate parts
    case list.list => exact .list parts
    case tuple.tuple => exact .tuple parts
    case float.float => exact .float head
    all_goals
      subst head
      constructor

theorem Stmt.related_iff {x : Stmt ι} {y : Stmt κ} :
    x.Related R y ↔ x.sameHead y ∧ List.Forall₂ R x.children y.children := by
  constructor
  · intro related
    match x, y, related with
    | _, _, .define name params operation bodies =>
      exact ⟨by simp [Stmt.sameHead, bodies.length_eq], bodies⟩
    | _, _, .classDef name bodies => exact ⟨by simp [Stmt.sameHead, bodies.length_eq], bodies⟩
    | _, _, .scoped contexts .none bodies =>
      exact ⟨by simp [Stmt.sameHead, bodies.length_eq], .cons contexts bodies⟩
    | _, _, .scoped contexts (.some bound) bodies =>
      exact ⟨by simp [Stmt.sameHead, bodies.length_eq], .cons contexts (.cons bound bodies)⟩
    | _, _, .conditional tests bodies orelses =>
      refine ⟨by simp [Stmt.sameHead, bodies.length_eq, orelses.length_eq], ?_⟩
      exact .cons tests ((forall₂_append_iff bodies.length_eq).2 ⟨bodies, orelses⟩)
    | _, _, .expr values => exact ⟨rfl, .cons values .nil⟩
    | _, _, .assign targets values => exact ⟨rfl, .cons targets (.cons values .nil)⟩
    | _, _, .importAs .. | _, _, .wire .. | _, _, .pass => simp [Stmt.sameHead, Stmt.children]
  · rintro ⟨head, parts⟩
    cases x <;> cases y <;>
      simp only [Stmt.sameHead, Bool.false_eq_true, beq_iff_eq, Bool.and_eq_true] at head <;>
      simp only [Stmt.children] at parts
    case expr.expr => exact .expr (List.forall₂_cons.1 parts).1
    case assign.assign =>
      obtain ⟨targets, rest⟩ := List.forall₂_cons.1 parts
      exact .assign targets (List.forall₂_cons.1 rest).1
    case define.define d d' =>
      obtain ⟨name, params, body, operation⟩ := d
      obtain ⟨name', params', body', operation'⟩ := d'
      obtain ⟨⟨⟨rfl, rfl⟩, rfl⟩, -⟩ := head
      exact .define _ _ _ parts
    case classDef.classDef => exact head.1 ▸ .classDef _ parts
    case scoped.scoped context binding body context' binding' body' =>
      obtain ⟨contexts, rest⟩ := List.forall₂_cons.1 parts
      cases binding <;> cases binding' <;> simp only [Option.isSome] at head
      case none.none => exact .scoped contexts .none rest
      case some.some =>
        obtain ⟨bound, bodies⟩ := List.forall₂_cons.1 rest
        exact .scoped contexts (.some bound) bodies
      all_goals simp at head
    case conditional.conditional =>
      obtain ⟨tests, rest⟩ := List.forall₂_cons.1 parts
      obtain ⟨bodies, orelses⟩ := (forall₂_append_iff head.1).1 rest
      exact .conditional tests bodies orelses
    case importAs.importAs =>
      obtain ⟨rfl, rfl⟩ := head
      exact .importAs _ _
    case wire.wire =>
      obtain ⟨⟨rfl, rfl⟩, rfl⟩ := head
      exact .wire _ _ _
    case pass.pass => exact .pass

theorem Node.related_iff {x : Node ι} {y : Node κ} :
    x.Related R y ↔ x.sameHead y ∧ List.Forall₂ R x.children y.children := by
  constructor
  · rintro (⟨related⟩ | ⟨related⟩)
    · exact Expr.related_iff.1 related
    · exact Stmt.related_iff.1 related
  · intro both
    cases x <;> cases y
    · exact .expr (Expr.related_iff.2 both)
    · exact absurd both.1 Bool.false_ne_true
    · exact absurd both.1 Bool.false_ne_true
    · exact .stmt (Stmt.related_iff.2 both)

end Related

end QuantumLowering
