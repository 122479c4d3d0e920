import QuantumLowering.Proofs.Lowering.ControlledCalls
import QuantumLowering.Proofs.Lowering.Recovery

namespace QuantumLowering

variable {o : Options} {known : List String}

namespace ExprTree

theorem name?_trunk (e : ExprTerm) : e.trunk.layer.name? = e.layer.name? := by
  obtain ⟨⟨⟩, layer⟩ := e
  rw [trunk_node]
  cases layer <;> rfl

theorem isCallTo_eq_of_trunk {fn : String} {layer filled : Expr ExprTerm}
    (same : filled.map trunk = layer.map trunk) :
    (node () filled).isCallTo fn = (node () layer).isCallTo fn := by
  have call := congrArg Expr.isCall same
  rw [Expr.isCall_map, Expr.isCall_map] at call
  cases layer with
  | call func args keywords =>
    obtain ⟨func', args', keywords', rfl, trunkFunc, -⟩ := exists_call_of_trunk same
    rw [Bool.eq_iff_iff, isCallTo_call, isCallTo_call, ← name?_trunk func', trunkFunc, name?_trunk]
  | _ =>
    cases filled with
    | call func' args' keywords' => cases call
    | _ => rfl

theorem outermost_eq_nil {fn : String} {layer : Expr ExprTerm} :
    outermost fn (node () layer) = [] ↔
      ¬ (node () layer).isCallTo fn ∧ ∀ part ∈ layer.children, outermost fn part = [] := by
  rw [outermost_node]
  split
  · simp_all
  · rw [List.flatMap_eq_nil_iff]
    simp_all

theorem outermost_leaves {fn : String} {e leaf : ExprTerm} (none : e.outermost fn = [])
    (member : leaf ∈ e.leaves) : leaf.outermost fn = [] := by
  induction e using induct with
  | step label layer ih =>
    have parts := (outermost_eq_nil.1 none).2
    cases layer with
    | list items | aggregate items =>
      simp only [leaves_list, leaves_aggregate, List.mem_flatMap] at member
      obtain ⟨item, inside, member⟩ := member
      exact ih item inside (parts item inside) member
    | _ =>
      rw [leaves_of_ne (by simp) (by simp), List.mem_singleton] at member
      rwa [member]

end ExprTree

section Control

variable {table : OperationTable} {control fn : String}

theorem ControlsCall.outermost {layer filled finished : Expr ExprTerm}
    (controls : ControlsCall control layer filled finished)
    (other : ¬ (ExprTree.node () filled).isCallTo fn)
    (parts : ∀ part ∈ filled.children, part.outermost fn = []) :
    (ExprTree.node () finished).outermost fn = [] := by
  have named := ExprTree.outermost_nameTerm fn control
  cases controls with
  | @plain func func' args args' keywords keywords' =>
    refine ExprTree.outermost_eq_nil.2 ⟨Bool.false_ne_true, fun part member => ?_⟩
    simp only [Expr.children, List.cons_append, List.mem_cons] at member parts
    rcases member with rfl | rfl | member
    · refine ExprTree.outermost_eq_nil.2 ⟨Bool.false_ne_true, fun part member => ?_⟩
      exact parts part (.inl (List.mem_singleton.1 member))
    · exact named
    · exact parts part (.inr member)
  | @merged func func' existing existing' args args' keywords keywords' signature trunk trunk' =>
    rw [ExprTree.isCallTo_call] at other
    refine ExprTree.outermost_eq_nil.2 ⟨by rwa [ExprTree.isCallTo_call], fun part member => ?_⟩
    simp only [Expr.children, List.cons_append, List.mem_cons] at member parts
    rcases member with rfl | rfl | member
    · exact parts part (.inl rfl)
    · refine ExprTree.outermost_eq_nil.2 ⟨Bool.false_ne_true, fun leaf listed => ?_⟩
      rcases List.mem_cons.1 ((mergedControls_sublist trunk').subset listed) with rfl | listed
      · exact named
      · exact ExprTree.outermost_leaves (parts existing' (.inr (.inl rfl))) listed
    · exact parts part (.inr (.inr member))

theorem control_outermost {e r : ExprTerm} (none : e.outermost fn = [])
    (ended : (controlRule table control).rewrite e = .ok r) : r.outermost fn = [] := by
  induction e using ExprTree.induct generalizing r with
  | step label layer ih =>
    obtain ⟨other, inside⟩ := ExprTree.outermost_eq_nil.1 none
    obtain ⟨parts, rewritten, trunks, outcome⟩ := control_cases ended
    rw [← ExprTree.isCallTo_eq_of_trunk (ExprTree.trunk_refill trunks)] at other
    have filled : ∀ part ∈ (layer.refill parts).children, part.outermost fn = [] := by
      intro part member
      rw [Expr.children_refill rewritten.length_eq.symm] at member
      obtain ⟨before, listed, ran⟩ := exists_mem_of_forall₂ rewritten.flip member
      exact ih before listed (inside before listed) ran
    rcases outcome with ⟨-, rfl⟩ | ⟨finished, -, rfl, controls⟩
    · exact ExprTree.outermost_eq_nil.2 ⟨other, filled⟩
    · exact controls.outermost other filled

end Control

def measuredHere (o : Options) (inside : Bool) (es : List ExprTerm) : List ExprTerm :=
  if inside then es.flatMap (ExprTree.outermost o.measureFn) else []

@[simp]
theorem measuredHere_nil (inside : Bool) : measuredHere o inside [] = [] := ite_self _

theorem measuredHere_cons (inside : Bool) (e : ExprTerm) (es : List ExprTerm) :
    measuredHere o inside (e :: es) = measuredHere o inside [e] ++ measuredHere o inside es := by
  cases inside <;> simp [measuredHere]

theorem control_measuredHere {table : OperationTable} {control : String} {inside : Bool}
    {value value' : ExprTerm} (none : measuredHere o inside [value] = [])
    (ran : (controlRule table control).rewrite value = .ok value') :
    measuredHere o inside [value'] = [] := by
  cases inside with
  | false => rfl
  | true =>
    have before : value.outermost o.measureFn = [] := by simpa [measuredHere] using none
    simpa [measuredHere] using control_outermost before ran

namespace StmtTree

def opens (o : Options) (inside : Bool) : StmtTerm → Bool
  | .define .. => false
  | .scoped _ context _ _ => inside || context.isCallTo o.allocateFn
  | _ => inside

/-- The outermost measurements at the given positions of the statements that stand in an allocation
block, with no definition in between. What is left out is left out with everything in it. -/
def measured (o : Options) (left : StmtTerm → Bool) (positions : StmtTerm → List ExprTerm)
    (inside : Bool) (s : StmtTerm) : List ExprTerm :=
  if left s then [] else
    measuredHere o inside (positions s) ++
      (s.inner.attach.map fun part => measured o left positions (s.opens o inside) part.1).flatten
termination_by sizeOf s
decreasing_by exact sizeOf_inner part.2

/-- The expressions of a statement that are not searched for measurements: the target of an assignment,
the binding of a scope, and what a quantum conditional tests. -/
def unsearched (o : Options) : StmtTerm → List ExprTerm
  | .assign _ target _ => [target]
  | .scoped _ _ binding _ => binding.toList
  | .conditional _ test _ _ => if test.isCallTo o.conditionFn then test.layer.children else []
  | _ => []

def ownValue : StmtTerm → List ExprTerm
  | .expr _ value => [value]
  | .assign _ _ value => [value]
  | _ => []

/-- The statement was not in the block before it was lowered: it assigns to a name that is not known, or
defines one. -/
def added (known : List String) : StmtTerm → Bool
  | .define _ d => d.name ∉ known
  | s => s.emitted known

theorem measured_eq (left : StmtTerm → Bool) (positions : StmtTerm → List ExprTerm) (inside : Bool)
    (s : StmtTerm) : s.measured o left positions inside =
      if left s then [] else
        measuredHere o inside (positions s) ++
          s.inner.flatMap (measured o left positions (s.opens o inside)) := by
  rw [measured, List.attach_map_val (f := measured o left positions (s.opens o inside)),
    ← List.flatMap_def]

theorem measured_of_derived {positions : StmtTerm → List ExprTerm} {inside : Bool} {s : StmtTerm}
    (derived : s.derived known) (none : ∀ f operation variant,
      positions (.wire () f operation variant) = []) :
    s.measured o (added known) positions inside = [] := by
  rcases derived with ⟨f, operation, variant, rfl⟩ | ⟨d, rfl, new⟩
  · simp [measured_eq, none, inner]
  · rw [measured_eq, if_pos (by simpa [added] using new)]

end StmtTree

theorem WithBatch.measured {entries : List (Hoisted Unit)} {body rs : List StmtTerm}
    (batch : WithBatch o known entries body rs) (fresh : ∀ h ∈ entries, h.placeholder ∉ known)
    (positions : StmtTerm → List ExprTerm) (inside : Bool) :
    rs.flatMap (StmtTree.measured o (StmtTree.added known) positions inside) =
      body.flatMap (StmtTree.measured o (StmtTree.added known) positions inside) := by
  cases batch with
  | none empty => rfl
  | @some front back proxies split nonempty length once fresh' =>
    have none : (batchOf o entries proxies).flatMap
        (StmtTree.measured o (StmtTree.added known) positions inside) = [] := by
      refine List.flatMap_eq_nil_iff.2 fun s member => ?_
      have emitted := emitted_batchOf nonempty fresh fresh' member
      have added : s.added known = true := by
        cases s <;> first | exact emitted | cases emitted
      rw [StmtTree.measured_eq, if_pos added]
    rw [split, List.flatMap_append, List.flatMap_append, none, List.append_nil, List.flatMap_append]

/-- A statement and its controlled form, whose values are without measurements if those of the statement
are, and which has the same measurements then. -/
def KeepsMeasured (o : Options) (known : List String) (s r : StmtTerm) : Prop :=
  ∀ inside, s.measured o (StmtTree.added known) StmtTree.ownValue inside = [] →
    r.measured o (StmtTree.added known) StmtTree.ownValue inside = [] ∧
      r.measured o (StmtTree.added known) StmtTree.exprs inside =
        s.measured o (StmtTree.added known) StmtTree.exprs inside

theorem KeepsMeasured.block {body rs : List StmtTerm}
    (pairs : List.Forall₂ (KeepsMeasured o known) body rs) (inside : Bool)
    (none : body.flatMap (StmtTree.measured o (StmtTree.added known) StmtTree.ownValue inside) = []) :
    rs.flatMap (StmtTree.measured o (StmtTree.added known) StmtTree.ownValue inside) = [] ∧
      rs.flatMap (StmtTree.measured o (StmtTree.added known) StmtTree.exprs inside) =
        body.flatMap (StmtTree.measured o (StmtTree.added known) StmtTree.exprs inside) := by
  induction pairs with
  | nil => exact ⟨rfl, rfl⟩
  | cons here _ ih =>
    rw [List.flatMap_cons, List.append_eq_nil_iff] at none
    obtain ⟨values, exprs⟩ := here inside none.1
    obtain ⟨values', exprs'⟩ := ih none.2
    simp only [List.flatMap_cons, values, values', exprs, exprs', List.append_nil, and_self]

theorem KeepsMeasured.of_parts {s r : StmtTerm} (added : r.added known = s.added known)
    (opens : ∀ inside, r.opens o inside = s.opens o inside)
    (here : ∀ inside, measuredHere o inside s.ownValue = [] →
      measuredHere o inside r.ownValue = [] ∧ measuredHere o inside r.exprs = measuredHere o inside s.exprs)
    (parts : List.Forall₂ (KeepsMeasured o known) s.inner r.inner) : KeepsMeasured o known s r := by
  intro inside none
  rw [StmtTree.measured_eq] at none
  simp only [StmtTree.measured_eq, added, opens]
  split
  · exact ⟨rfl, rfl⟩
  · rename_i kept
    rw [if_neg kept, List.append_eq_nil_iff] at none
    obtain ⟨value, exprs⟩ := here inside none.1
    obtain ⟨values', exprs'⟩ := KeepsMeasured.block parts _ none.2
    exact ⟨by rw [value, values', List.append_nil], by rw [exprs, exprs']⟩

theorem controlStmt_measured {table : OperationTable} {control : String} {s r : StmtTerm}
    (ended : controlStmt table control s = .ok r) : KeepsMeasured o known s r := by
  refine CallRule.rewriteStmt_induct ?kept ?expr ?assign ?scope ?conditional ended
  case kept => exact fun s _ inside none => ⟨none, rfl⟩
  case expr =>
    intro before after ran
    refine .of_parts rfl (fun _ => rfl) (fun inside none => ?_) .nil
    have none' := control_measuredHere none ran
    exact ⟨none', none'.trans none.symm⟩
  case assign =>
    intro target before after ran
    refine .of_parts rfl (fun _ => rfl) (fun inside none => ?_) .nil
    have none' := control_measuredHere none ran
    refine ⟨none', ?_⟩
    calc measuredHere o inside [target, after]
        = measuredHere o inside [target] ++ measuredHere o inside [after] := measuredHere_cons ..
      _ = measuredHere o inside [target] ++ measuredHere o inside [before] := by
          rw [none', show measuredHere o inside [before] = [] from none]
      _ = measuredHere o inside [target, before] := (measuredHere_cons ..).symm
  case scope =>
    intro context binding body rs pairs
    exact .of_parts rfl (fun _ => rfl) (fun inside _ => ⟨measuredHere_nil inside, rfl⟩) pairs
  case conditional =>
    intro test body orelse rs rs' pairs pairs'
    exact .of_parts rfl (fun _ => rfl) (fun inside _ => ⟨measuredHere_nil inside, rfl⟩)
      (List.rel_append pairs pairs')

theorem outermost_scopeCall {fn : String} {test lines value : ExprTerm}
    (operands : PlanM.comparisonOperands o test = .ok (lines, value))
    (marked : test.isCallTo o.conditionFn) :
    (PlanM.scopeCall o lines value).outermost fn =
      test.layer.children.flatMap (ExprTree.outermost fn) := by
  have scope : (PlanM.scopeCall o lines value).outermost fn =
      lines.outermost fn ++ value.outermost fn := by
    have named := ExprTree.outermost_nameTerm fn o.boilerplateAlias
    have callee : (ExprTree.node () (.attribute (nameTerm o.boilerplateAlias) o.scopeFn)).outermost fn =
        [] := by
      rw [ExprTree.outermost_other rfl]
      simp [Expr.children, named]
    rw [PlanM.scopeCall, ExprTree.outermost_other rfl]
    simp [Expr.children, callee]
  have compared : ∀ left right : ExprTerm,
      (ExprTree.node () (.compare left .equal right)).outermost fn =
        left.outermost fn ++ right.outermost fn := by
    intro left right
    rw [ExprTree.outermost_other rfl]
    simp [Expr.children]
  rw [scope]
  unfold PlanM.comparisonOperands at operands
  split at operands
  case h_2 => cases operands
  case h_1 func argument call =>
    have callee : func.outermost fn = [] := by
      obtain ⟨⟨⟩, layer⟩ := test
      obtain rfl := call
      obtain ⟨⟨⟩, layer'⟩ := func
      obtain rfl := Expr.eq_name ((ExprTree.isCallTo_call _ _ _ _).1 marked)
      exact ExprTree.outermost_nameTerm fn _
    rw [call]
    simp only [Expr.children, List.map_nil, List.append_nil, List.flatMap_cons, List.flatMap_nil, callee,
      List.nil_append]
    split at operands
    case h_2 => cases operands
    case h_3 => cases operands
    case h_1 left right comparison =>
      obtain ⟨⟨⟩, layer⟩ := argument
      obtain rfl := comparison
      rw [compared]
      split at operands
      case h_1 n integer =>
        obtain ⟨⟨⟩, layer'⟩ := left
        obtain rfl := integer
        cases operands
        have none : (ExprTree.node () (.int n)).outermost fn = [] := ExprTree.outermost_other rfl
        rw [none, List.append_nil, List.nil_append]
      case h_2 => cases operands; rfl

/-- In a lowered block no measurement is left in the values, and those left elsewhere are the ones that
stood where lowering does not search. -/
structure Remains (o : Options) (known : List String) (inside : Bool) (body rs : List StmtTerm) : Prop where
  values : rs.flatMap (StmtTree.measured o (StmtTree.added known) StmtTree.ownValue inside) = []
  others : rs.flatMap (StmtTree.measured o (StmtTree.added known) StmtTree.exprs inside) =
    body.flatMap (StmtTree.measured o (fun _ => false) (StmtTree.unsearched o) inside)

namespace Remains

variable {inside : Bool} {body body' rs rs' : List StmtTerm} {s r : StmtTerm}

theorem nil : Remains o known inside [] [] := ⟨rfl, rfl⟩

theorem append (first : Remains o known inside body rs) (second : Remains o known inside body' rs') :
    Remains o known inside (body ++ body') (rs ++ rs') := by
  constructor
  · rw [List.flatMap_append, first.values, second.values, List.append_nil]
  · rw [List.flatMap_append, List.flatMap_append, first.others, second.others]

theorem single {within : Bool} (kept : r.added known = false) (opens : s.opens o inside = within)
    (opens' : r.opens o inside = within)
    (value : measuredHere o inside r.ownValue = [])
    (others : measuredHere o inside r.exprs = measuredHere o inside (s.unsearched o))
    (inner : Remains o known within s.inner r.inner) : Remains o known inside [s] [r] := by
  have here : ∀ positions, r.measured o (StmtTree.added known) positions inside =
      measuredHere o inside (positions r) ++
        r.inner.flatMap (StmtTree.measured o (StmtTree.added known) positions within) := by
    intro positions
    rw [StmtTree.measured_eq, kept, opens', if_neg Bool.false_ne_true]
  have before : s.measured o (fun _ => false) (StmtTree.unsearched o) inside =
      measuredHere o inside (s.unsearched o) ++
        s.inner.flatMap (StmtTree.measured o (fun _ => false) (StmtTree.unsearched o) within) := by
    rw [StmtTree.measured_eq, opens, if_neg Bool.false_ne_true]
  constructor
  · rw [List.flatMap_singleton, here, value, inner.values, List.append_nil]
  · rw [List.flatMap_singleton, List.flatMap_singleton, here, before, others, inner.others]

theorem behind (remains : Remains o known inside body rs) (derived : ∀ s ∈ rs', s.derived known) :
    Remains o known inside body (rs ++ rs') := by
  have none : ∀ positions : StmtTerm → List ExprTerm,
      (∀ f operation variant, positions (.wire () f operation variant) = []) →
      rs'.flatMap (StmtTree.measured o (StmtTree.added known) positions inside) = [] :=
    fun positions none => List.flatMap_eq_nil_iff.2 fun s member =>
      StmtTree.measured_of_derived (derived s member) none
  constructor
  · rw [List.flatMap_append, remains.values, none _ fun _ _ _ => rfl, List.append_nil]
  · rw [List.flatMap_append, remains.others, none _ fun _ _ _ => rfl, List.append_nil]

theorem withBatch {entries : List (Hoisted Unit)} (remains : Remains o known inside body rs)
    (batch : WithBatch o known entries rs rs') (fresh : ∀ h ∈ entries, h.placeholder ∉ known) :
    Remains o known inside body rs' :=
  ⟨(batch.measured fresh _ _).trans remains.values, (batch.measured fresh _ _).trans remains.others⟩

theorem controlled {table : OperationTable} {control : String}
    (remains : Remains o known inside body rs) (ended : controlStmts table control rs = .ok rs') :
    Remains o known inside body rs' := by
  have pairs : List.Forall₂ (KeepsMeasured o known) rs rs' :=
    (Plan.mapM_eq_ok ended).imp fun _ _ ended => controlStmt_measured ended
  obtain ⟨values, others⟩ := KeepsMeasured.block pairs inside remains.values
  exact ⟨values, others.trans remains.others⟩

end Remains

theorem Searched.opens {inside : Bool} {e r : ExprTerm} {new : List (Hoisted Unit)}
    (search : Searched o known inside e r new) :
    (inside || r.isCallTo o.allocateFn) = (inside || e.isCallTo o.allocateFn) := by
  cases search with
  | outside => rfl
  | inside => rfl

theorem Searched.measuredHere {inside : Bool} {e r : ExprTerm} {new : List (Hoisted Unit)}
    (search : Searched o known inside e r new) : measuredHere o inside [r] = [] := by
  cases search with
  | outside => rfl
  | inside _ none _ => simpa [QuantumLowering.measuredHere] using none

theorem Batched.remains {inside : Bool} {body rs : List StmtTerm} {new : List (Hoisted Unit)}
    (batched : Batched o known inside body rs new) (used : body.flatMap StmtTree.identifiers ⊆ known) :
    Remains o known inside body rs := by
  induction batched with
  | nil => exact .nil
  | append _ _ first second =>
    rw [List.flatMap_append, List.append_subset] at used
    exact (first used.1).append (second used.2)
  | importAs inside module name => exact .single rfl rfl rfl (measuredHere_nil _) rfl .nil
  | wire inside f operation variant => exact .single rfl rfl rfl (measuredHere_nil _) rfl .nil
  | pass inside => exact .single rfl rfl rfl (measuredHere_nil _) rfl .nil
  | expr search =>
    have none := search.measuredHere
    exact .single rfl rfl rfl none (none.trans (measuredHere_nil _).symm) .nil
  | @assign inside target value r new search =>
    have kept : (StmtTree.assign () target r).added known = false := by
      simpa [StmtTree.added, StmtTree.emitted] using fun x member => used (by simp [member])
    refine .single kept rfl rfl search.measuredHere ?_ .nil
    have split : measuredHere o inside [target, r] = _ := measuredHere_cons inside target [r]
    rwa [search.measuredHere, List.append_nil] at split
  | @define inside d rs variants within derived _ ih =>
    simp only [List.flatMap_cons, List.flatMap_nil, List.append_nil, StmtTree.identifiers_define,
      List.cons_append, List.cons_subset, List.append_subset] at used
    have kept : (StmtTree.define () { d with body := rs }).added known = false := by
      simp [StmtTree.added, used.1]
    have alone : Remains o known inside [.define () d] [.define () { d with body := rs }] :=
      .single kept rfl rfl (measuredHere_nil _) rfl (ih used.2.2)
    exact alone.behind derived
  | classDef name within ih =>
    simp only [List.flatMap_cons, List.flatMap_nil, List.append_nil, StmtTree.identifiers_classDef,
      List.cons_subset] at used
    exact .single rfl rfl rfl (measuredHere_nil _) rfl (ih used.2)
  | @allocation inside context r binding body rs stmts new found allocates search within once fresh
      batch ih =>
    simp only [List.flatMap_cons, List.flatMap_nil, List.append_nil, StmtTree.identifiers_scoped,
      List.append_subset] at used
    have opened : (inside || context.isCallTo o.allocateFn) = true := by
      rw [allocates, Bool.or_true]
    refine .single rfl opened (search.opens.trans opened) (measuredHere_nil _) ?_
      ((ih used.2).withBatch batch fresh)
    have split : measuredHere o inside (r :: binding.toList) = _ := measuredHere_cons ..
    rwa [search.measuredHere, List.nil_append] at split
  | @scope inside context r binding body rs new later plain search within ih =>
    simp only [List.flatMap_cons, List.flatMap_nil, List.append_nil, StmtTree.identifiers_scoped,
      List.append_subset] at used
    have closed : (inside || context.isCallTo o.allocateFn) = inside := by
      rw [Bool.not_eq_true] at plain
      rw [plain, Bool.or_false]
    refine .single rfl closed (search.opens.trans closed) (measuredHere_nil _) ?_ (ih used.2)
    have split : measuredHere o inside (r :: binding.toList) = _ := measuredHere_cons ..
    rwa [search.measuredHere, List.nil_append] at split
  | @classical inside test r body orelse rs rs' new new' new'' plain search _ _ ih ih' =>
    simp only [List.flatMap_cons, List.flatMap_nil, List.append_nil, StmtTree.identifiers_conditional,
      List.append_subset] at used
    refine .single rfl rfl rfl (measuredHere_nil _) ?_ ((ih used.1.2).append (ih' used.2))
    rw [StmtTree.unsearched, if_neg plain, measuredHere_nil]
    exact search.measuredHere
  | @quantum inside test lines value body orelse rs stmts new later table control marked operands _ _
      controlled ih ih' =>
    simp only [List.flatMap_cons, List.flatMap_nil, List.append_nil, StmtTree.identifiers_conditional,
      List.append_subset] at used
    have branches := ((ih used.1.2).controlled controlled).append (ih' used.2)
    rw [List.append_nil] at branches
    refine .single rfl rfl (Bool.or_false _) (measuredHere_nil _) ?_ branches
    rw [StmtTree.unsearched, if_pos marked, StmtTree.exprs]
    cases inside with
    | false => rfl
    | true =>
      simp [measuredHere, outermost_scopeCall operands marked, ExprTree.outermost_nameTerm]

/-- If a module is lowered, every statement behind the injected import was searched: in the values, the
contexts and the tests of classical conditionals no measurement is left that stands in an allocation
block, and each allocation block executes those found in it. Apart from the statements that lowering
adds, the measurements left in allocation blocks are the ones in the targets of assignments, in bindings
and in the conditions of quantum conditionals. -/
theorem lower_measurements {t : SyntaxTree} {input : List StmtTerm} {lowered : Lowered}
    (kinded : t.WellKinded) (valid : t.validate = .ok ()) (reads : t.Reads t.body input)
    {boilerplate verification : Bool}
    (ended : t.lower o (.build boilerplate verification) = .ok lowered) :
    ∃ rest, lowered.tree.Reads lowered.tree.body (injectedImport o boilerplate input ++ rest) ∧
      Batched o (input.flatMap StmtTree.identifiers) false input rest [] ∧
      rest.flatMap (StmtTree.measured o (StmtTree.added (input.flatMap StmtTree.identifiers))
          StmtTree.exprs false) =
        input.flatMap (StmtTree.measured o (fun _ => false) (StmtTree.unsearched o) false) := by
  obtain ⟨body, rest, p, -, rfl, lowers, read, -, -⟩ := exists_lowers kinded valid reads ended
  have named : ∀ s ∈ body.map StmtTree.erase,
      s.names ⊆ (body.map StmtTree.erase).flatMap StmtTree.identifiers :=
    fun s member x inside => List.mem_flatMap.2 ⟨s, member, s.names_subset_identifiers inside⟩
  obtain ⟨new, takes, batched⟩ := lowers.batches named (identifiers_subset_start o body)
  obtain rfl := takes.closed rfl
  exact ⟨rest, read, batched, (batched.remains (List.Subset.refl _)).others⟩

def testingBlock : StmtTree NodeId :=
  .scoped 16 (.node 2 (.call (.node 0 (.name "allocate")) [.node 1 (.int 1)] []))
    (some (.node 3 (.name "q")))
    [.conditional 15 (.node 10 (.call (.node 4 (.name "superposition")) [.node 9 (.compare
      (.node 5 (.name "q")) .equal (.node 8 (.call (.node 6 (.name "measure"))
        [.node 7 (.name "r")] [])))] []))
      [.expr 14 (.node 13 (.call (.node 11 (.name "X")) [.node 12 (.name "t")] []))] []]

def testingModule : SyntaxTree :=
  ⟨#[.expr (.name "allocate"), .expr (.int 1), .expr (.call 0 [1] []), .expr (.name "q"),
    .expr (.name "superposition"), .expr (.name "q"), .expr (.name "measure"), .expr (.name "r"),
    .expr (.call 6 [7] []), .expr (.compare 5 .equal 8), .expr (.call 4 [9] []), .expr (.name "X"),
    .expr (.name "t"), .expr (.call 11 [12] []), .stmt (.expr 13), .stmt (.conditional 10 [14] []),
    .stmt (.scoped 2 (some 3) [15])], [16]⟩

theorem testingModule_placed : Placed testingModule [testingBlock] := by
  refine ⟨rfl, ?_, ?_⟩
  · simp [testingModule, testingBlock, Expr.map, Expr.children, Holds, StmtTree.label]
  · simp [testingBlock, Expr.map, Expr.children, StmtTree.label]

theorem unsearched_testingBlock :
    testingBlock.erase.measured .default (fun _ => false) (StmtTree.unsearched .default) false =
      [.node () (.call (nameTerm "measure") [nameTerm "r"] [])] := by
  simp [testingBlock, StmtTree.measured_eq, StmtTree.unsearched, StmtTree.opens, StmtTree.inner,
    Expr.map, measuredHere, ExprTree.outermost_node, ExprTree.isCallTo, ExprTree.layer, Expr.children,
    nameTerm, Options.default]

/-- The measurement in the condition is left where it stands. -/
theorem lower_measurements_condition :
    ∃ lowered rest, testingModule.lower .default (.build false true) = .ok lowered ∧
      lowered.tree.Reads lowered.tree.body rest ∧
      rest.flatMap (StmtTree.measured .default (StmtTree.added testingBlock.erase.identifiers)
        StmtTree.exprs false) = [.node () (.call (nameTerm "measure") [nameTerm "r"] [])] := by
  have placed := testingModule_placed
  have succeeds : (testingModule.lower .default (.build false true)).toOption.any
      (fun _ => true) := by
    decide +kernel
  obtain ⟨lowered, ended, -⟩ := exists_lowered succeeds
  obtain ⟨rest, lowers, -, left⟩ := lower_measurements placed.wellKinded placed.validate
    ⟨_, placed.labels, rfl, placed.owned.held⟩ ended
  refine ⟨lowered, rest, ended, lowers, ?_⟩
  simpa [unsearched_testingBlock] using left

end QuantumLowering
