import QuantumLowering.Proofs.Lowering.Flattening

namespace QuantumLowering

def StmtTree.lists {α : Type} : StmtTree α → List (List (StmtTree α))
  | .scoped _ _ _ body => [body]
  | .conditional _ _ body orelse => [body, orelse]
  | _ => []

/-- The way to a list inside a block: the number of a statement and the number of a list in it, as
often as one goes into a statement. -/
abbrev Place := List (Nat × Nat)

def listAt {α : Type} : List (StmtTree α) → Place → Option (List (StmtTree α))
  | block, [] => some block
  | block, (i, k) :: place => do
    let s ← block[i]?
    let inner ← s.lists[k]?
    listAt inner place

def StmtTree.turns {α : Type} (o : Options) : StmtTree α → Bool
  | .scoped _ context _ _ => context.isControlScope o
  | _ => false

/-- A list in a block, whether the adjoint reverses it, and its place in the adjoint of the block. -/
def locate (o : Options) : Bool → List StmtTerm → Place → Option (Bool × List StmtTerm × Place)
  | turned, block, [] => some (turned, block, [])
  | turned, block, (i, k) :: place => do
    let s ← block[i]?
    let inner ← s.lists[k]?
    let (turned', list, inside) ← locate o (s.turns o) inner place
    let position := if turned then block.length - 1 - i else i
    return (turned', list, (position, k) :: inside)

def turnedList {α : Type} (turned : Bool) (list : List α) : List α :=
  if turned then list.reverse else list

theorem turnedList_turnedList {α : Type} (turned : Bool) (list : List α) :
    turnedList turned (turnedList turned list) = list := by
  cases turned with
  | false => rfl
  | true => exact list.reverse_reverse

theorem getElem?_turnedList {α : Type} {list : List α} (turned : Bool) {i : Nat}
    (bound : i < list.length) :
    list[if turned then list.length - 1 - i else i]? = (turnedList turned list)[i]? := by
  cases turned with
  | false => rfl
  | true => exact (List.getElem?_reverse bound).symm

section Ordered

variable {known : OperationTable} {o : Options}

/-- The second list has the adjoints of the statements of the first, in the opposite order if it is
turned. -/
def Ordered (known : OperationTable) (o : Options) (turned : Bool) (list list' : List StmtTerm) :
    Prop :=
  List.Forall₂ (fun s s' => adjointStmt known o s = .ok s') list (turnedList turned list')

theorem adjointStmt_lists {s s' : StmtTerm} {k : Nat} {inner : List StmtTerm}
    (ran : adjointStmt known o s = .ok s') (found : s.lists[k]? = some inner) :
    ∃ inner', s'.lists[k]? = some inner' ∧ Ordered known o (s.turns o) inner inner' := by
  cases CallRule.rewritten ran with
  | kept closed =>
    have empty : s.lists = [] := by
      cases s with
      | importAs _ _ _ | define _ _ | classDef _ _ _ | wire _ _ _ _ | pass _ => rfl
      | expr _ _ | assign _ _ _ | «scoped» _ _ _ _ | conditional _ _ _ _ => cases closed
    simp [empty] at found
  | expr _ => simp [StmtTree.lists] at found
  | assign _ => simp [StmtTree.lists] at found
  | @scope context binding body rs ended =>
    obtain ⟨rfl, rfl⟩ : k = 0 ∧ body = inner := by
      cases k <;> simp_all [StmtTree.lists]
    refine ⟨_, rfl, ?_⟩
    have turned := turnedList_turnedList (context.isControlScope o) rs
    have copies := Plan.mapM_eq_ok ended
    rw [← turned] at copies
    exact copies
  | @conditional test body orelse rs rs' ended ended' =>
    match k with
    | 0 =>
      cases found
      exact ⟨rs, rfl, Plan.mapM_eq_ok ended⟩
    | 1 =>
      cases found
      exact ⟨rs', rfl, Plan.mapM_eq_ok ended'⟩
    | k + 2 => cases found

/-- What holds of a block and its adjoint holds of every list in it and the list at the place that
corresponds. -/
theorem Ordered.inside {turned : Bool} {block block' : List StmtTerm}
    (ordered : Ordered known o turned block block') {place place' : Place} {turned' : Bool}
    {list : List StmtTerm} (located : locate o turned block place = some (turned', list, place')) :
    ∃ list', listAt block' place' = some list' ∧ Ordered known o turned' list list' := by
  induction place generalizing turned block block' place' with
  | nil =>
    cases located
    exact ⟨block', rfl, ordered⟩
  | cons step place ih =>
    obtain ⟨i, k⟩ := step
    simp only [locate, Option.bind_eq_bind, Option.bind_eq_some_iff] at located
    obtain ⟨s, found, inner, listed, ⟨turned'', list'', inside⟩, located, ended⟩ := located
    cases ended
    have length : block'.length = block.length := by
      have lengths := List.Forall₂.length_eq ordered
      cases turned <;> simp_all [turnedList]
    have bound : i < block.length := (List.getElem?_eq_some_iff.1 found).1
    obtain ⟨s', found', ran⟩ : ∃ s', (turnedList turned block')[i]? = some s' ∧
        adjointStmt known o s = .ok s' := by
      have bound' : i < (turnedList turned block').length := by
        rwa [← List.Forall₂.length_eq ordered]
      refine ⟨_, List.getElem?_eq_getElem bound', ?_⟩
      obtain ⟨_, rfl⟩ := List.getElem?_eq_some_iff.1 found
      exact List.Forall₂.get ordered bound bound'
    obtain ⟨inner', listed', ordered'⟩ := adjointStmt_lists ran listed
    obtain ⟨list', there, result⟩ := ih ordered' located
    refine ⟨list', ?_, result⟩
    rw [listAt, ← length, getElem?_turnedList turned (by omega), found']
    simp only [Option.bind_eq_bind, Option.bind_some, listed', there]

theorem locate_eq_some (o : Options) (turned : Bool) {block list : List StmtTerm} {place : Place}
    (found : listAt block place = some list) :
    ∃ turned' place', locate o turned block place = some (turned', list, place') := by
  induction place generalizing turned block with
  | nil =>
    cases found
    exact ⟨turned, [], rfl⟩
  | cons step place ih =>
    obtain ⟨i, k⟩ := step
    simp only [listAt, Option.bind_eq_bind, Option.bind_eq_some_iff] at found
    obtain ⟨s, there, inner, listed, found⟩ := found
    obtain ⟨turned', place', located⟩ := ih (s.turns o) found
    refine ⟨turned', (if turned then block.length - 1 - i else i, k) :: place', ?_⟩
    simp only [locate, there, listed, located, Option.bind_eq_bind, Option.bind_some]
    rfl

end Ordered

/-- Every list of statements in the body, whatever it is inside of, has a place in the derived body,
and the list there has the adjoints of its statements: in the opposite order if it is the body itself
or the body of a control scope, and in the same order if it is the body of another scope or a branch. -/
theorem deriveAdjoint_order {t : SyntaxTree} {c : Context} {d derived : Definition NodeId}
    {body : List StmtTerm} {s : LoweringState} (read : t.Reads d.body body)
    (ran : LowerM.deriveAdjoint d ⟨t, c⟩ = .ok derived s) :
    ∃ body', s.tree.Reads derived.body body' ∧
      ∀ place list, listAt body place = some list →
        ∃ turned place' list', locate c.options true body place = some (turned, list, place') ∧
          listAt body' place' = some list' ∧
          Ordered c.operations c.options turned list list' := by
  obtain ⟨body', ended, read'⟩ := (deriveAdjoint_body_runs read).exists_of_ok ran
  obtain ⟨rs, rewritten, ended⟩ := Plan.bind_eq_ok.1 ended
  cases ended
  have ordered : Ordered c.operations c.options true body rs.reverse := by
    rw [Ordered, turnedList, if_pos rfl, List.reverse_reverse]
    exact Plan.mapM_eq_ok rewritten
  refine ⟨_, read', fun place list found => ?_⟩
  obtain ⟨turned, place', located⟩ := locate_eq_some c.options true found
  obtain ⟨list', there, result⟩ := ordered.inside located
  exact ⟨turned, place', list', located, there, result⟩

/-- A control scope and a conditional with the same statements: in the derived body they have changed
places, and only the statements of the scope are reversed. -/
theorem deriveAdjoint_order_scope :
    let call : String → StmtTerm := fun gate =>
      .expr () (.node () (.call (nameTerm gate) [nameTerm "q"] []))
    let t : SyntaxTree := ⟨#[.expr (.name "X"), .expr (.name "q"), .expr (.call 0 [1] []),
      .stmt (.expr 2), .expr (.name "R1"), .expr (.name "q"), .expr (.call 4 [5] []),
      .stmt (.expr 6), .expr (.name "bp"), .expr (.attribute 8 "control_scope"),
      .expr (.call 9 [] []), .stmt (.scoped 10 none [3, 7]), .expr (.name "b"),
      .stmt (.conditional 12 [3, 7] [])], []⟩
    ∃ derived s, LowerM.deriveAdjoint ⟨"f", ["q"], [11, 13], none⟩ ⟨t, .new .default⟩ =
      .ok derived s ∧ ∃ body', s.tree.Reads derived.body body' ∧
        (∃ list', listAt body' [(1, 0)] = some list' ∧
          Ordered .preamble .default true [call "X", call "R1"] list') ∧
        ∃ list', listAt body' [(0, 0)] = some list' ∧
          Ordered .preamble .default false [call "X", call "R1"] list' := by
  intro call t
  let scope : ExprTerm :=
    .node () (.call (.node () (.attribute (nameTerm "bp") "control_scope")) [] [])
  let body : List StmtTerm := [.scoped () scope none [call "X", call "R1"],
    .conditional () (nameTerm "b") [call "X", call "R1"] []]
  have read : t.Reads [11, 13] body := by
    let x : StmtTree NodeId := .expr 3 (.node 2 (.call (.node 0 (.name "X")) [.node 1 (.name "q")] []))
    let r1 : StmtTree NodeId :=
      .expr 7 (.node 6 (.call (.node 4 (.name "R1")) [.node 5 (.name "q")] []))
    refine ⟨[.scoped 11 (.node 10 (.call (.node 9 (.attribute (.node 8 (.name "bp"))
      "control_scope")) [] [])) none [x, r1], .conditional 13 (.node 12 (.name "b")) [x, r1] []],
      rfl, ?_, ?_⟩
    · simp [body, scope, call, x, r1, nameTerm, Expr.map]
    · simp [t, x, r1, Expr.map, Expr.children, Holds, StmtTree.label]
  have succeeds : LowerM.succeeds (LowerM.deriveAdjoint ⟨"f", ["q"], [11, 13], none⟩)
      ⟨t, .new .default⟩ := by decide +kernel
  obtain ⟨derived, s, ran⟩ := LowerM.exists_of_succeeds succeeds
  obtain ⟨body', read', ordered⟩ := deriveAdjoint_order read ran
  refine ⟨derived, s, ran, body', read', ?_, ?_⟩
  · obtain ⟨turned, place', list', located, there, result⟩ :=
      ordered [(0, 0)] [call "X", call "R1"] rfl
    cases located
    exact ⟨list', there, result⟩
  · obtain ⟨turned, place', list', located, there, result⟩ :=
      ordered [(1, 0)] [call "X", call "R1"] rfl
    cases located
    exact ⟨list', there, result⟩

/-- Of two statements of the list that have calls of known operations, the adjoint of the later one
comes first in the other list. -/
def Opposed (known : OperationTable) (o : Options) (list list' : List StmtTerm) : Prop :=
  ∀ (i j : Nat) (a b : StmtTerm), i < j → list[i]? = some a → list[j]? = some b →
    operationCallsIn known [a] ≠ [] → operationCallsIn known [b] ≠ [] →
    ∃ (i' j' : Nat) (a' b' : StmtTerm), j' < i' ∧ list'[i']? = some a' ∧ list'[j']? = some b' ∧
      adjointStmt known o a = .ok a' ∧ adjointStmt known o b = .ok b'

/-- Every list in the first block has its statements in the opposite order in some list of the
second. -/
def OpposedThroughout (known : OperationTable) (o : Options) (body body' : List StmtTerm) : Prop :=
  ∀ place list, listAt body place = some list →
    ∃ place' list', listAt body' place' = some list' ∧ Opposed known o list list'

section Call

variable {known : OperationTable} {gate line : String}

theorem operationCallsIn_call (operation : (nameTerm gate).operation? known = some gate)
    (line : String) :
    operationCallsIn known [.expr () (.node () (.call (nameTerm gate) [nameTerm line] []))] ≠ [] := by
  simp [operationCallsIn, ExprTree.operationCalls_node, ExprTree.isOperationCall, operation]

theorem adjointStmt_call {o : Options} {copy : StmtTerm}
    (operation : (nameTerm gate).operation? known = some gate)
    (ran : adjointStmt known o (.expr () (.node () (.call (nameTerm gate) [nameTerm line] []))) =
      .ok copy) :
    ∃ func : ExprTerm, func.base = nameTerm gate ∧
      copy = .expr () (.node () (.call func [nameTerm line] [])) := by
  obtain ⟨e, ended, rfl⟩ := CallRule.rewriteStmt_expr_ok ran
  have isOperation : ExprTree.isOperationCall known (.call (nameTerm gate) [nameTerm line] []) := by
    simp [ExprTree.isOperationCall, operation]
  have none := ExprTree.operationCalls_nameTerm known
  obtain ⟨func, ranBase, rfl⟩ := adjoint_call isOperation (by simp [none]) ended
  have base : func.base = nameTerm gate := adjoint_eq_self (none gate) ranBase
  exact ⟨_, by rw [ExprTree.base_wrap, ExprTree.base_base, base], rfl⟩

end Call

/-- The statements of a scope that is no control scope are not reversed. -/
theorem deriveAdjoint_not_opposed :
    let call : String → StmtTerm := fun gate =>
      .expr () (.node () (.call (nameTerm gate) [nameTerm "q"] []))
    let body : List StmtTerm := [.scoped () (nameTerm "r") none [call "X", call "R1"]]
    let t : SyntaxTree := ⟨#[.expr (.name "X"), .expr (.name "q"), .expr (.call 0 [1] []),
      .stmt (.expr 2), .expr (.name "R1"), .expr (.name "q"), .expr (.call 4 [5] []),
      .stmt (.expr 6), .expr (.name "r"), .stmt (.scoped 8 none [3, 7])], []⟩
    ∃ derived s body', LowerM.deriveAdjoint ⟨"f", ["q"], [9], none⟩ ⟨t, .new .default⟩ =
      .ok derived s ∧ t.Reads [9] body ∧ s.tree.Reads derived.body body' ∧
        ¬ OpposedThroughout .preamble .default body body' := by
  intro call body t
  have read : t.Reads [9] body := by
    refine ⟨[.scoped 9 (.node 8 (.name "r")) none
      [.expr 3 (.node 2 (.call (.node 0 (.name "X")) [.node 1 (.name "q")] [])),
        .expr 7 (.node 6 (.call (.node 4 (.name "R1")) [.node 5 (.name "q")] []))]], rfl, ?_, ?_⟩
    · simp [body, call, nameTerm, Expr.map]
    · simp [t, Expr.map, Expr.children, Holds, StmtTree.label]
  have succeeds : LowerM.succeeds (LowerM.deriveAdjoint ⟨"f", ["q"], [9], none⟩)
      ⟨t, .new .default⟩ := by decide +kernel
  obtain ⟨derived, s, ran⟩ := LowerM.exists_of_succeeds succeeds
  obtain ⟨body', ended, read'⟩ := (deriveAdjoint_body_runs read).exists_of_ok ran
  obtain ⟨rs, rewritten, ended⟩ := Plan.bind_eq_ok.1 ended
  cases ended
  refine ⟨derived, s, _, ran, read, read', fun opposed => ?_⟩
  obtain ⟨scope, rest, turned, none, rfl⟩ :=
    List.forall₂_cons_left_iff.1 (Plan.mapM_eq_ok rewritten)
  cases none
  obtain ⟨copies, inner, rfl⟩ := CallRule.rewriteStmt_scoped_ok turned
  obtain ⟨x, rest, ranX, others, rfl⟩ := List.forall₂_cons_left_iff.1 (Plan.mapM_eq_ok inner)
  obtain ⟨r, rest, ranR, none, rfl⟩ := List.forall₂_cons_left_iff.1 others
  cases none
  have knownX : (nameTerm "X").operation? .preamble = some "X" := by decide +kernel
  have knownR : (nameTerm "R1").operation? .preamble = some "R1" := by decide +kernel
  -- the two copies differ in the names of their gates
  obtain ⟨funcX, baseX, rfl⟩ := adjointStmt_call knownX ranX
  obtain ⟨funcR, baseR, rfl⟩ := adjointStmt_call knownR ranR
  obtain ⟨place', list', found, opposite⟩ := opposed [(0, 0)] [call "X", call "R1"] rfl
  obtain ⟨i', j', x, r, before, atX, atR, ranX', ranR'⟩ := opposite 0 1 (call "X") (call "R1")
    (by decide) rfl rfl (operationCallsIn_call knownX "q") (operationCallsIn_call knownR "q")
  cases ranX.symm.trans ranX'
  cases ranR.symm.trans ranR'
  have apart : funcX ≠ funcR := by
    rintro rfl
    have same := baseX.symm.trans baseR
    simp [nameTerm] at same
  -- the scope is alone in its list, and the list in it is in order
  rcases place' with _ | ⟨⟨_ | i, _ | k⟩, _ | ⟨⟨_ | _ | i, k⟩, rest⟩⟩
  · cases found
    have bound := (List.getElem?_eq_some_iff.1 atX).1
    simp only [List.reverse_cons, List.reverse_nil, List.nil_append, List.length_singleton] at bound
    omega
  · cases found
    rcases i' with _ | _ | i'
    · omega
    · obtain rfl : j' = 0 := by omega
      exact apart (by cases atX; rfl)
    · cases atX
  all_goals cases found

end QuantumLowering
