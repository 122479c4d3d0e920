import QuantumLowering.Proofs.Circuit.Scopes
import QuantumLowering.Proofs.Lowering.Plan

namespace QuantumLowering

abbrev Controls := String → Option AllOnesControl

def Controls.bind (env : Controls) (name : String) (control : AllOnesControl) : Controls :=
  Function.update env name (some control)

def Controls.listed (env : Controls) (e : ExprTerm) : List AllOnesControl :=
  e.leaves.filterMap fun leaf =>
    match leaf.layer with
    | .name name => env name
    | _ => none

/-- Where statements run: what applies gates to a basis state, the lines and values that
expressions stand for, and what a gate does once it fires. -/
structure Device (R : Type) [AmplitudeScalar R] where
  sink : Sink R CircuitM
  sink_x : ∀ line s, sink line .x s = .ok ((), s.flip line)
  lines : ExprTerm → List Line
  value : ExprTerm → Nat
  gate : ExprTerm → List ExprTerm → BasisState → BasisState

namespace Device

variable {R : Type} [AmplitudeScalar R] (D : Device R)

/-- Applies a gate if its controls say so, and tells whether they did. -/
def fire (controls : List AllOnesControl) (func : ExprTerm) (args : List ExprTerm) :
    CircuitM (List Bool) := do
  let fires := (AllOnesControl.conjunction controls).all (← get)
  if fires then modify (D.gate func args)
  return [fires]

/-- Runs a statement, and tells of every gate whether it fired. -/
def exec (o : Options) : StmtTerm → Controls → CircuitM (List Bool)
  | .expr _ value, env =>
    match value.layer with
    | .call func args _ =>
      match func.layer, args with
      | .functor .controlled gate, controls :: args => D.fire (env.listed controls) gate args
      | _, _ => D.fire [] func args
    | _ => return []
  | .scoped _ context binding body, env =>
    match context.isControlScope o, context.layer, binding.map ExprTree.layer with
    | true, .call _ [lines, value] _, some (.name name) => do
      let scope ← ControlScope.new (D.lines lines) (D.value value)
      let control ← scope.enter D.sink
      let fired ← body.attach.mapM fun s => exec o s.1 (env.bind name control)
      scope.exit D.sink
      return fired.flatten
    | _, _, _ => do
      let fired ← body.attach.mapM fun s => exec o s.1 env
      return fired.flatten
  | _, _ => return []
termination_by s => sizeOf s
decreasing_by all_goals exact StmtTree.sizeOf_inner (by simp [StmtTree.inner, s.2])

theorem run_flip (scope : ControlScope) (s : BasisState) :
    scope.flip D.sink s = .ok ((), s.flipAll scope.toggles) :=
  ControlScope.run_flip D.sink_x scope s

variable {D} {o : Options} {lines value : ExprTerm} {c : Condition}

theorem exec_scopeCall (lines value : ExprTerm) (name : String) (body : List StmtTerm)
    (env : Controls) :
    D.exec o (.scoped () (PlanM.scopeCall o lines value) (some (nameTerm name)) body) env = do
      let scope ← liftM (ControlScope.new (D.lines lines) (D.value value))
      let control ← scope.enter D.sink
      let fired ← body.mapM fun s => D.exec o s (env.bind name control)
      scope.exit D.sink
      return fired.flatten := by
  have scope : (PlanM.scopeCall o lines value).isControlScope o = true := by
    simp [PlanM.scopeCall, nameTerm, ExprTree.isControlScope]
  rw [exec, scope]
  simp only [PlanM.scopeCall, nameTerm, ExprTree.layer, Option.map_some]
  refine bind_congr fun scope => bind_congr fun control => ?_
  rw [mapM_attach (fun t => D.exec o t (env.bind name control)) body]

theorem exec_scope (read : c = ⟨D.lines lines, D.value value⟩) (wf : c.WellFormed) {name : String}
    {inner : StmtTerm} {env : Controls} {s inside : BasisState} {fired : List Bool}
    (ran : D.exec o inner (env.bind name ⟨c.lines⟩) (s.flipAll c.zeros) = .ok (fired, inside)) :
    D.exec o (.scoped () (PlanM.scopeCall o lines value) (some (nameTerm name)) [inner]) env s =
      .ok (fired, inside.flipAll c.zeros) := by
  have new : ControlScope.new (D.lines lines) (D.value value) = .ok ⟨⟨c.lines⟩, c.zeros⟩ := by
    have made := wf.scope_new
    rwa [read] at made ⊢
  have entered : ControlScope.enter ⟨⟨c.lines⟩, c.zeros⟩ D.sink s =
      .ok (⟨c.lines⟩, s.flipAll c.zeros) := by
    unfold ControlScope.enter
    rw [CircuitM.run_bind (D.run_flip _ s)]
    rfl
  have body : ([inner].mapM fun t => D.exec o t (env.bind name ⟨c.lines⟩)) (s.flipAll c.zeros) =
      .ok ([fired], inside) := by
    rw [List.mapM_cons, CircuitM.run_bind ran]
    rfl
  rw [exec_scopeCall, CircuitM.run_bind (CircuitM.run_lift new), CircuitM.run_bind entered,
    CircuitM.run_bind body]
  unfold ControlScope.exit
  rw [CircuitM.run_bind (D.run_flip _ inside), List.flatten_singleton]
  rfl

end Device

/-- The lines that a quantum conditional tests, and the value it tests them for. -/
structure Level where
  lines : ExprTerm
  value : ExprTerm

/-- Control scopes inside each other, the first being the outermost, each with the name it binds. -/
def scopeNest (o : Options) : List (Level × String) → StmtTerm → StmtTerm
  | [], inner => inner
  | (level, name) :: levels, inner =>
    .scoped () (PlanM.scopeCall o level.lines level.value) (some (nameTerm name))
      [scopeNest o levels inner]

def controlArgument : List String → ExprTerm
  | [name] => nameTerm name
  | names => .node () (.aggregate (names.map nameTerm))

def gateCall (gate target : String) : List String → ExprTerm
  | [] => .node () (.call (nameTerm gate) [nameTerm target] [])
  | names => .node () (.call (.node () (.functor .controlled (nameTerm gate)))
    [controlArgument names, nameTerm target] [])

theorem leaves_nameTerm (name : String) : (nameTerm name).leaves = [nameTerm name] :=
  ExprTree.leaves_of_ne (by simp [nameTerm]) (by simp [nameTerm])

theorem leaves_controlArgument (names : List String) :
    (controlArgument names).leaves = names.map nameTerm := by
  have aggregate : (ExprTree.node () (.aggregate (names.map nameTerm))).leaves =
      names.map nameTerm := by
    rw [ExprTree.leaves_aggregate, List.flatMap_map]
    simp [leaves_nameTerm, ← List.map_eq_flatMap]
  match names with
  | [name] => exact leaves_nameTerm name
  | [] | _ :: _ :: _ => exact aggregate

namespace Device

variable {R : Type} [AmplitudeScalar R] {D : Device R} {o : Options}

def condition (D : Device R) (level : Level) : Condition := ⟨D.lines level.lines, D.value level.value⟩

def conditions (D : Device R) (levels : List (Level × String)) : List Condition :=
  levels.map fun level => D.condition level.1

def bindAll (D : Device R) (env : Controls) (levels : List (Level × String)) : Controls :=
  levels.foldl (fun env level => env.bind level.2 ⟨(D.condition level.1).lines⟩) env

theorem exec_scopeNest {levels : List (Level × String)}
    (wf : ∀ c ∈ D.conditions levels, c.WellFormed) {inner : StmtTerm} {env : Controls}
    {s inside : BasisState} {fired : List Bool}
    (ran : D.exec o inner (D.bindAll env levels) (s.entered (D.conditions levels)) =
      .ok (fired, inside)) :
    D.exec o (scopeNest o levels inner) env s =
      .ok (fired, inside.left (D.conditions levels)) := by
  induction levels generalizing env s with
  | nil => exact ran
  | cons level levels ih =>
    have rest := ih (fun c member => wf c (List.mem_cons_of_mem _ member)) ran
    exact exec_scope rfl (wf _ List.mem_cons_self) rest

theorem bindAll_of_not_mem {levels : List (Level × String)} {name : String}
    (other : name ∉ levels.map Prod.snd) (env : Controls) : D.bindAll env levels name = env name := by
  induction levels generalizing env with
  | nil => rfl
  | cons level levels ih =>
    rw [List.map_cons, List.mem_cons, not_or] at other
    refine (ih other.2 _).trans ?_
    exact Function.update_of_ne other.1 _ _

theorem bindAll_apply {levels : List (Level × String)} (once : (levels.map Prod.snd).Nodup)
    {level : Level × String} (member : level ∈ levels) (env : Controls) :
    D.bindAll env levels level.2 = some ⟨(D.condition level.1).lines⟩ := by
  induction levels generalizing env with
  | nil => cases member
  | cons first levels ih =>
    rw [List.map_cons, List.nodup_cons] at once
    rcases List.mem_cons.1 member with rfl | member
    · refine (bindAll_of_not_mem once.1 _).trans ?_
      exact Function.update_self _ _ _
    · exact ih once.2 member _

theorem listed_controlArgument {levels : List (Level × String)}
    (once : (levels.map Prod.snd).Nodup) (env : Controls) :
    (D.bindAll env levels).listed (controlArgument (levels.map Prod.snd)) =
      (D.conditions levels).map fun c => ⟨c.lines⟩ := by
  unfold Controls.listed conditions
  rw [leaves_controlArgument, List.filterMap_map, List.filterMap_map, List.map_map,
    ← List.filterMap_eq_map]
  exact List.filterMap_congr fun level member => bindAll_apply once member env

theorem exec_gateCall {levels : List (Level × String)} (once : (levels.map Prod.snd).Nodup)
    (gate target : String) (env : Controls) (s : BasisState) :
    ∃ fired : Bool, (fired = true ↔ ∀ c ∈ D.conditions levels, ∀ line ∈ c.lines, s line = true) ∧
      D.exec o (.expr () (gateCall gate target (levels.map Prod.snd))) (D.bindAll env levels) s =
        .ok ([fired], if fired then D.gate (nameTerm gate) [nameTerm target] s else s) := by
  let controls : List AllOnesControl := (D.conditions levels).map fun c => ⟨c.lines⟩
  have calls : D.exec o (.expr () (gateCall gate target (levels.map Prod.snd)))
      (D.bindAll env levels) = D.fire controls (nameTerm gate) [nameTerm target] := by
    have listed := listed_controlArgument (D := D) once env
    cases levels with
    | nil =>
      rw [exec]
      rfl
    | cons level levels =>
      rw [exec]
      exact congrArg (D.fire · _ _) listed
  refine ⟨(AllOnesControl.conjunction controls).all s, ?_, ?_⟩
  · rw [List.all_eq_true]
    constructor
    · intro all c member line listed
      exact all line (AllOnesControl.mem_conjunction.2
        ⟨⟨c.lines⟩, List.mem_map_of_mem member, listed⟩)
    · intro all line member
      obtain ⟨_, listed, inside⟩ := AllOnesControl.mem_conjunction.1 member
      obtain ⟨c, among, rfl⟩ := List.mem_map.1 listed
      exact all c among line inside
  · rw [calls]
    unfold fire
    rw [CircuitM.run_bind (show (get : CircuitM BasisState) s = .ok (s, s) from rfl)]
    dsimp only
    cases (AllOnesControl.conjunction controls).all s <;> rfl

/-- Scopes inside each other around a gate: it fires when all lines read one inside of them, and
afterwards the lines read what they did. -/
theorem exec_scopeNest_gate {levels : List (Level × String)} (once : (levels.map Prod.snd).Nodup)
    (wf : ∀ c ∈ D.conditions levels, c.WellFormed) {gate target : String}
    (apart : ∀ s, ∀ c ∈ D.conditions levels, ∀ line ∈ c.lines,
      D.gate (nameTerm gate) [nameTerm target] s line = s line)
    (env : Controls) (s : BasisState) :
    ∃ (fired : Bool) (s' : BasisState),
      D.exec o (scopeNest o levels (.expr () (gateCall gate target (levels.map Prod.snd)))) env s =
        .ok ([fired], s') ∧ (fired = true ↔ s.Fires (D.conditions levels)) ∧
      ∀ c ∈ D.conditions levels, ∀ line ∈ c.lines, s' line = s line := by
  obtain ⟨fired, fires, ran⟩ := exec_gateCall (D := D) (o := o) once gate target env
    (s.entered (D.conditions levels))
  refine ⟨fired, _, exec_scopeNest wf ran, fires, fun c member line listed => ?_⟩
  refine BasisState.left_entered wf ?_
  cases fired with
  | false => rfl
  | true => exact apart _ c member line listed

end Device

end QuantumLowering
