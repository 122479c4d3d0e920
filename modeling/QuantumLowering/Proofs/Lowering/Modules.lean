import QuantumLowering.Proofs.Lowering.MarkedDefinitions
import QuantumLowering.Proofs.Syntax.Validation

namespace QuantumLowering

/-- The statements of the body are placed in the tree and use every node once. -/
structure Placed (t : SyntaxTree) (body : List (StmtTree NodeId)) : Prop where
  labels : body.map StmtTree.label = t.body
  owned : Owns t (body.flatMap StmtTree.cells)

namespace Placed

variable {t : SyntaxTree} {body : List (StmtTree NodeId)}

theorem ids_eq (body : List (StmtTree NodeId)) :
    body.flatMap StmtTree.ids = (body.flatMap StmtTree.cells).map Prod.fst := by
  rw [List.map_flatMap]
  rfl

theorem wellKinded (placed : Placed t body) : t.WellKinded :=
  wellKinded_of_placed placed.labels placed.owned.held

theorem validate (placed : Placed t body) : t.validate = .ok () := by
  refine validate_of_placed placed.labels placed.owned.held ?_
  rw [ids_eq]
  exact placed.owned.once

end Placed

theorem exists_placed {t : SyntaxTree} (kinded : t.WellKinded) (valid : t.validate = .ok ()) :
    ∃ body, Placed t body := by
  obtain ⟨body, labels, held, once⟩ := exists_body kinded valid
  rw [Placed.ids_eq] at once
  exact ⟨body, labels, held, once⟩

section Infer

variable {t : SyntaxTree} {c : Context}

def Context.enter (c : Context) : Node NodeId → Context
  | .stmt (.define d) =>
    let names := d.params.foldl NameSupply.reserve (c.names.reserve d.name)
    match d.operation with
    | some markers => { c with names := names, operations := c.operations.declare d.name markers }
    | none => { c with names := names }
  | .stmt (.classDef name _) => { c with names := c.names.reserve name }
  | .stmt (.importAs _ name) => { c with names := c.names.reserve name }
  | .expr (.name name) => { c with names := c.names.reserve name }
  | _ => c

theorem LowerM.run_bind {α β : Type} {act : LowerM α} {f : α → LowerM β} {a : α}
    {s s' : LoweringState} (ran : act s = .ok a s') : (act >>= f) s = f a s' := by
  simp only [Bind.bind, EStateM.bind, ran]

theorem LowerM.run_forM {α : Type} (act : α → LowerM Unit) (step : Context → α → Context)
    (xs : List α) (each : ∀ x ∈ xs, ∀ c, act x ⟨t, c⟩ = .ok () ⟨t, step c x⟩) (c : Context) :
    xs.forM act ⟨t, c⟩ = .ok () ⟨t, xs.foldl step c⟩ := by
  induction xs generalizing c with
  | nil => rfl
  | cons x xs ih =>
    rw [List.forM_eq_forM, List.forM_cons, LowerM.run_bind (each x (by simp) c)]
    exact ih (fun x inside => each x (by simp [inside])) (step c x)

theorem run_inferNode {id : NodeId} {node : Node NodeId} (found : t.nodes[id]? = some node) :
    Pass.inferNode id ⟨t, c⟩ = .ok () ⟨t, c.enter node⟩ := by
  unfold Pass.inferNode
  rw [LowerM.run_bind (Runs.lift_treeM (TreeM.run_node found))]
  match node with
  | .stmt (.define ⟨name, params, body, operation⟩) =>
    have named : (ContextM.reserve name : LowerM Unit) ⟨t, c⟩ =
        .ok () ⟨t, { c with names := c.names.reserve name }⟩ := rfl
    have reserved := LowerM.run_forM (t := t) (fun param => ContextM.reserve param)
      (fun c param => { c with names := c.names.reserve param }) params (fun _ _ _ => rfl)
    have kept : ∀ (params : List String) (c : Context),
        params.foldl (fun c param => { c with names := c.names.reserve param }) c =
          { c with names := params.foldl NameSupply.reserve c.names } := by
      intro params
      induction params with
      | nil => exact fun _ => rfl
      | cons param params ih => exact fun c => ih _
    simp only [kept] at reserved
    dsimp only
    rw [LowerM.run_bind named, LowerM.run_bind (reserved _)]
    cases operation <;> rfl
  | .stmt (.classDef ..) | .stmt (.importAs ..) | .stmt (.expr _) | .stmt (.assign ..)
  | .stmt (.scoped ..) | .stmt (.conditional ..) | .stmt (.wire ..) | .stmt .pass => rfl
  | .expr (.name _) | .expr (.int _) | .expr (.float _) | .expr (.bool _) | .expr (.str _)
  | .expr (.attribute ..) | .expr (.call ..) | .expr (.functor ..) | .expr (.aggregate _)
  | .expr (.list _) | .expr (.tuple _) | .expr (.compare ..) => rfl

def Context.enterAll (c : Context) (cells : List Cell) : Context :=
  cells.foldl (fun c cell => c.enter cell.2) c

theorem run_inferRoot {s : StmtTree NodeId} (held : Holds t s.cells) (c : Context) :
    Pass.inferRoot s.label ⟨t, c⟩ = .ok () ⟨t, c.enterAll s.cells⟩ := by
  have walked : ((liftM (t.subtree s.label) : LowerM (List NodeId)) ⟨t, c⟩) =
      .ok s.ids ⟨t, c⟩ := by
    rw [held.subtree_stmt]
    rfl
  have entered := LowerM.run_forM (fun cell : Cell => Pass.inferNode cell.1)
    (fun c cell => c.enter cell.2) s.cells
    (fun cell member c => run_inferNode (held cell member)) c
  unfold Pass.inferRoot
  rw [LowerM.run_bind (show LowerM.tree ⟨t, c⟩ = .ok t ⟨t, c⟩ from rfl), LowerM.run_bind walked,
    StmtTree.ids, List.forM_eq_forM, List.forM_map]
  exact entered

theorem run_inferOperations {body : List (StmtTree NodeId)} (placed : Placed t body) (c : Context) :
    Pass.inferOperations.run ⟨t, c⟩ = .ok () ⟨t, c.enterAll (body.flatMap StmtTree.cells)⟩ := by
  have entered := LowerM.run_forM (fun s : StmtTree NodeId => Pass.inferRoot s.label)
    (fun c s => c.enterAll s.cells) body
    (fun s member c => run_inferRoot (Holds.flatMap_iff.1 placed.owned.held s member) c) c
  have joined : c.enterAll (body.flatMap StmtTree.cells) =
      body.foldl (fun c s => c.enterAll s.cells) c := by
    unfold Context.enterAll
    rw [List.foldl_flatMap]
  rw [joined, ← entered]
  show ((LowerM.tree >>= fun t => t.body.forM Pass.inferRoot) : LowerM Unit) ⟨t, c⟩ = _
  rw [LowerM.run_bind (show LowerM.tree ⟨t, c⟩ = .ok t ⟨t, c⟩ from rfl), ← placed.labels,
    List.forM_eq_forM, List.forM_map]
  rfl

theorem Context.enter_kept (c : Context) (node : Node NodeId) :
    (c.enter node).options = c.options ∧ (c.enter node).frames = c.frames ∧
      (c.enter node).tables = c.tables := by
  match node with
  | .stmt (.define ⟨name, params, body, operation⟩) => cases operation <;> exact ⟨rfl, rfl, rfl⟩
  | .stmt (.classDef ..) | .stmt (.importAs ..) | .stmt (.expr _) | .stmt (.assign ..)
  | .stmt (.scoped ..) | .stmt (.conditional ..) | .stmt (.wire ..) | .stmt .pass =>
    exact ⟨rfl, rfl, rfl⟩
  | .expr (.name _) | .expr (.int _) | .expr (.float _) | .expr (.bool _) | .expr (.str _)
  | .expr (.attribute ..) | .expr (.call ..) | .expr (.functor ..) | .expr (.aggregate _)
  | .expr (.list _) | .expr (.tuple _) | .expr (.compare ..) => exact ⟨rfl, rfl, rfl⟩

theorem Context.enterAll_kept (c : Context) (cells : List Cell) :
    (c.enterAll cells).options = c.options ∧ (c.enterAll cells).frames = c.frames ∧
      (c.enterAll cells).tables = c.tables := by
  induction cells generalizing c with
  | nil => exact ⟨rfl, rfl, rfl⟩
  | cons cell cells ih =>
    obtain ⟨options, frames, tables⟩ := ih (c.enter cell.2)
    obtain ⟨options', frames', tables'⟩ := c.enter_kept cell.2
    exact ⟨options.trans options', frames.trans frames', tables.trans tables'⟩

def Context.progress (c : Context) : Progress :=
  ⟨c.operations, c.stats, c.names, c.insideMethod, none⟩

/-- Where lowering a module starts. -/
def Progress.start (o : Options) (body : List (StmtTree NodeId)) : Progress :=
  ((Context.new o).enterAll (body.flatMap StmtTree.cells)).progress

theorem matches_start (o : Options) (body : List (StmtTree NodeId)) :
    Matches o ((Context.new o).enterAll (body.flatMap StmtTree.cells)) (.start o body) := by
  obtain ⟨options, frames, tables⟩ := (Context.new o).enterAll_kept (body.flatMap StmtTree.cells)
  exact ⟨options, rfl, rfl, rfl, rfl, frames, tables⟩

end Infer

section Boilerplate

variable {o : Options} {t : SyntaxTree} {c : Context} {body : List (StmtTree NodeId)}

def StmtTree.importsBoilerplate {α : Type} (o : Options) : StmtTree α → Bool
  | .importAs _ module name => module == o.boilerplateModule && name == o.boilerplateAlias
  | _ => false

@[simp]
theorem StmtTree.importsBoilerplate_erase {α : Type} (o : Options) (s : StmtTree α) :
    s.erase.importsBoilerplate o = s.importsBoilerplate o := by
  cases s <;> simp [StmtTree.importsBoilerplate]

def withImport (o : Options) (body : List StmtTerm) : List StmtTerm :=
  if body.any (StmtTree.importsBoilerplate o) then body
  else .importAs () o.boilerplateModule o.boilerplateAlias :: body

theorem Holds.importsBoilerplate_eq {s : StmtTree NodeId} (held : Holds t s.cells)
    (matched : c.options = o) :
    Pass.importsBoilerplate ⟨t, c⟩ s.label = s.importsBoilerplate o := by
  have found : t.stmt s.label = .ok s.stmt := by
    simp [SyntaxTree.stmt, held.stmt_node]
  unfold Pass.importsBoilerplate
  rw [found, matched]
  cases s <;> rfl

theorem Placed.setBody {t : SyntaxTree} {ids : List NodeId}
    (owned : Owns t (body.flatMap StmtTree.cells)) (labels : body.map StmtTree.label = ids) :
    Placed ⟨t.nodes, ids⟩ body :=
  ⟨labels, owned.held, owned.once⟩

def Pass.step (pass : Pass) : LowerM Unit := do if pass.shouldRun (← get) then pass.run

theorem Pass.step_eq {pass : Pass} (always : ∀ s, pass.shouldRun s = true) : pass.step = pass.run := by
  funext s
  show (if pass.shouldRun s then pass.run else Pure.pure ()) s = _
  rw [always]
  rfl

theorem run_injectBoilerplate (placed : Placed t body) (options : c.options = o) :
    ∃ t₁ body₁, Pass.injectBoilerplate.step ⟨t, c⟩ = .ok () ⟨t₁, c⟩ ∧ Placed t₁ body₁ ∧
      body₁.map StmtTree.erase = withImport o (body.map StmtTree.erase) := by
  have imported : t.body.any (Pass.importsBoilerplate ⟨t, c⟩) =
      (body.map StmtTree.erase).any (StmtTree.importsBoilerplate o) := by
    rw [← placed.labels, List.any_map, List.any_map, Bool.eq_iff_iff, List.any_eq_true,
      List.any_eq_true]
    refine exists_congr fun s => and_congr_right fun member => ?_
    have held := Holds.flatMap_iff.1 placed.owned.held s member
    simp only [Function.comp_apply, StmtTree.importsBoilerplate_erase,
      held.importsBoilerplate_eq options]
  show ∃ t₁ body₁, (if Pass.injectBoilerplate.shouldRun ⟨t, c⟩ then Pass.injectBoilerplate.run
    else Pure.pure ()) ⟨t, c⟩ = _ ∧ _
  have should : Pass.injectBoilerplate.shouldRun ⟨t, c⟩ =
      !(body.map StmtTree.erase).any (StmtTree.importsBoilerplate o) := congrArg not imported
  rw [should, withImport]
  cases present : (body.map StmtTree.erase).any (StmtTree.importsBoilerplate o) with
  | true =>
    exact ⟨t, body, rfl, placed, by simp⟩
  | false =>
    have becomes := (Becomes.push t (.stmt (.importAs o.boilerplateModule
      o.boilerplateAlias))).beside placed.owned.held
    refine ⟨⟨_, t.size :: t.body⟩, .importAs t.size o.boilerplateModule o.boilerplateAlias :: body,
      ?_, Placed.setBody (becomes.owns placed.owned |>.perm ?_) ?_, by simp⟩
    · rw [← options]
      rfl
    · simp
    · simp [StmtTree.label, placed.labels]

end Boilerplate

section Body

variable {o : Options} {t : SyntaxTree} {c : Context} {p : Progress}
  {body : List (StmtTree NodeId)}

theorem lowerModule_runs (placed : Placed t body) (matched : Matches o c p)
    (closed : p.batch = none) :
    RunsM Pass.lowerModule.step t c (PlanM.lowerStmts o (body.map StmtTree.erase)) p
      fun r p₁ _ t₁ c₁ => ∃ stmts, Placed t₁ stmts ∧ stmts.map StmtTree.erase = r ∧
        Matches o c₁ p₁ ∧ p₁.batch = none := by
  have follows : Follows o (LowerM.lowerStatementWithin t.depthBound) body := by
    intro s inside t' c' p' matched' own
    have height := (Holds.flatMap_iff.1 placed.owned.held s inside).height_stmt
    exact lowerStatementWithin_runs s (Nat.le_succ_of_le height) matched' own
  rw [Pass.step_eq fun _ => rfl, Pass.lowerModule, RunsM.tree_bind, ← placed.labels]
  unfold PlanM.lowerStmts
  refine (lowerBlock_runs follows matched placed.owned).bind ?_
  rintro lowered p₁ _ t₁ c₁ ⟨new, ⟨stmts, erased, rfl, becomes⟩, tracks⟩
  obtain rfl := tracks.closed closed
  refine Runs.treeM (show TreeM.setBody _ _ = _ from rfl) ⟨stmts, Placed.setBody ?_ rfl, erased,
    tracks.matched matched, ?_⟩
  · simpa using becomes.owns placed.owned
  · rw [tracks.batch, closed]
    rfl

end Body

section Verify

variable {o : Options} {t : SyntaxTree} {c : Context} {p : Progress}
  {body : List (StmtTree NodeId)} {known : OperationTable}

theorem missingVariant?_eq_none {d : Definition NodeId} (settled : known.Settled d.name d.markers) :
    Pass.missingVariant? known d = none := by
  unfold Pass.missingVariant?
  rw [List.find?_eq_none]
  intro f _ missing
  simp only [Bool.and_eq_true, Bool.not_eq_eq_eq_not, Bool.not_true] at missing
  have resolves := settled f missing.1
  unfold OperationTable.Resolves at resolves
  rw [missing.2] at resolves
  cases resolves

def SettledCells (known : OperationTable) (cells : List Cell) : Prop :=
  ∀ id d, (id, Node.stmt (.define d)) ∈ cells → known.Settled d.name d.markers

theorem run_verifyNode {cell : Cell} {seen : List NodeId} (found : t.nodes[cell.1]? = some cell.2)
    (settled : SettledCells known [cell]) (unseen : cell.1 ∉ seen) (s : LoweringState) :
    Pass.verifyNode t known seen cell.1 s = .ok (cell.1 :: seen) s := by
  have looked : t.node cell.1 = .ok cell.2 := by simp [SyntaxTree.node, found]
  unfold Pass.verifyNode
  rw [if_neg unseen, looked]
  obtain ⟨id, node⟩ := cell
  cases node with
  | expr _ => rfl
  | stmt statement =>
    cases statement with
    | define d =>
      have complete := missingVariant?_eq_none (settled id d (by simp))
      simp only [Bind.bind, EStateM.bind, liftM, monadLift, MonadLift.monadLift, Pure.pure,
        EStateM.pure, complete]
    | _ => rfl

theorem run_verifyNodes {cells : List Cell} (seen : List NodeId) (held : Holds t cells)
    (settled : SettledCells known cells) (once : (cells.map Prod.fst).Nodup)
    (unseen : ∀ id ∈ cells.map Prod.fst, id ∉ seen) (s : LoweringState) :
    (cells.map Prod.fst).foldlM (Pass.verifyNode t known) seen s =
      .ok ((cells.map Prod.fst).reverse ++ seen) s := by
  induction cells generalizing seen with
  | nil => rfl
  | cons cell cells ih =>
    rw [List.map_cons, List.nodup_cons] at once
    have first := run_verifyNode (held cell (by simp)) (fun id d member => settled id d
      (by simp_all)) (unseen cell.1 (by simp)) s
    have rest := ih (cell.1 :: seen) (Holds.cons_iff.1 held).2
      (fun id d member => settled id d (by simp [member])) once.2 (by
        intro id member again
        rcases List.mem_cons.1 again with rfl | again
        · exact once.1 member
        · exact unseen id (by simp [member]) again)
    rw [List.map_cons, List.foldlM_cons, LowerM.run_bind first, rest]
    simp

theorem run_verifyRoots (seen : List NodeId) (held : Holds t (body.flatMap StmtTree.cells))
    (settled : SettledCells known (body.flatMap StmtTree.cells))
    (once : ((body.flatMap StmtTree.cells).map Prod.fst).Nodup)
    (unseen : ∀ id ∈ (body.flatMap StmtTree.cells).map Prod.fst, id ∉ seen) (s : LoweringState) :
    (body.map StmtTree.label).foldlM (Pass.verifyRoot t known) seen s =
      .ok (((body.flatMap StmtTree.cells).map Prod.fst).reverse ++ seen) s := by
  induction body generalizing seen with
  | nil => rfl
  | cons root body ih =>
    rw [List.flatMap_cons] at held settled once unseen
    rw [List.map_append] at once unseen
    obtain ⟨heldRoot, heldRest⟩ := Holds.append_iff.1 held
    have walked : (liftM (t.subtree root.label) : LowerM (List NodeId)) s = .ok root.ids s := by
      rw [heldRoot.subtree_stmt]
      rfl
    have first := run_verifyNodes seen heldRoot
      (show SettledCells known _ from fun id d member => settled id d (List.mem_append_left _ member)) once.of_append_left
      (fun id member => unseen id (List.mem_append_left _ member)) s
    have rest := ih ((root.cells.map Prod.fst).reverse ++ seen) heldRest
      (fun id d member => settled id d (List.mem_append_right _ member)) once.of_append_right (by
        intro id member again
        rcases List.mem_append.1 again with again | again
        · exact (List.nodup_append.1 once).2.2 id (List.mem_reverse.1 again) id member rfl
        · exact unseen id (List.mem_append_right _ member) again)
    rw [List.map_cons, List.foldlM_cons, Pass.verifyRoot, bind_assoc, LowerM.run_bind walked,
      StmtTree.ids, LowerM.run_bind first, rest]
    simp

theorem run_verifyOutcome (placed : Placed t body) (matched : Matches o c p)
    (closed : p.batch = none) (settles : p.operations.SettlesBlock (body.map StmtTree.erase)) :
    Pass.verifyOutcome.step ⟨t, c⟩ = .ok () ⟨t, c⟩ := by
  have stack := matched.stack
  rw [closed] at stack
  have balanced : ContextM.checkBalanced c = .ok () c := by
    unfold ContextM.checkBalanced
    simp [Bind.bind, EStateM.bind, ContextM.run_get, stack.1, stack.2,
      Pure.pure, EStateM.pure]
  have settled : SettledCells c.operations (body.flatMap StmtTree.cells) := by
    intro id d member
    obtain ⟨s, inside, member⟩ := List.mem_flatMap.1 member
    rw [matched.operations]
    refine settles (d.name, d.markers) (List.mem_flatMap.2 ⟨s.erase, List.mem_map_of_mem inside, ?_⟩)
    rw [StmtTree.defined_erase]
    exact StmtTree.mem_defined_of_mem_cells member
  have walked := run_verifyRoots [] placed.owned.held settled placed.owned.once (by simp) ⟨t, c⟩
  rw [placed.labels] at walked
  rw [Pass.step_eq fun _ => rfl]
  unfold Pass.verifyOutcome
  dsimp only
  rw [LowerM.run_bind (Runs.lift_contextM balanced),
    LowerM.run_bind (show LowerM.tree ⟨t, c⟩ = .ok t ⟨t, c⟩ from rfl),
    LowerM.run_bind (show LowerM.operations ⟨t, c⟩ = .ok c.operations ⟨t, c⟩ from rfl),
    LowerM.run_bind walked]
  rfl

end Verify

end QuantumLowering
