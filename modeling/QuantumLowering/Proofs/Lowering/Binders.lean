import QuantumLowering.Config.Check
import QuantumLowering.Proofs.Lowering.QuantumScopes

namespace QuantumLowering

variable {o : Options} {p p' p'' : Progress}

inductive Binder where
  | definition (name : String)
  | parameter (name : String)
  | classDef (name : String)
  | target (name : String)
  | scope (name : String)
  | importAs (module name : String)
deriving DecidableEq, Repr

def Binder.name : Binder → String
  | .definition name | .parameter name | .classDef name | .target name | .scope name => name
  | .importAs _ name => name

def Expr.isSequence {ι : Type} : Expr ι → Bool
  | .list _ | .tuple _ => true
  | _ => false

namespace ExprTree

variable {α : Type}

/-- The names that an assignment to the expression binds. An attribute binds none. -/
def targets : ExprTree α → List String
  | .node _ layer =>
    layer.name?.toList ++
      if layer.isSequence then (layer.children.attach.map fun part => targets part.1).flatten else []
termination_by e => sizeOf e
decreasing_by exact sizeOf_part part.2

theorem targets_node (label : α) (layer : Expr (ExprTree α)) :
    (node label layer).targets =
      layer.name?.toList ++ if layer.isSequence then layer.children.flatMap targets else [] := by
  rw [targets, List.attach_map_val (f := targets), ← List.flatMap_def]

theorem targets_nameTerm (x : String) : (nameTerm x).targets = [x] := by
  rw [nameTerm, targets_node]
  rfl

theorem targets_tuple (names : List String) :
    (node () (.tuple (names.map nameTerm))).targets = names := by
  rw [targets_node]
  change [] ++ (names.map nameTerm).flatMap targets = names
  rw [List.nil_append, List.flatMap_map]
  simp [targets_nameTerm]

end ExprTree

namespace StmtTree

variable {α : Type}

def ownBinders : StmtTree α → List Binder
  | .importAs _ module name => [.importAs module name]
  | .define _ d => .definition d.name :: d.params.map .parameter
  | .classDef _ name _ => [.classDef name]
  | .assign _ target _ => target.targets.map .target
  | .scoped _ _ binding _ => (binding.toList.flatMap ExprTree.targets).map .scope
  | _ => []

end StmtTree

/-- What is bound anywhere in a block. -/
def bindersIn {α : Type} (block : List (StmtTree α)) : List Binder :=
  (block.flatMap StmtTree.statements).flatMap StmtTree.ownBinders

section Blocks

variable {block block' rs : List StmtTerm} {b : Binder}

theorem bindersIn_append (block block' : List StmtTerm) :
    bindersIn (block ++ block') = bindersIn block ++ bindersIn block' := by
  simp [bindersIn]

theorem bindersIn_singleton (s : StmtTerm) : bindersIn [s] = s.ownBinders ++ bindersIn s.inner := by
  simp [bindersIn, s.statements_eq]

theorem bindersIn_cons (s : StmtTerm) (block : List StmtTerm) :
    bindersIn (s :: block) = s.ownBinders ++ bindersIn s.inner ++ bindersIn block := by
  rw [← List.singleton_append, bindersIn_append, bindersIn_singleton]

theorem mem_bindersIn_reverse : b ∈ bindersIn block.reverse ↔ b ∈ bindersIn block :=
  ((block.reverse_perm.flatMap_right _).flatMap_right _).mem_iff

theorem bindersIn_wirings (links : List Link) : bindersIn (wirings links) = [] := by
  induction links with
  | nil => rfl
  | cons l links ih =>
    rw [wirings, List.map_cons, bindersIn_cons]
    exact ih

theorem CallRule.ownBinders_of_keeps {rule : CallRule} {reversed : ExprTerm → Bool}
    {s r : StmtTerm} (kept : rule.Keeps reversed s r) : r.ownBinders = s.ownBinders := by
  rcases kept with rfl | ended
  · rfl
  · cases CallRule.rewritten ended <;> rfl

theorem flatMap_ownBinders_of_keeps {rule : CallRule} {reversed : ExprTerm → Bool}
    (kept : List.Forall₂ (rule.Keeps reversed) block rs) :
    rs.flatMap StmtTree.ownBinders = block.flatMap StmtTree.ownBinders := by
  induction kept with
  | nil => rfl
  | cons keeps _ ih =>
    rw [List.flatMap_cons, List.flatMap_cons, ih, CallRule.ownBinders_of_keeps keeps]

theorem mem_bindersIn_rewritten {rule : CallRule} {reversed : ExprTerm → Bool}
    (ended : block.mapM (rule.rewriteStmt reversed) = .ok rs) :
    b ∈ bindersIn rs ↔ b ∈ bindersIn block := by
  obtain ⟨inside, order, kept⟩ := CallRule.keepsInside_mapM ended fun s _ r ran =>
    CallRule.keepsInside_rewriteStmt ran
  rw [bindersIn, bindersIn, ← flatMap_ownBinders_of_keeps kept]
  exact (order.flatMap_right _).mem_iff.symm

theorem mem_bindersIn_controlled {table : OperationTable} {control : String}
    (ended : controlStmts table control block = .ok rs) : b ∈ bindersIn rs ↔ b ∈ bindersIn block :=
  mem_bindersIn_rewritten ended

end Blocks

section Forms

variable {d form : Definition StmtTerm} {b : Binder}

theorem mem_bindersIn_define : b ∈ bindersIn [.define () d] ↔
    b = .definition d.name ∨ (∃ x ∈ d.params, b = .parameter x) ∨ b ∈ bindersIn d.body := by
  rw [bindersIn_singleton, StmtTree.ownBinders, StmtTree.inner]
  simp only [List.mem_append, List.mem_cons, List.mem_map]
  grind

theorem mem_bindersIn_form {links : List Link} :
    b ∈ bindersIn (.define () form :: wirings links) ↔ b ∈ bindersIn [.define () form] := by
  rw [bindersIn_cons, bindersIn_wirings, List.append_nil, bindersIn_singleton]

theorem AdjointForm.binder (derived : AdjointForm o d form) (member : b ∈ bindersIn [.define () form]) :
    b ∈ bindersIn [.define () d] ∨ b.name = form.name := by
  rcases mem_bindersIn_define.1 member with rfl | ⟨x, listed, rfl⟩ | inside
  · exact .inr rfl
  · rw [derived.params] at listed
    exact .inl (mem_bindersIn_define.2 (.inr (.inl ⟨x, listed, rfl⟩)))
  · obtain ⟨table, ended⟩ := derived.body
    obtain ⟨copies, ran, same⟩ := Plan.bind_eq_ok.1 ended
    rw [← Except.ok.inj same] at inside
    have kept := (mem_bindersIn_rewritten ran).1 (mem_bindersIn_reverse.1 inside)
    exact .inl (mem_bindersIn_define.2 (.inr (.inr kept)))

theorem ControlledForm.binder {position : Nat} {control : String}
    (derived : ControlledForm position control d form) (member : b ∈ bindersIn [.define () form]) :
    b ∈ bindersIn [.define () d] ∨ b.name = form.name ∨ b.name = control := by
  rcases mem_bindersIn_define.1 member with rfl | ⟨x, listed, rfl⟩ | inside
  · exact .inr (.inl rfl)
  · rw [derived.params] at listed
    rcases List.eq_or_mem_of_mem_insertIdx listed with rfl | listed
    · exact .inr (.inr rfl)
    · exact .inl (mem_bindersIn_define.2 (.inr (.inl ⟨x, listed, rfl⟩)))
  · obtain ⟨table, ended⟩ := derived.body
    have kept := (mem_bindersIn_controlled ended).1 inside
    exact .inl (mem_bindersIn_define.2 (.inr (.inr kept)))

theorem Expansion.binder {position : Nat} {variants : List StmtTerm} {names : List (Purpose × String)}
    (expansion : Expansion o position d variants names) (member : b ∈ bindersIn variants) :
    b ∈ bindersIn [.define () d] ∨ b.name ∈ names.map Prod.snd := by
  cases expansion with
  | plain => cases member
  | adjoint marked derived =>
    rcases derived.binder (mem_bindersIn_form.1 member) with old | new
    · exact .inl old
    · exact .inr (by simp [new])
  | controlled marked derived =>
    rcases derived.binder (mem_bindersIn_form.1 member) with old | new | new
    · exact .inl old
    · exact .inr (by simp [new])
    · exact .inr (by simp [new])
  | both marked derived derived' derived'' =>
    rw [bindersIn_append, bindersIn_append, List.mem_append, List.mem_append, mem_bindersIn_form,
      mem_bindersIn_form, mem_bindersIn_form] at member
    rcases member with (member | member) | member
    · rcases derived.binder member with old | new
      · exact .inl old
      · exact .inr (by simp [new])
    · rcases derived'.binder member with old | new | new
      · exact .inl old
      · exact .inr (by simp [new])
      · exact .inr (by simp [new])
    · rcases derived''.binder member with member | new
      · rcases derived'.binder member with old | new | new
        · exact .inl old
        · exact .inr (by simp [new])
        · exact .inr (by simp [new])
      · exact .inr (by simp [new])

end Forms

/-- The name is taken between the two supplies. -/
def NameSupply.Gains (s s' : NameSupply) (x : String) : Prop := x ∉ s.taken ∧ x ∈ s'.taken

namespace NameSupply.Gains

variable {s s' s'' : NameSupply} {x : String}

theorem before (earlier : s.taken ⊆ s'.taken) (gains : s'.Gains s'' x) : s.Gains s'' x :=
  ⟨fun taken => gains.1 (earlier taken), gains.2⟩

theorem after (gains : s.Gains s' x) (later : s'.taken ⊆ s''.taken) : s.Gains s'' x :=
  ⟨gains.1, later gains.2⟩

end NameSupply.Gains

theorem hoist_takes (e : ExprTerm) : Yields (PlanM.hoist o e) p fun _ p' => ∃ new, Takes p p' new :=
  (hoist_recovers e (List.Subset.refl _)).mono fun _ _ ⟨new, takes, _⟩ => ⟨new, takes⟩

theorem Lowers.takes {body rs : List StmtTerm} (lowers : Lowers o p body rs p') :
    ∃ new, Takes p p' new := by
  induction lowers with
  | nil p | importAs p | wire p | pass p => exact ⟨[], .refl p⟩
  | append _ _ ih ih' =>
    obtain ⟨new, takes⟩ := ih
    obtain ⟨new', takes'⟩ := ih'
    exact ⟨_, takes.trans takes'⟩
  | standing index _ ih =>
    obtain ⟨new, takes⟩ := ih
    exact ⟨new, (Takes.standing index).none_then takes⟩
  | expr search => exact hoist_takes _ _ _ search
  | assign _ search => exact hoist_takes _ _ _ search
  | @define p q _ _ _ _ _ emits ih =>
    obtain ⟨new, takes⟩ := ih
    have inner : Takes p { q with batch := p.batch, insideMethod := p.insideMethod } [] :=
      .of_grows takes.taken rfl
    exact ⟨[], inner.trans (quiet.emitVariants o _ _ _ _ emits)⟩
  | classDef _ _ ih =>
    obtain ⟨new, takes⟩ := ih
    exact ⟨new, takes.batch, takes.closed, takes.taken, takes.once, takes.fresh, takes.reserved⟩
  | @allocation p p₁ p₂ _ _ _ _ _ _ _ _ search _ emits ih =>
    obtain ⟨new, takes⟩ := hoist_takes _ _ _ search
    obtain ⟨new', takes'⟩ := ih
    have inner : Takes p₁ { p₂ with batch := p₁.batch } [] := .of_grows takes'.taken rfl
    exact ⟨new, takes.then_none (inner.trans (emitBatch_cases _ _ _ _ emits).1)⟩
  | «scope» _ _ search _ ih =>
    obtain ⟨new, takes⟩ := hoist_takes _ _ _ search
    obtain ⟨new', takes'⟩ := ih
    exact ⟨_, takes.trans takes'⟩
  | classical _ search _ _ ih ih' =>
    obtain ⟨new, takes⟩ := hoist_takes _ _ _ search
    obtain ⟨new', takes'⟩ := ih
    obtain ⟨new'', takes''⟩ := ih'
    exact ⟨_, takes.trans (takes'.trans takes'')⟩
  | quantum _ _ _ emits ih ih' =>
    obtain ⟨new, takes⟩ := ih
    obtain ⟨new', takes'⟩ := ih'
    exact ⟨_, takes.trans (takes'.then_none (quiet.lowerConditional o _ _ _ _ _ _ emits))⟩

theorem mem_bindersIn_batchOf {entries : List (Hoisted Unit)} {proxies : List String} {b : Binder}
    (member : b ∈ bindersIn (batchOf o entries proxies)) :
    b.name ∈ proxies ∨ ∃ h ∈ entries, b.name = h.placeholder := by
  obtain ⟨s, listed, bound⟩ := List.mem_flatMap.1 member
  obtain ⟨s', listed, inside⟩ := List.mem_flatMap.1 listed
  rcases List.mem_append.1 listed with listed | listed
  · obtain ⟨pair, zipped, rfl⟩ := List.mem_map.1 listed
    obtain rfl : s = proxyAssign pair := by
      simpa [StmtTree.statements_eq, proxyAssign, StmtTree.inner] using inside
    rw [proxyAssign, StmtTree.ownBinders, ExprTree.targets_nameTerm, List.map_singleton,
      List.mem_singleton] at bound
    rw [bound]
    exact .inl (List.of_mem_zip zipped).2
  · rw [List.mem_singleton.1 listed] at inside
    obtain rfl : s = PlanM.execution o proxies (entries.map Hoisted.placeholder) := by
      simpa [StmtTree.statements_eq, PlanM.execution, StmtTree.inner] using inside
    rw [PlanM.execution, StmtTree.ownBinders, ExprTree.targets_tuple] at bound
    obtain ⟨x, placeholder, rfl⟩ := List.mem_map.1 bound
    obtain ⟨h, entry, rfl⟩ := List.mem_map.1 placeholder
    exact .inr ⟨h, entry, rfl⟩

/-- What the first block binds, the second binds too, and else only names that are taken between. -/
structure Binds (names : NameSupply) (body rs : List StmtTerm) (names' : NameSupply) : Prop where
  kept : bindersIn body ⊆ bindersIn rs
  known : ∀ b ∈ bindersIn rs, b ∈ bindersIn body ∨ names.Gains names' b.name

namespace Binds

variable {names names' names'' : NameSupply} {body body' rs rs' : List StmtTerm}

theorem append (first : Binds names body rs names') (second : Binds names' body' rs' names'')
    (earlier : names.taken ⊆ names'.taken) (later : names'.taken ⊆ names''.taken) :
    Binds names (body ++ body') (rs ++ rs') names'' where
  kept := by
    rw [bindersIn_append, bindersIn_append]
    exact List.append_subset.2 ⟨List.subset_append_of_subset_left _ first.kept,
      List.subset_append_of_subset_right _ second.kept⟩
  known := by
    intro b member
    rw [bindersIn_append, List.mem_append] at member ⊢
    rcases member with member | member
    · rcases first.known b member with old | new
      · exact .inl (.inl old)
      · exact .inr (new.after later)
    · rcases second.known b member with old | new
      · exact .inl (.inr old)
      · exact .inr (new.before earlier)

theorem widen {early late : NameSupply} (binds : Binds names body rs names')
    (earlier : early.taken ⊆ names.taken) (later : names'.taken ⊆ late.taken) :
    Binds early body rs late where
  kept := binds.kept
  known := fun b member =>
    (binds.known b member).imp_right fun new => (new.before earlier).after later

theorem statement {s r : StmtTerm} (own : r.ownBinders = s.ownBinders)
    (inner : Binds names s.inner r.inner names') : Binds names [s] [r] names' where
  kept := by
    rw [bindersIn_singleton, bindersIn_singleton, own]
    exact List.append_subset.2 ⟨List.subset_append_left _ _,
      List.subset_append_of_subset_right _ inner.kept⟩
  known := by
    intro b member
    rw [bindersIn_singleton, List.mem_append] at member ⊢
    rw [own] at member
    rcases member with member | member
    · exact .inl (.inl member)
    · exact (inner.known b member).imp_left .inr

theorem nil (names names' : NameSupply) : Binds names [] [] names' where
  kept := List.nil_subset _
  known := fun _ none => by cases none

theorem more {extra : List StmtTerm} (binds : Binds names body rs names')
    (earlier : names.taken ⊆ names'.taken) (later : names'.taken ⊆ names''.taken)
    (added : ∀ b ∈ bindersIn extra, b ∈ bindersIn rs ∨ names'.Gains names'' b.name) :
    Binds names body (rs ++ extra) names'' where
  kept := by
    rw [bindersIn_append]
    exact List.subset_append_of_subset_left _ binds.kept
  known := by
    have before : ∀ b ∈ bindersIn rs, b ∈ bindersIn body ∨ names.Gains names'' b.name := fun b member =>
      (binds.known b member).imp_right fun new => new.after later
    intro b member
    rw [bindersIn_append, List.mem_append] at member
    rcases member with member | member
    · exact before b member
    · rcases added b member with old | new
      · exact before b old
      · exact .inr (new.before earlier)

end Binds

theorem emitBatch_binds {body rs stmts : List StmtTerm} {entries : List (Hoisted Unit)}
    (binds : Binds p.names body rs p'.names) (earlier : p.names.taken ⊆ p'.names.taken)
    (waiting : ∀ h ∈ entries, p.names.Gains p'.names h.placeholder)
    (emits : PlanM.emitBatch o entries rs p' = .ok (stmts, p'')) :
    Binds p.names body stmts p''.names := by
  obtain ⟨takes, ⟨-, -, rfl⟩ | ⟨position, proxies, -, -, issues, rfl⟩⟩ := emitBatch_cases _ _ _ _ emits
  · exact binds.widen (List.Subset.refl _) takes.taken
  have spread : ∀ b, b ∈ bindersIn (rs.take position ++ batchOf o entries proxies ++ rs.drop position) ↔
      b ∈ bindersIn rs ∨ b ∈ bindersIn (batchOf o entries proxies) := by
    intro b
    conv_rhs => rw [← List.take_append_drop position rs]
    simp only [bindersIn_append, List.mem_append]
    grind
  refine ⟨fun b member => (spread b).2 (.inl (binds.kept member)), fun b member => ?_⟩
  rcases (spread b).1 member with member | member
  · exact (binds.known b member).imp_right fun gains => gains.after takes.taken
  · rcases mem_bindersIn_batchOf member with proxy | ⟨h, entry, same⟩
    · exact .inr (NameSupply.Gains.before earlier
        ⟨issues.not_mem proxy, issues.mem_taken.2 (.inl proxy)⟩)
    · rw [same]
      exact .inr ((waiting h entry).after takes.taken)

/-- Lowering a block keeps what it binds, and binds else only names that are handed out on the way. -/
theorem Lowers.binds {body rs : List StmtTerm} (lowers : Lowers o p body rs p') :
    Binds p.names body rs p'.names := by
  have taken : ∀ {e r : ExprTerm} {p p' : Progress}, PlanM.hoist o e p = .ok (r, p') →
      p.names.taken ⊆ p'.names.taken :=
    fun ran => (Growing.batches.hoist o _ _ _ _ ran).names.subset
  induction lowers with
  | nil p => exact .nil _ _
  | append first second ih ih' =>
    exact ih.append ih' first.grows.names.subset second.grows.names.subset
  | standing index _ ih => exact ih
  | importAs p | wire p | pass p => exact .statement rfl (.nil _ _)
  | expr | assign => exact .statement rfl (.nil _ _)
  | @define p q p' d rs variants within emits ih =>
    have grows := (Growing.links.emitVariants o _ _ _ _ emits).names.subset
    obtain ⟨names, expansion, issues⟩ := emitVariants_expands _ _ _ emits
    have form : Binds p.names [.define () d] [.define () { d with body := rs }] q.names := .statement rfl ih
    refine form.more within.grows.names.subset grows fun b member => ?_
    rcases expansion.binder member with old | new
    · exact .inl old
    · exact .inr ⟨issues.not_mem new, issues.mem_taken.2 (.inl new)⟩
  | classDef name _ ih => exact .statement rfl ih
  | @allocation p p₁ p₂ p' context r binding body rs stmts _ search within emits ih =>
    -- the block was opened without entries, so all that wait were found in its body
    obtain ⟨new, takes⟩ := within.takes
    have entries : p₂.batch.elim [] Batch.hoisted = new := by
      have batch := takes.batch
      cases open_ : p₂.batch <;> simp_all
    have waiting : ∀ h ∈ p₂.batch.elim [] Batch.hoisted, p₁.names.Gains p₂.names h.placeholder := by
      rw [entries]
      exact fun h member => ⟨takes.fresh h member, takes.reserved h member⟩
    have inner : Binds p₁.names body rs ({ p₂ with batch := p₁.batch } : Progress).names := ih
    have emitted : Binds p₁.names body stmts p'.names :=
      emitBatch_binds inner within.grows.names.subset waiting emits
    exact .statement rfl (emitted.widen (taken search) (List.Subset.refl _))
  | «scope» _ _ search _ ih =>
    exact .statement rfl (ih.widen (taken search) (List.Subset.refl _))
  | classical _ search first second ih ih' =>
    have both := ih.append ih' first.grows.names.subset second.grows.names.subset
    exact .statement rfl (both.widen (taken search) (List.Subset.refl _))
  | @quantum p p₁ p₂ p' test body orelse rs rs' scope marked first second emits ih ih' =>
    obtain ⟨none, left, right, control, table, controlled, rfl, ended, rfl, issues⟩ :=
      lowerConditional_scope marked _ _ emits
    have both := ih.append ih' first.grows.names.subset second.grows.names.subset
    -- the control is the only binder that was not there before it
    have own : (controlScope o left right control controlled).ownBinders = [.scope control] := by
      rw [controlScope, StmtTree.ownBinders, Option.toList_some, List.flatMap_singleton,
        ExprTree.targets_nameTerm, List.map_singleton]
    have spread : ∀ b, b ∈ bindersIn [controlScope o left right control controlled] ↔
        b = .scope control ∨ b ∈ bindersIn (rs ++ rs') := by
      intro b
      rw [bindersIn_singleton, own, List.singleton_append, List.mem_cons, none, List.append_nil]
      exact or_congr_right (mem_bindersIn_controlled ended)
    refine ⟨fun b member => ?_, fun b member => ?_⟩
    · rw [bindersIn_singleton] at member
      exact (spread b).2 (.inr (both.kept member))
    · rw [bindersIn_singleton]
      rcases (spread b).1 member with rfl | member
      · have earlier := List.Subset.trans first.grows.names.subset second.grows.names.subset
        have fresh := issues.not_mem List.mem_cons_self
        have taken := issues.mem_taken.2 (.inl List.mem_cons_self)
        exact .inr (NameSupply.Gains.before earlier ⟨fresh, taken⟩)
      · exact (both.known b member).imp_right fun new =>
          new.after fun x earlier => issues.mem_taken.2 (.inr earlier)

def boilerplateImport (o : Options) : Binder := .importAs o.boilerplateModule o.boilerplateAlias

/-- Nothing but the boilerplate import gives the boilerplate name a meaning. -/
def Uncaptured (o : Options) (block : List StmtTerm) : Prop :=
  ∀ b ∈ bindersIn block, b.name = o.boilerplateAlias → b = boilerplateImport o

theorem boilerplateImport_mem {input rest : List StmtTerm} (kept : bindersIn input ⊆ bindersIn rest) :
    boilerplateImport o ∈ bindersIn (injectedImport o true input ++ rest) := by
  rw [bindersIn_append, List.mem_append, injectedImport]
  cases imported : input.any (StmtTree.importsBoilerplate o) with
  | false => exact .inl (by simp [bindersIn, StmtTree.statements_eq, StmtTree.ownBinders,
      StmtTree.inner, boilerplateImport])
  | true =>
    obtain ⟨s, member, same⟩ := List.any_eq_true.1 imported
    refine .inr (kept (List.mem_flatMap.2 ⟨s, List.mem_flatMap.2 ⟨s, member, ?_⟩, ?_⟩))
    · rw [s.statements_eq]
      exact List.mem_cons_self
    · cases s <;> simp_all [StmtTree.importsBoilerplate, StmtTree.ownBinders, boilerplateImport]

/-- A lowered module with the boilerplate binds what the module binds, the boilerplate import, and else
only names that the run generates. So the boilerplate name, where it is none of these, is captured
exactly if the module itself binds it. -/
theorem lower_binders {t : SyntaxTree} {input : List StmtTerm} {lowered : Lowered}
    (kinded : t.WellKinded) (valid : t.validate = .ok ()) (reads : t.Reads t.body input)
    {verification : Bool} (ended : t.lower o (.build true verification) = .ok lowered) :
    ∃ output, lowered.tree.Reads lowered.tree.body output ∧
      bindersIn input ⊆ bindersIn output ∧ boilerplateImport o ∈ bindersIn output ∧
      (∀ b ∈ bindersIn output, b ∈ bindersIn input ∨ b = boilerplateImport o ∨
        t.Generates o true verification b.name) ∧
      (¬ t.Generates o true verification o.boilerplateAlias →
        (Uncaptured o output ↔ Uncaptured o input)) := by
  obtain ⟨body, rest, p, placed, rfl, lowers, read, -, names⟩ := exists_lowers kinded valid reads ended
  have binds := lowers.binds
  have kept : bindersIn (body.map StmtTree.erase) ⊆
      bindersIn (injectedImport o true (body.map StmtTree.erase) ++ rest) := by
    rw [bindersIn_append]
    exact List.subset_append_of_subset_right _ binds.kept
  have known : ∀ b ∈ bindersIn (injectedImport o true (body.map StmtTree.erase) ++ rest),
      b ∈ bindersIn (body.map StmtTree.erase) ∨ b = boilerplateImport o ∨
        t.Generates o true verification b.name := by
    intro b member
    rw [bindersIn_append, List.mem_append] at member
    rcases member with member | member
    · obtain ⟨s, listed, bound⟩ := List.mem_flatMap.1 member
      obtain ⟨s', listed, inside⟩ := List.mem_flatMap.1 listed
      rw [eq_of_mem_injectedImport listed, StmtTree.statements_eq] at inside
      rw [List.mem_singleton.1 inside] at bound
      exact .inr (.inl (List.mem_singleton.1 bound))
    · rcases binds.known b member with old | new
      · exact .inl old
      · exact .inr (.inr ⟨names ▸ new.2, fun uses =>
          new.1 (identifiers_subset_start o body (placed.mem_identifiers uses))⟩)
  refine ⟨_, read, kept, boilerplateImport_mem binds.kept, known, fun other =>
    ⟨fun free b member => free b (kept member), fun free b member same => ?_⟩⟩
  rcases known b member with old | injected | generated
  · exact free b old same
  · exact injected
  · exact absurd (same ▸ generated) other

theorem lower_binders_measuring :
    ¬ measuringModule.Generates .default true true "bp" ∧
      ∃ lowered, measuringModule.lower .default .standard = .ok lowered ∧
        ∃ output, lowered.tree.Reads lowered.tree.body output ∧ .target "x" ∈ bindersIn output ∧
          .importAs "quoll.boilerplate" "bp" ∈ bindersIn output ∧ Uncaptured .default output := by
  have placed := measuringModule_placed
  have other : ¬ measuringModule.Generates .default true true "bp" := by
    intro generated
    have unused : "bp" ∉ (LowerM.final (Pipeline.build true true).run
        ⟨measuringModule, .new .default⟩).context.names.taken := by
      decide +kernel
    exact unused generated.1
  have binders : bindersIn ([measuringBlock].map StmtTree.erase) = [.scope "q", .target "x"] := by
    simp [measuringBlock, bindersIn, StmtTree.statements_eq, StmtTree.inner, StmtTree.ownBinders,
      ExprTree.targets_node, Expr.map, Expr.name?, Expr.isSequence]
  have free : Uncaptured .default ([measuringBlock].map StmtTree.erase) := by
    intro b member same
    rw [binders, List.mem_pair] at member
    rcases member with rfl | rfl
    · exact absurd same (by decide)
    · exact absurd same (by decide)
  have succeeds : (measuringModule.lower .default .standard).toOption.any fun _ => true := by
    decide +kernel
  obtain ⟨lowered, ended, -⟩ := exists_lowered succeeds
  obtain ⟨output, read, kept, imported, -, captured⟩ :=
    lower_binders placed.wellKinded placed.validate ⟨_, placed.labels, rfl, placed.owned.held⟩
      (show _ = _ from ended)
  rw [binders] at kept
  exact ⟨other, lowered, ended, output, read, kept (by simp), imported, (captured other).2 free⟩

def shadowingBody : List (StmtTree NodeId) :=
  [.assign 2 (.node 0 (.name "bp")) (.node 1 (.int 0)),
    .scoped 12 (.node 5 (.call (.node 3 (.name "allocate")) [.node 4 (.int 1)] []))
      (some (.node 6 (.name "q")))
      [.assign 11 (.node 7 (.name "x"))
        (.node 10 (.call (.node 8 (.name "measure")) [.node 9 (.name "q")] []))]]

def shadowingModule : SyntaxTree :=
  ⟨#[.expr (.name "bp"), .expr (.int 0), .stmt (.assign 0 1), .expr (.name "allocate"),
    .expr (.int 1), .expr (.call 3 [4] []), .expr (.name "q"), .expr (.name "x"),
    .expr (.name "measure"), .expr (.name "q"), .expr (.call 8 [9] []), .stmt (.assign 7 10),
    .stmt (.scoped 5 (some 6) [11])], [2, 12]⟩

theorem shadowingModule_placed : Placed shadowingModule shadowingBody := by
  refine ⟨rfl, ?_, ?_⟩
  · simp [shadowingModule, shadowingBody, Expr.map, Expr.children, Holds, StmtTree.label]
  · simp [shadowingBody, Expr.map, Expr.children, StmtTree.label]

def shadowedBody : List (StmtTree NodeId) :=
  [.importAs 13 "quoll.boilerplate" "bp", .assign 2 (.node 0 (.name "bp")) (.node 1 (.int 0)),
    .scoped 12 (.node 5 (.call (.node 3 (.name "allocate")) [.node 4 (.int 1)] []))
      (some (.node 6 (.name "q")))
      [.assign 16 (.node 15 (.name "_mp1"))
        (.node 14 (.call (.node 8 (.name "measure")) [.node 9 (.name "q")] [])),
      .assign 23 (.node 22 (.tuple [.node 21 (.name "_m1")]))
        (.node 20 (.call (.node 18 (.attribute (.node 17 (.name "bp")) "execute"))
          [.node 19 (.name "_mp1")] [])),
      .assign 11 (.node 7 (.name "x")) (.node 10 (.name "_m1"))]]

def shadowedModule : SyntaxTree :=
  ⟨#[.expr (.name "bp"), .expr (.int 0), .stmt (.assign 0 1), .expr (.name "allocate"),
    .expr (.int 1), .expr (.call 3 [4] []), .expr (.name "q"), .expr (.name "x"),
    .expr (.name "measure"), .expr (.name "q"), .expr (.name "_m1"), .stmt (.assign 7 10),
    .stmt (.scoped 5 (some 6) [16, 23, 11]), .stmt (.importAs "quoll.boilerplate" "bp"),
    .expr (.call 8 [9] []), .expr (.name "_mp1"), .stmt (.assign 15 14), .expr (.name "bp"),
    .expr (.attribute 17 "execute"), .expr (.name "_mp1"), .expr (.call 18 [19] []),
    .expr (.name "_m1"), .expr (.tuple [21]), .stmt (.assign 22 20)], [13, 2, 12]⟩

theorem shadowedModule_reads :
    shadowedModule.Reads shadowedModule.body (shadowedBody.map StmtTree.erase) := by
  refine ⟨shadowedBody, rfl, rfl, ?_⟩
  simp [shadowedModule, shadowedBody, Expr.map, Expr.children, Holds, StmtTree.label]

/-- Nothing is done about a module that assigns to the boilerplate name: the batch then calls the value
that was assigned. -/
theorem lower_binders_shadowed :
    Options.default.Usable ∧ shadowingModule.WellKinded ∧ shadowingModule.validate = .ok () ∧
      ∃ lowered output, shadowingModule.lower .default .standard = .ok lowered ∧
        lowered.tree.Reads lowered.tree.body output ∧
        PlanM.execution .default ["_mp1"] ["_m1"] ∈ output.flatMap StmtTree.statements ∧
        .target "bp" ∈ bindersIn output ∧ ¬ Uncaptured .default output := by
  have placed := shadowingModule_placed
  have usable : Options.default.Usable := (Options.check_eq_ok_iff _).1 (by decide +kernel)
  have succeeds : (shadowingModule.lower .default .standard).toOption.any fun lowered =>
      lowered.tree = shadowedModule := by
    decide +kernel
  obtain ⟨lowered, ended, same⟩ := exists_lowered succeeds
  have tree : lowered.tree = shadowedModule := of_decide_eq_true same
  have bound : .target "bp" ∈ bindersIn (shadowedBody.map StmtTree.erase) := by
    simp [shadowedBody, bindersIn, StmtTree.statements_eq, StmtTree.inner, StmtTree.ownBinders,
      ExprTree.targets_node, Expr.map, Expr.name?, Expr.isSequence]
  refine ⟨usable, placed.wellKinded, placed.validate, lowered, shadowedBody.map StmtTree.erase, ended,
    tree ▸ shadowedModule_reads, ?_, bound, fun uncaptured => ?_⟩
  · simp [shadowedBody, PlanM.execution, nameTerm, StmtTree.statements_eq, StmtTree.inner, Expr.map]
    exact ⟨rfl, rfl⟩
  · cases uncaptured _ bound rfl

end QuantumLowering
