import QuantumLowering.Proofs.Lowering.Pipeline

namespace QuantumLowering

/-- What lowering learns on its way: the operations and the names in use. -/
structure Knowledge where
  operations : OperationTable
  taken : List String

def Progress.knowledge (p : Progress) : Knowledge := ⟨p.operations, p.names.taken⟩

structure Knowledge.TakesNames (k k' : Knowledge) : Prop where
  operations : k'.operations = k.operations
  taken : k.taken ⊆ k'.taken

namespace Knowledge.TakesNames

variable {k k' k'' : Knowledge}

theorem refl (k : Knowledge) : k.TakesNames k := ⟨rfl, List.Subset.refl _⟩

theorem trans (first : k.TakesNames k') (second : k'.TakesNames k'') : k.TakesNames k'' :=
  ⟨second.operations.trans first.operations, List.Subset.trans first.taken second.taken⟩

end Knowledge.TakesNames

theorem onlyNames : SteadyBatches fun p p' => p.knowledge.TakesNames p'.knowledge where
  refl _ := .refl _
  trans := Knowledge.TakesNames.trans
  fresh _ _ := ⟨rfl, List.subset_cons_self _ _⟩
  stats _ _ := .refl _
  batch _ _ := .refl _

theorem emitProxies_assigns {o : Options} {p : Progress} (ordinal : Nat)
    (entries : List (Hoisted Unit)) : Yields (PlanM.emitProxies o ordinal entries) p
      fun emitted _ => ∀ s ∈ emitted.map Prod.fst, ∃ target value, s = .assign () target value := by
  induction entries generalizing ordinal p with
  | nil => exact .pure (by simp)
  | cons entry entries ih =>
    refine .bind .any fun proxy p₁ _ => (ih (ordinal + 1)).bind fun emitted p₂ assigns => .pure ?_
    intro s member
    rw [List.map_cons, List.mem_cons] at member
    rcases member with rfl | member
    · exact ⟨_, _, rfl⟩
    · exact assigns s member

theorem emitBatch_inserts {o : Options} {p : Progress} (entries : List (Hoisted Unit))
    (body : List StmtTerm) : Yields (PlanM.emitBatch o entries body) p fun stmts _ =>
      ∃ front batch back, body = front ++ back ∧ stmts = front ++ batch ++ back ∧
        ∀ s ∈ batch, ∃ target value, s = StmtTree.assign () target value := by
  unfold PlanM.emitBatch
  cases (entries.map Hoisted.index).min? with
  | none => exact .pure ⟨body, [], [], by simp, by simp, by simp⟩
  | some position =>
    refine (emitProxies_assigns 1 entries).bind fun emitted p₁ assigns => .bind .any fun _ _ _ => ?_
    refine .pure ⟨body.take position, emitted.map Prod.fst ++ [PlanM.execution o
      (emitted.map Prod.snd) (entries.map Hoisted.placeholder)], body.drop position, ?_, ?_, ?_⟩
    · rw [List.take_append_drop]
    · simp
    · intro s member
      rcases List.mem_append.1 member with member | member
      · exact assigns s member
      · rw [List.mem_singleton.1 member]
        exact ⟨_, _, rfl⟩

theorem lowerConditional_controls {o : Options} {p : Progress} (test : ExprTerm)
    (body orelse : List StmtTerm) : Yields (PlanM.lowerConditional o test body orelse) p fun s _ =>
      orelse = [] ∧ ∃ lines value control rs, PlanM.comparisonOperands o test = .ok (lines, value) ∧
        controlStmts p.operations control body = .ok rs ∧
        s = .scoped () (PlanM.scopeCall o lines value) (some (nameTerm control)) rs := by
  unfold PlanM.lowerConditional
  split
  · rename_i empty
    refine .lift_bind fun ⟨lines, value⟩ read => (onlyNames.freshName _ p).bind fun control p₁ names => ?_
    rw [Yields.get_bind]
    refine .lift_bind fun rs ended => .bind .any fun _ _ _ => .pure ?_
    have same : p₁.operations = p.operations := names.operations
    rw [same] at ended
    exact ⟨List.isEmpty_iff.1 empty, lines, value, control, rs, read, ended, rfl⟩
  · exact .throw

inductive Leaf : StmtTerm → StmtTerm → Prop where
  | importAs (module name : String) : Leaf (.importAs () module name) (.importAs () module name)
  | expr (value value' : ExprTerm) : Leaf (.expr () value) (.expr () value')
  | assign (target value value' : ExprTerm) : Leaf (.assign () target value) (.assign () target value')
  | wire (functor : GateFunctor) (operation variant : String) :
    Leaf (.wire () functor operation variant) (.wire () functor operation variant)
  | pass : Leaf (.pass ()) (.pass ())

/-- The relation between a block, what is known before it, what it is lowered to, and what is known
afterwards is respected by every kind of statement. -/
structure Compositional (o : Options)
    (R : List StmtTerm → Knowledge → List StmtTerm → Knowledge → Prop) : Prop where
  nil (k : Knowledge) : R [] k [] k
  append {body body' rs rs' : List StmtTerm} {k k' k'' : Knowledge} :
    R body k rs k' → R body' k' rs' k'' → R (body ++ body') k (rs ++ rs') k''
  before {body rs : List StmtTerm} {k k' k'' : Knowledge} :
    k.TakesNames k' → R body k' rs k'' → R body k rs k''
  after {body rs : List StmtTerm} {k k' k'' : Knowledge} :
    R body k rs k' → k'.TakesNames k'' → R body k rs k''
  leaf {s r : StmtTerm} (k : Knowledge) : Leaf s r → R [s] k [r] k
  insert {body front batch back : List StmtTerm} {k k' : Knowledge} :
    R body k (front ++ back) k' → (∀ s ∈ batch, ∃ target value, s = .assign () target value) →
    R body k (front ++ batch ++ back) k'
  classDef {body rs : List StmtTerm} {k k' : Knowledge} (name : String) :
    R body k rs k' → R [.classDef () name body] k [.classDef () name rs] k'
  scope {body rs : List StmtTerm} {k k' : Knowledge} (context context' : ExprTerm)
    (binding : Option ExprTerm) :
    R body k rs k' → R [.scoped () context binding body] k [.scoped () context' binding rs] k'
  conditional {body orelse rs rs' : List StmtTerm} {k k' k'' : Knowledge} (test test' : ExprTerm) :
    R body k rs k' → R orelse k' rs' k'' →
    R [.conditional () test body orelse] k [.conditional () test' rs rs'] k''
  quantum {body orelse rs rs' : List StmtTerm} {k k' k'' : Knowledge} {control : String}
    (test context : ExprTerm) : R body k rs k' → R orelse k' [] k'' →
    controlStmts k''.operations control rs = .ok rs' →
    R [.conditional () test body orelse] k
      [.scoped () context (some (nameTerm control)) rs'] k''
  define {d : Definition StmtTerm} {rs variants : List StmtTerm} {k : Knowledge} {p p' : Progress} :
    R d.body k rs p.knowledge → PlanM.emitVariants o { d with body := rs } p = .ok (variants, p') →
    R [.define () d] k (.define () { d with body := rs } :: variants) p'.knowledge

namespace Compositional

variable {o : Options} {R : List StmtTerm → Knowledge → List StmtTerm → Knowledge → Prop}
  {p p' : Progress} {body rs : List StmtTerm}

theorem holds (inv : Compositional o R) (lowers : Lowers o p body rs p') :
    R body p.knowledge rs p'.knowledge := by
  induction lowers with
  | nil p => exact inv.nil _
  | append _ _ ih ih' => exact inv.append ih ih'
  | standing _ _ ih => exact ih
  | importAs _ module name => exact inv.leaf _ (.importAs module name)
  | wire _ f operation variant => exact inv.leaf _ (.wire f operation variant)
  | pass => exact inv.leaf _ .pass
  | expr search => exact inv.before (onlyNames.hoist o _ _ _ _ search) (inv.leaf _ (.expr _ _))
  | assign target search =>
    exact inv.before (onlyNames.hoist o _ _ _ _ search) (inv.leaf _ (.assign target _ _))
  | define _ emits ih =>
    refine inv.define ?_ emits
    exact ih
  | classDef name _ ih => exact inv.classDef name ih
  | allocation binding _ search _ emits ih =>
    have names := onlyNames.emitBatch o _ _ _ _ _ emits
    obtain ⟨front, batch, back, rfl, rfl, assigns⟩ := emitBatch_inserts _ _ _ _ emits
    have inserted := inv.insert (inv.after ih names) assigns
    exact inv.before (onlyNames.hoist o _ _ _ _ search) (inv.scope _ _ binding inserted)
  | «scope» binding _ search _ ih =>
    exact inv.before (onlyNames.hoist o _ _ _ _ search) (inv.scope _ _ binding ih)
  | classical _ search _ _ ih ih' =>
    exact inv.before (onlyNames.hoist o _ _ _ _ search) (inv.conditional _ _ ih ih')
  | quantum _ _ _ emits ih ih' =>
    have names := onlyNames.lowerConditional o _ _ _ _ _ _ emits
    obtain ⟨rfl, lines, value, control, stmts, -, controlled, rfl⟩ :=
      lowerConditional_controls _ _ _ _ _ emits
    exact inv.after (inv.quantum _ _ ih ih' controlled) names

theorem lowerModule (inv : Compositional o R) {t : SyntaxTree} {body : List (StmtTree NodeId)}
    (placed : Placed t body) {boilerplate verification : Bool} {lowered : Lowered}
    (ended : t.lower o (.build boilerplate verification) = .ok lowered) :
    ∃ output k, lowered.tree.Reads lowered.tree.body output ∧ lowered.operations = k.operations ∧
      R (preparedBody o boilerplate (body.map StmtTree.erase)) (Progress.start o body).knowledge
        output k := by
  obtain ⟨planned, ran, read, operations⟩ := exists_planned placed ended
  exact ⟨planned.1, planned.2.knowledge, read, operations, inv.holds (lowerStmts_lowers _ _ _ _ ran)⟩

end Compositional

end QuantumLowering
