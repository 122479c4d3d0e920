import QuantumLowering.Proofs.Lowering.Outcomes
import QuantumLowering.Proofs.Operation.Freshness
import QuantumLowering.Proofs.Syntax.Substitution

/-!
Undoing the batches of measurements. A batch is recognised by the new names it assigns to; without it,
and with every value of a measurement replaced by the measurement itself, a block is as it was.
-/

namespace QuantumLowering

namespace StmtTree

/-- The statement assigns to a name that is not among the known ones. -/
def emitted (known : List String) : StmtTerm → Bool
  | .assign _ target _ => target.names.any fun x => x ∉ known
  | _ => false

def proxy? : StmtTerm → Option (String × ExprTerm)
  | .assign _ target call => target.layer.name?.map fun proxy => (proxy, call)
  | _ => none

/-- The placeholders that an execution assigns to, each with the proxy at its position. -/
def executed : StmtTerm → List (String × String)
  | .assign _ target value =>
    match target.layer, value.layer with
    | .tuple placeholders, .call _ proxies _ =>
      (placeholders.flatMap ExprTree.names).zip (proxies.flatMap ExprTree.names)
    | _, _ => []
  | _ => []

/-- The measurement that a batch binds to the proxy of a placeholder. -/
def bindings (batch : List StmtTerm) : Substitution := fun placeholder => do
  let proxy ← (batch.flatMap executed).lookup placeholder
  (batch.filterMap proxy?).lookup proxy

/-- The statement without the batches in its blocks, and with the measurements where they came from. -/
def restore (known : List String) : StmtTerm → StmtTerm
  | .define _ ⟨name, params, body, operation⟩ =>
    .define () ⟨name, params, body.attach.map fun s => restore known s.1, operation⟩
  | .classDef _ name body => .classDef () name (body.attach.map fun s => restore known s.1)
  | .scoped _ context binding body =>
    .scoped () context binding ((body.attach.filter fun s => !s.1.emitted known).map fun s =>
      (restore known s.1).subst (bindings (body.filter (emitted known))))
  | .conditional _ test body orelse =>
    .conditional () test (body.attach.map fun s => restore known s.1)
      (orelse.attach.map fun s => restore known s.1)
  | s => s
termination_by s => sizeOf s
decreasing_by all_goals exact sizeOf_inner (by simp [inner, s.2])

section Restore

variable (known : List String)

@[simp]
theorem restore_define (d : Definition StmtTerm) : restore known (.define () d) =
    .define () ⟨d.name, d.params, d.body.map (restore known), d.operation⟩ := by
  cases d
  rw [restore, List.attach_map_val (f := restore known)]

@[simp]
theorem restore_classDef (name : String) (body : List StmtTerm) :
    restore known (.classDef () name body) = .classDef () name (body.map (restore known)) := by
  rw [restore, List.attach_map_val (f := restore known)]

@[simp]
theorem restore_conditional (test : ExprTerm) (body orelse : List StmtTerm) :
    restore known (.conditional () test body orelse) =
      .conditional () test (body.map (restore known)) (orelse.map (restore known)) := by
  rw [restore, List.attach_map_val (f := restore known), List.attach_map_val (f := restore known)]

theorem restore_scoped (context : ExprTerm) (binding : Option ExprTerm) (body : List StmtTerm) :
    restore known (.scoped () context binding body) =
      .scoped () context binding ((body.filter fun s => !s.emitted known).map fun s =>
        (restore known s).subst (bindings (body.filter (emitted known)))) := by
  have kept : (body.attach.filter fun s => !s.1.emitted known).map Subtype.val =
      body.filter fun s => !s.emitted known := by
    conv_rhs => rw [← body.attach_map_subtype_val, List.filter_map]
    rfl
  rw [restore, ← kept, List.map_map]
  rfl

theorem subst_bindings_nil (s : StmtTerm) : s.subst (bindings []) = s :=
  subst_eq_self fun _ _ => rfl

end Restore

end StmtTree

/-- The progress has the given measurements more, and their names were not taken before. -/
structure Takes (p p' : Progress) (new : List (Hoisted Unit)) : Prop where
  batch : p'.batch.map Batch.hoisted = p.batch.map fun b => b.hoisted ++ new
  closed : p.batch = none → new = []
  taken : p.names.taken ⊆ p'.names.taken
  once : (new.map Hoisted.placeholder).Nodup
  fresh : ∀ h ∈ new, h.placeholder ∉ p.names.taken
  reserved : ∀ h ∈ new, h.placeholder ∈ p'.names.taken

namespace Takes

variable {p p' p'' : Progress} {new later : List (Hoisted Unit)}

theorem of_grows (taken : p.names.taken ⊆ p'.names.taken) (batch : p'.batch = p.batch) :
    Takes p p' [] := by
  refine ⟨?_, fun _ => rfl, taken, by simp, by simp, by simp⟩
  rw [batch]
  simp

theorem refl (p : Progress) : Takes p p [] := of_grows (List.Subset.refl _) rfl

theorem trans (first : Takes p p' new) (second : Takes p' p'' later) :
    Takes p p'' (new ++ later) := by
  refine ⟨?_, ?_, List.Subset.trans first.taken second.taken, ?_, ?_, ?_⟩
  · have before := first.batch
    have after := second.batch
    cases open_ : p.batch with
    | none =>
      rw [open_, Option.map_none, Option.map_eq_none_iff] at before
      rw [before, Option.map_none] at after
      rw [after, Option.map_none]
    | some b =>
      rw [open_, Option.map_some, Option.map_eq_some_iff] at before
      obtain ⟨b', open', hoisted⟩ := before
      rw [open', Option.map_some, hoisted] at after
      rw [after, Option.map_some, List.append_assoc]
  · intro closed
    have before := first.batch
    rw [closed, Option.map_none, Option.map_eq_none_iff] at before
    rw [first.closed closed, second.closed before]
    rfl
  · rw [List.map_append, List.nodup_append]
    refine ⟨first.once, second.once, ?_⟩
    intro x member y member' same
    obtain ⟨h, listed, rfl⟩ := List.mem_map.1 member
    obtain ⟨h', listed', rfl⟩ := List.mem_map.1 member'
    exact second.fresh h' listed' (same ▸ first.reserved h listed)
  · intro h member
    rcases List.mem_append.1 member with member | member
    · exact first.fresh h member
    · exact fun earlier => second.fresh h member (first.taken earlier)
  · intro h member
    rcases List.mem_append.1 member with member | member
    · exact second.taken (first.reserved h member)
    · exact second.reserved h member

theorem then_none (first : Takes p p' new) (second : Takes p' p'' []) : Takes p p'' new := by
  have both := first.trans second
  rwa [List.append_nil] at both

theorem none_then (first : Takes p p' []) (second : Takes p' p'' new) : Takes p p'' new :=
  first.trans second

theorem reserves {known : List String} (takes : Takes p p' new) (reserved : known ⊆ p.names.taken) :
    known ⊆ p'.names.taken :=
  List.Subset.trans reserved takes.taken

end Takes

/-- The substitution leaves the known names alone and undoes the given measurements. -/
structure Undoes (known : List String) (new : List (Hoisted Unit)) (σ : Substitution) : Prop where
  known : ∀ x ∈ known, σ x = none
  new : ∀ h ∈ new, σ h.placeholder = some h.call

namespace Undoes

variable {known : List String} {new later : List (Hoisted Unit)} {σ : Substitution}

theorem left (undoes : Undoes known (new ++ later) σ) : Undoes known new σ :=
  ⟨undoes.known, fun h member => undoes.new h (List.mem_append_left _ member)⟩

theorem right (undoes : Undoes known (new ++ later) σ) : Undoes known later σ :=
  ⟨undoes.known, fun h member => undoes.new h (List.mem_append_right _ member)⟩

theorem subst_expr (undoes : Undoes known new σ) {e : ExprTerm} (inside : e.names ⊆ known) :
    e.subst σ = e :=
  ExprTree.subst_eq_self fun x member => undoes.known x (inside member)

theorem subst_stmt (undoes : Undoes known new σ) {s : StmtTerm} (inside : s.names ⊆ known) :
    s.subst σ = s :=
  StmtTree.subst_eq_self fun x member => undoes.known x (inside member)

end Undoes

section Hoist

variable {o : Options} {known : List String} {p : Progress}

theorem freshName_takes (base : String) : Yields (PlanM.freshName base) p fun x p' =>
    Takes p p' [] ∧ p.names.Issues [x] p'.names := by
  intro x p' ended
  cases ended
  exact ⟨.of_grows (List.subset_cons_self _ _) rfl, .singleton _ base⟩

theorem record_takes {b : Batch} (open_ : p.batch = some b) (call : ExprTerm) (stem : String) :
    Yields (PlanM.record call b stem) p fun x p' =>
      Takes p p' [⟨b.statement, call, x⟩] ∧ p.names.Issues [x] p'.names := by
  refine (freshName_takes _).bind ?_
  rintro x p₁ ⟨takes, issues⟩
  have fresh := issues.not_mem List.mem_cons_self
  have reserved := issues.mem_taken.2 (.inl List.mem_cons_self)
  rw [Yields.modify_bind]
  exact .pure ⟨⟨by simp [open_], by simp [open_], takes.taken, by simp, by simpa using fresh,
    by simpa using reserved⟩, issues⟩

theorem hoistParts_recovers {f : ExprTerm → PlanM ExprTerm} {parts : List ExprTerm}
    (each : ∀ e ∈ parts, ∀ p, Yields (f e) p fun r p' =>
      ∃ new, Takes p p' new ∧ p.names.Issues (new.map Hoisted.placeholder) p'.names ∧
        ∀ σ, Undoes known new σ → r.subst σ = e) :
    Yields (parts.mapM f) p fun rs p' =>
      ∃ new, Takes p p' new ∧ p.names.Issues (new.map Hoisted.placeholder) p'.names ∧
        ∀ σ, Undoes known new σ → rs.map (ExprTree.subst σ) = parts := by
  induction parts generalizing p with
  | nil => exact .pure ⟨[], .refl p, .done _, fun _ _ => rfl⟩
  | cons e parts ih =>
    rw [List.mapM_cons]
    refine (each e (by simp) p).bind ?_
    rintro r p₁ ⟨new, takes, issues, undone⟩
    refine (ih fun e inside => each e (by simp [inside])).bind ?_
    rintro rs p₂ ⟨later, takes', issues', undone'⟩
    refine .pure ⟨new ++ later, takes.trans takes', issues.append_map issues', fun σ undoes => ?_⟩
    rw [List.map_cons, undone σ undoes.left, undone' σ undoes.right]

theorem hoist_recovers (e : ExprTerm) (inside : e.names ⊆ known) :
    Yields (PlanM.hoist o e) p fun r p' =>
      ∃ new, Takes p p' new ∧ p.names.Issues (new.map Hoisted.placeholder) p'.names ∧
        ∀ σ, Undoes known new σ → r.subst σ = e := by
  induction e using ExprTree.induct generalizing p with
  | step label layer ih =>
    rw [PlanM.hoist_node, Yields.get_bind]
    cases open_ : p.batch with
    | none => exact .pure ⟨[], .refl p, .done _, fun σ undoes => undoes.subst_expr inside⟩
    | some b =>
      dsimp only
      split
      · refine (record_takes open_ _ _).bind fun x p₁ ⟨takes, issues⟩ => ?_
        refine .pure ⟨_, takes, issues, fun σ undoes => ?_⟩
        have found := undoes.new _ List.mem_cons_self
        rw [nameTerm, ExprTree.subst_node]
        exact congrArg (Option.getD · _) found
      · have parts : ∀ e ∈ layer.children, ∀ p, Yields (PlanM.hoist o e) p fun r p' =>
            ∃ new, Takes p p' new ∧ p.names.Issues (new.map Hoisted.placeholder) p'.names ∧
              ∀ σ, Undoes known new σ → r.subst σ = e := by
          intro e member p
          refine ih e member fun x named => inside ?_
          rw [ExprTree.names_node]
          exact List.mem_append_right _ (List.mem_flatMap.2 ⟨e, member, named⟩)
        refine (hoistParts_recovers parts).bind ?_
        rintro rs p₁ ⟨new, takes, issues, undone⟩
        refine .pure ⟨new, takes, issues,
          fun σ undoes => ExprTree.subst_refill ?_ (undone σ undoes)⟩
        cases named : layer.name? with
        | none => rfl
        | some x => exact undoes.known x (inside (by simp [named]))

end Hoist

section Batch

variable {o : Options} {known : List String} {p : Progress}

theorem lookup_zip {β : Type} {keys : List String} {values : List β} {key : String} {value : β}
    (once : keys.Nodup) (member : (key, value) ∈ keys.zip values) :
    (keys.zip values).lookup key = some value := by
  induction keys generalizing values with
  | nil => cases member
  | cons k keys ih =>
    cases values with
    | nil => cases member
    | cons v values =>
      rw [List.nodup_cons] at once
      rw [List.zip_cons_cons, List.mem_cons] at member
      rw [List.zip_cons_cons]
      rcases member with same | member
      · cases same
        exact List.lookup_cons_self
      · have other : key ≠ k := by
          rintro rfl
          exact once.1 (List.of_mem_zip member).1
        rw [List.lookup_cons, beq_eq_false_iff_ne.2 other]
        exact ih once.2 member

theorem lookup_zip_eq_none {β : Type} {keys : List String} {values : List β} {key : String}
    (outside : key ∉ keys) : (keys.zip values).lookup key = none := by
  rw [List.lookup_eq_none_iff]
  rintro ⟨k, v⟩ member
  have listed := (List.of_mem_zip member).1
  simp only [bne_iff_ne, ne_eq]
  rintro rfl
  exact outside listed

def proxyAssign (pair : Hoisted Unit × String) : StmtTerm :=
  .assign () (nameTerm pair.2) pair.1.call

def batchOf (o : Options) (entries : List (Hoisted Unit)) (proxies : List String) : List StmtTerm :=
  (entries.zip proxies).map proxyAssign ++
    [PlanM.execution o proxies (entries.map Hoisted.placeholder)]

theorem emitProxies_takes (ordinal : Nat) (entries : List (Hoisted Unit)) :
    Yields (PlanM.emitProxies o ordinal entries) p fun emitted p' => Takes p p' [] ∧
      (emitted.map Prod.snd).length = entries.length ∧
      p.names.Issues (emitted.map Prod.snd) p'.names ∧
      emitted.map Prod.fst = (entries.zip (emitted.map Prod.snd)).map proxyAssign := by
  induction entries generalizing ordinal p with
  | nil => exact .pure ⟨.refl p, rfl, .done _, rfl⟩
  | cons entry entries ih =>
    refine (freshName_takes _).bind ?_
    rintro x p₁ ⟨takes, issues⟩
    refine (ih (ordinal + 1)).bind ?_
    rintro emitted p₂ ⟨takes', length, issues', assigned⟩
    refine .pure ⟨takes.trans takes', by simpa using length, issues.append issues', ?_⟩
    · rw [List.map_cons, List.map_cons, List.zip_cons_cons, List.map_cons, assigned]
      rfl

theorem names_nameTerm (x : String) : (nameTerm x).names = [x] := by
  rw [nameTerm, ExprTree.names_node]
  rfl

theorem flatMap_names_nameTerm (xs : List String) :
    (xs.map nameTerm).flatMap ExprTree.names = xs := by
  rw [List.flatMap_map]
  simp [names_nameTerm]

theorem filterMap_proxy?_batchOf (entries : List (Hoisted Unit)) (proxies : List String) :
    (batchOf o entries proxies).filterMap StmtTree.proxy? =
      proxies.zip (entries.map Hoisted.call) := by
  rw [batchOf, List.filterMap_append]
  refine (List.append_nil _).trans ?_
  induction entries generalizing proxies with
  | nil => simp
  | cons entry entries ih =>
    cases proxies with
    | nil => rfl
    | cons proxy proxies =>
      have first : StmtTree.proxy? (proxyAssign (entry, proxy)) = some (proxy, entry.call) := rfl
      rw [List.zip_cons_cons, List.map_cons, List.filterMap_cons_some first, ih]
      rfl

theorem flatMap_executed_batchOf (entries : List (Hoisted Unit)) (proxies : List String) :
    (batchOf o entries proxies).flatMap StmtTree.executed =
      (entries.map Hoisted.placeholder).zip proxies := by
  have assigns : ∀ (entries : List (Hoisted Unit)) (proxies : List String),
      ((entries.zip proxies).map proxyAssign).flatMap StmtTree.executed = [] := by
    intro entries proxies
    rw [List.flatMap_eq_nil_iff]
    intro s member
    obtain ⟨pair, -, rfl⟩ := List.mem_map.1 member
    rfl
  have execution : StmtTree.executed (PlanM.execution o proxies (entries.map Hoisted.placeholder)) =
      (((entries.map Hoisted.placeholder).map nameTerm).flatMap ExprTree.names).zip
        ((proxies.map nameTerm).flatMap ExprTree.names) := rfl
  rw [batchOf, List.flatMap_append, assigns, List.nil_append, List.flatMap_singleton, execution,
    flatMap_names_nameTerm, flatMap_names_nameTerm]

theorem undoes_bindings_batchOf {entries : List (Hoisted Unit)} {proxies : List String}
    (length : proxies.length = entries.length) (once : (entries.map Hoisted.placeholder).Nodup)
    (once' : proxies.Nodup) (fresh : ∀ h ∈ entries, h.placeholder ∉ known) :
    Undoes known entries (StmtTree.bindings (batchOf o entries proxies)) := by
  refine ⟨fun x member => ?_, fun h member => ?_⟩
  · have outside : x ∉ entries.map Hoisted.placeholder := by
      intro listed
      obtain ⟨h, inside, rfl⟩ := List.mem_map.1 listed
      exact fresh h inside member
    unfold StmtTree.bindings
    rw [flatMap_executed_batchOf, lookup_zip_eq_none outside]
    rfl
  · obtain ⟨i, bound, rfl⟩ := List.getElem_of_mem member
    have bound' : i < proxies.length := length ▸ bound
    have executed : (entries[i].placeholder, proxies[i]) ∈
        (entries.map Hoisted.placeholder).zip proxies :=
      List.mem_iff_getElem.2 ⟨i, by simp [bound, bound'], by simp⟩
    have assigned : (proxies[i], entries[i].call) ∈ proxies.zip (entries.map Hoisted.call) :=
      List.mem_iff_getElem.2 ⟨i, by simp [bound, bound'], by simp⟩
    unfold StmtTree.bindings
    rw [flatMap_executed_batchOf, filterMap_proxy?_batchOf, lookup_zip once executed]
    exact lookup_zip once' assigned

theorem emitted_batchOf {entries : List (Hoisted Unit)} {proxies : List String} {s : StmtTerm}
    (some_ : entries ≠ []) (fresh : ∀ h ∈ entries, h.placeholder ∉ known)
    (fresh' : ∀ x ∈ proxies, x ∉ known) (member : s ∈ batchOf o entries proxies) :
    s.emitted known = true := by
  rcases List.mem_append.1 member with member | member
  · obtain ⟨⟨h, proxy⟩, pair, rfl⟩ := List.mem_map.1 member
    have listed := (List.of_mem_zip pair).2
    simpa [StmtTree.emitted, proxyAssign, names_nameTerm] using fresh' proxy listed
  · obtain ⟨h, rest, rfl⟩ := List.exists_cons_of_ne_nil some_
    rw [List.mem_singleton] at member
    subst member
    have names : (ExprTree.node () (.tuple (((h :: rest).map Hoisted.placeholder).map nameTerm))).names
        = (h :: rest).map Hoisted.placeholder := by
      rw [ExprTree.names_node]
      exact flatMap_names_nameTerm _
    unfold PlanM.execution StmtTree.emitted
    dsimp only
    rw [names, List.any_eq_true]
    exact ⟨h.placeholder, by simp, by simpa using fresh h (by simp)⟩

/-- The body with the batch of the entries somewhere in it, and the body itself where there are none. -/
inductive WithBatch (o : Options) (known : List String) (entries : List (Hoisted Unit))
    (body : List StmtTerm) : List StmtTerm → Prop where
  | none (empty : entries = []) : WithBatch o known entries body body
  | some {front back : List StmtTerm} {proxies : List String} (split : body = front ++ back)
    (nonempty : entries ≠ []) (length : proxies.length = entries.length) (once : proxies.Nodup)
    (fresh : ∀ x ∈ proxies, x ∉ known) :
    WithBatch o known entries body (front ++ batchOf o entries proxies ++ back)

theorem emitBatch_cases (entries : List (Hoisted Unit)) (body : List StmtTerm) :
    Yields (PlanM.emitBatch o entries body) p fun rs p' => Takes p p' [] ∧
      ((entries = [] ∧ p' = p ∧ rs = body) ∨ ∃ position proxies,
        (entries.map Hoisted.index).min? = some position ∧ proxies.length = entries.length ∧
        p.names.Issues proxies p'.names ∧
        rs = body.take position ++ batchOf o entries proxies ++ body.drop position) := by
  unfold PlanM.emitBatch
  cases lowest : (entries.map Hoisted.index).min? with
  | none =>
    have empty : entries = [] := by simpa using lowest
    exact .pure ⟨.refl p, .inl ⟨empty, rfl, rfl⟩⟩
  | some position =>
    refine (emitProxies_takes 1 entries).bind ?_
    rintro emitted p₁ ⟨takes, length, issues, assigned⟩
    refine Yields.modify_bind.2 (.pure ⟨takes.then_none (.of_grows (List.Subset.refl _) rfl), ?_⟩)
    rw [assigned, List.append_assoc (body.take position)]
    exact .inr ⟨position, _, rfl, length, issues, rfl⟩

theorem emitBatch_withBatch (entries : List (Hoisted Unit)) (body : List StmtTerm)
    (reserved : known ⊆ p.names.taken) : Yields (PlanM.emitBatch o entries body) p fun rs p' =>
      Takes p p' [] ∧ WithBatch o known entries body rs := by
  refine (emitBatch_cases entries body).mono ?_
  rintro rs p' ⟨takes, ⟨empty, -, rfl⟩ | ⟨position, proxies, lowest, length, issues, rfl⟩⟩
  · exact ⟨takes, .none empty⟩
  · have nonempty : entries ≠ [] := by
      rintro rfl
      cases lowest
    exact ⟨takes, .some (List.take_append_drop position body).symm nonempty length issues.nodup
      fun x listed inside => issues.not_mem listed (reserved inside)⟩

theorem WithBatch.recovers {entries : List (Hoisted Unit)} {body rs : List StmtTerm}
    (batch : WithBatch o known entries body rs) (kept : ∀ r ∈ body, r.emitted known = false)
    (once : (entries.map Hoisted.placeholder).Nodup)
    (fresh : ∀ h ∈ entries, h.placeholder ∉ known) :
    rs.filter (fun r => !r.emitted known) = body ∧
      Undoes known entries (StmtTree.bindings (rs.filter (StmtTree.emitted known))) := by
  have without : ∀ block : List StmtTerm, (∀ r ∈ block, r.emitted known = false) →
      block.filter (fun r => !r.emitted known) = block ∧
        block.filter (StmtTree.emitted known) = [] := by
    intro block kept
    exact ⟨List.filter_eq_self.2 fun r member => by simp [kept r member],
      List.filter_eq_nil_iff.2 fun r member => by simp [kept r member]⟩
  cases batch with
  | none empty =>
    rw [(without body kept).2, empty]
    exact ⟨(without body kept).1, fun _ _ => rfl, by simp⟩
  | @some front back proxies split nonempty length once' fresh' =>
    subst split
    have inFront := without front fun r member => kept r (List.mem_append_left _ member)
    have inBack := without back fun r member => kept r (List.mem_append_right _ member)
    have added : ∀ s ∈ batchOf o entries proxies, s.emitted known = true :=
      fun s member => emitted_batchOf nonempty fresh fresh' member
    have none : (batchOf o entries proxies).filter (fun r => !r.emitted known) = [] :=
      List.filter_eq_nil_iff.2 fun s member => by simp [added s member]
    simp only [List.filter_append, inFront, inBack, none, List.filter_eq_self.2 added,
      List.nil_append, List.append_nil, true_and]
    exact undoes_bindings_batchOf length once once' fresh

end Batch

end QuantumLowering
