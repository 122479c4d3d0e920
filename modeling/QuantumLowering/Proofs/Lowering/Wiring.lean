import QuantumLowering.Proofs.Lowering.Families
import QuantumLowering.Proofs.Lowering.Recovery

namespace QuantumLowering

/-- The declarations become others by adding families of variants, whose links are written into the
table. -/
structure Derivation (ds : List Declaration) (k : Knowledge) (es : List Declaration) (k' : Knowledge)
    (links : List Link) : Prop where
  operations : k'.operations = k.operations.linkAll links
  taken : k.taken ⊆ k'.taken
  kept : ds ⊆ es
  wired : ∀ l ∈ links, .wiring l ∈ es
  new : ∀ x ∈ es, x ∈ ds ∨ (∃ l ∈ links, x = .wiring l) ∨
    ∃ n, k.Names k' n ∧ x = .definition n (some .none)
  owner : ∀ l ∈ links, l.operation ∈ operationNames ds ∨
    k.Names k' l.operation ∧ .definition l.operation (some .none) ∈ es
  family : ∀ f m, .definition f (some m) ∈ ds → ∃ names own, Family f m names own ∧
    own ⊆ links ∧ ∀ n ∈ names, .definition n (some .none) ∈ es
  distinct : (operationNames ds).Nodup → operationNames ds ⊆ k.taken → (links.map Link.key).Nodup

namespace Derivation

variable {ds ds' es es' : List Declaration} {k k' k'' : Knowledge} {links links' : List Link}

theorem of_kept (ds : List Declaration) (k : Knowledge)
    (plain : ∀ f m, .definition f (some m) ∉ ds) : Derivation ds k ds k [] where
  operations := rfl
  taken := List.Subset.refl _
  kept := List.Subset.refl _
  wired := by simp
  new x member := .inl member
  owner := by simp
  family f m member := absurd member (plain f m)
  distinct _ _ := .nil

theorem congr (derivation : Derivation ds k es k' links) (order : ds'.Perm ds)
    (same : ∀ x, x ∈ es' ↔ x ∈ es) : Derivation ds' k es' k' links where
  operations := derivation.operations
  taken := derivation.taken
  kept x member := (same x).2 (derivation.kept (order.mem_iff.1 member))
  wired l member := (same _).2 (derivation.wired l member)
  new x member := by
    rw [order.mem_iff]
    exact derivation.new x ((same x).1 member)
  owner l member := by
    rw [operationNames, (order.filterMap _).mem_iff, same]
    exact derivation.owner l member
  family f m member := by
    obtain ⟨names, own, family, inside, defined⟩ := derivation.family f m (order.mem_iff.1 member)
    exact ⟨names, own, family, inside, fun n member => (same _).2 (defined n member)⟩
  distinct once inside := by
    have names := order.filterMap Declaration.operation?
    exact derivation.distinct (names.nodup_iff.1 once) fun n member => inside (names.mem_iff.2 member)

theorem widen {k₀ k₁ : Knowledge} (before : k₀.TakesNames k) (derivation : Derivation ds k es k' links)
    (after : k'.TakesNames k₁) : Derivation ds k₀ es k₁ links where
  operations := by rw [after.operations, derivation.operations, before.operations]
  taken := List.Subset.trans before.taken (List.Subset.trans derivation.taken after.taken)
  kept := derivation.kept
  wired := derivation.wired
  new x member := by
    rcases derivation.new x member with old | wired | ⟨n, named, rfl⟩
    · exact .inl old
    · exact .inr (.inl wired)
    · exact .inr (.inr ⟨n, named.widen before.taken after.taken, rfl⟩)
  owner l member := by
    rcases derivation.owner l member with old | ⟨named, new⟩
    · exact .inl old
    · exact .inr ⟨named.widen before.taken after.taken, new⟩
  family := derivation.family
  distinct once inside := derivation.distinct once (List.Subset.trans inside before.taken)

theorem nodup_keys_append (once : (links.map Link.key).Nodup) (once' : (links'.map Link.key).Nodup)
    (apart : ∀ l ∈ links, ∀ l' ∈ links', l.operation ≠ l'.operation) :
    ((links ++ links').map Link.key).Nodup := by
  rw [List.map_append]
  refine once.append once' ?_
  intro key member member'
  obtain ⟨l, listed, rfl⟩ := List.mem_map.1 member
  obtain ⟨l', listed', same⟩ := List.mem_map.1 member'
  exact apart l listed l' listed' (congrArg Prod.snd same).symm

theorem append (first : Derivation ds k es k' links) (second : Derivation ds' k' es' k'' links') :
    Derivation (ds ++ ds') k (es ++ es') k'' (links ++ links') where
  operations := by rw [second.operations, first.operations, OperationTable.linkAll_append]
  taken := List.Subset.trans first.taken second.taken
  kept := List.append_subset.2 ⟨List.subset_append_of_subset_left _ first.kept,
    List.subset_append_of_subset_right _ second.kept⟩
  wired l member := by
    rcases List.mem_append.1 member with member | member
    · exact List.mem_append_left _ (first.wired l member)
    · exact List.mem_append_right _ (second.wired l member)
  new x member := by
    rcases List.mem_append.1 member with member | member
    · rcases first.new x member with old | ⟨l, listed, rfl⟩ | ⟨n, named, rfl⟩
      · exact .inl (List.mem_append_left _ old)
      · exact .inr (.inl ⟨l, List.mem_append_left _ listed, rfl⟩)
      · exact .inr (.inr ⟨n, named.widen (List.Subset.refl _) second.taken, rfl⟩)
    · rcases second.new x member with old | ⟨l, listed, rfl⟩ | ⟨n, named, rfl⟩
      · exact .inl (List.mem_append_right _ old)
      · exact .inr (.inl ⟨l, List.mem_append_right _ listed, rfl⟩)
      · exact .inr (.inr ⟨n, named.widen first.taken (List.Subset.refl _), rfl⟩)
  owner l member := by
    rw [operationNames, List.filterMap_append, List.mem_append]
    rcases List.mem_append.1 member with member | member
    · rcases first.owner l member with old | ⟨named, new⟩
      · exact .inl (.inl old)
      · exact .inr ⟨named.widen (List.Subset.refl _) second.taken, List.mem_append_left _ new⟩
    · rcases second.owner l member with old | ⟨named, new⟩
      · exact .inl (.inr old)
      · exact .inr ⟨named.widen first.taken (List.Subset.refl _), List.mem_append_right _ new⟩
  family f m member := by
    rcases List.mem_append.1 member with member | member
    · obtain ⟨names, own, family, inside, defined⟩ := first.family f m member
      exact ⟨names, own, family, List.subset_append_of_subset_left _ inside,
        fun n member => List.mem_append_left _ (defined n member)⟩
    · obtain ⟨names, own, family, inside, defined⟩ := second.family f m member
      exact ⟨names, own, family, List.subset_append_of_subset_right _ inside,
        fun n member => List.mem_append_right _ (defined n member)⟩
  distinct once inside := by
    rw [operationNames, List.filterMap_append] at once inside
    obtain ⟨once₁, once₂, apart⟩ := List.nodup_append.1 once
    obtain ⟨inside₁, inside₂⟩ := List.append_subset.1 inside
    refine nodup_keys_append (first.distinct once₁ inside₁)
      (second.distinct once₂ (List.Subset.trans inside₂ first.taken)) ?_
    -- an operation of the module is in use from the start, and a variant only once it is derived
    intro l member l' member' same
    rcases first.owner l member with old | ⟨named, -⟩
    · rcases second.owner l' member' with old' | ⟨named', -⟩
      · exact apart _ old _ old' same
      · exact named'.fresh (first.taken (inside₁ (same ▸ old)))
    · rcases second.owner l' member' with old' | ⟨named', -⟩
      · exact named.fresh (inside₂ (same ▸ old'))
      · exact named'.fresh (same ▸ named.taken)

theorem of_emits {o : Options} {d : Definition StmtTerm} {variants : List StmtTerm} {names : List String}
    (family : Family d.name d.markers names links) (emits : Emits o d k variants k' names links) :
    Derivation [.definition d.name d.operation] k
      (.definition d.name d.operation :: announced names links) k' links where
  operations := emits.operations
  taken := emits.taken
  kept := by simp
  wired l member := by simp [announced, member]
  new x member := by
    simp only [announced, List.mem_cons, List.mem_append, List.mem_map] at member
    rcases member with rfl | ⟨n, listed, rfl⟩ | ⟨l, listed, rfl⟩
    · exact .inl (by simp)
    · exact .inr (.inr ⟨n, emits.named n listed, rfl⟩)
    · exact .inr (.inl ⟨l, listed, rfl⟩)
  owner l member := by
    have marked := family.marked member
    rcases family.owner member with own | variant
    · rw [own]
      cases operation : d.operation with
      | none => exact absurd (by rw [Definition.markers, operation]; rfl) marked
      | some m => exact .inl (by simp [operationNames, Declaration.operation?])
    · exact .inr ⟨emits.named _ variant, by simp [announced, variant]⟩
  family f m member := by
    obtain ⟨rfl, operation⟩ : f = d.name ∧ some m = d.operation := by simpa using member
    have markers : d.markers = m := by rw [Definition.markers, ← operation]; rfl
    exact ⟨names, links, markers ▸ family, List.Subset.refl _, fun n member => by
      simp [announced, member]⟩
  distinct _ inside := by
    cases operation : d.operation with
    | none =>
      have unmarked : d.markers = .none := by rw [Definition.markers, operation]; rfl
      have empty : links = [] :=
        List.eq_nil_iff_forall_not_mem.2 fun l member => family.marked member unmarked
      rw [empty]
      exact .nil
    | some m =>
      rw [operation] at inside
      refine family.distinct (List.nodup_cons.2 ⟨fun member => ?_, emits.distinct⟩)
      exact (emits.named _ member).fresh (inside (by simp [operationNames, Declaration.operation?]))

end Derivation

theorem compositional_derivation (o : Options) : Compositional o fun body k rs k' => ∃ links,
    Derivation (body.flatMap StmtTree.declarations) k (rs.flatMap StmtTree.declarations) k' links where
  nil k := ⟨[], .of_kept _ k (by simp)⟩
  append := by
    rintro body body' rs rs' k k' k'' ⟨links, first⟩ ⟨links', second⟩
    rw [List.flatMap_append, List.flatMap_append]
    exact ⟨links ++ links', first.append second⟩
  before := by
    rintro body rs k k' k'' names ⟨links, derivation⟩
    exact ⟨links, derivation.widen names (.refl _)⟩
  after := by
    rintro body rs k k' k'' ⟨links, derivation⟩ names
    exact ⟨links, derivation.widen (.refl _) names⟩
  leaf := by
    intro s r k leaf
    refine ⟨[], ?_⟩
    cases leaf <;> exact (Derivation.of_kept _ k (by simp)).congr (.refl _) (by simp)
  insert := by
    rintro body front batch back k k' ⟨links, derivation⟩ assigns
    refine ⟨links, derivation.congr (.refl _) fun x => ?_⟩
    have none : batch.flatMap StmtTree.declarations = [] := by
      refine List.flatMap_eq_nil_iff.2 fun s member => ?_
      obtain ⟨target, value, rfl⟩ := assigns s member
      exact StmtTree.declarations_assign ..
    simp only [List.flatMap_append, none, List.append_nil]
  classDef := by
    rintro body rs k k' name ⟨links, derivation⟩
    exact ⟨links, derivation.congr (by simp) (by simp)⟩
  scope := by
    rintro body rs k k' context context' binding ⟨links, derivation⟩
    exact ⟨links, derivation.congr (by simp) (by simp)⟩
  conditional := by
    rintro body orelse rs rs' k k' k'' test test' ⟨links, first⟩ ⟨links', second⟩
    exact ⟨links ++ links', (first.append second).congr (by simp) (by simp)⟩
  quantum := by
    rintro body orelse rs rs' k k' k'' control test context ⟨links, first⟩ ⟨links', second⟩ ended
    have same := declarations_controlStmts ended
    refine ⟨links ++ links', (first.append second).congr (by simp) fun x => ?_⟩
    simp [same.mem_iff]
  define := by
    rintro d rs variants k p p' ⟨links, inner⟩ ended
    obtain ⟨names, own, family, emits⟩ := emitVariants_emits _ _ _ ended
    refine ⟨links ++ own, (inner.append (.of_emits family emits)).congr ?_ fun x => ?_⟩
    · simpa using (List.perm_append_singleton _ _).symm
    · rw [emits.declared x]
      simp only [StmtTree.declarations_define, List.mem_cons, List.mem_append]
      grind

theorem declarations_preparedBody (o : Options) (boilerplate : Bool) (body : List StmtTerm) :
    (preparedBody o boilerplate body).flatMap StmtTree.declarations =
      body.flatMap StmtTree.declarations := by
  unfold preparedBody withImport
  split
  · split <;> simp
  · rfl

section Modules

variable {o : Options} {t : SyntaxTree} {input : List StmtTerm} {lowered : Lowered}
  {boilerplate verification : Bool}

theorem lower_derivation (kinded : t.WellKinded) (valid : t.validate = .ok ())
    (reads : t.Reads t.body input)
    (ended : t.lower o (.build boilerplate verification) = .ok lowered) :
    ∃ body output k links, body.map StmtTree.erase = input ∧
      lowered.tree.Reads lowered.tree.body output ∧ lowered.operations = k.operations ∧
      Derivation (input.flatMap StmtTree.declarations) (Progress.start o body).knowledge
        (output.flatMap StmtTree.declarations) k links := by
  obtain ⟨body, placed⟩ := exists_placed kinded valid
  obtain rfl := reads.unique ⟨body, placed.labels, rfl, placed.owned.held⟩
  obtain ⟨output, k, read, operations, links, derivation⟩ :=
    (compositional_derivation o).lowerModule placed ended
  rw [declarations_preparedBody] at derivation
  exact ⟨body, output, k, links, rfl, read, operations, derivation⟩

/-- Lowering changes the entries of the operations that the lowered module defines, and of no others.
These are the operations of the module and variants, whose names start with an underscore and were
not in use in the module. -/
theorem lower_defined_entries (kinded : t.WellKinded) (valid : t.validate = .ok ())
    (reads : t.Reads t.body input)
    (ended : t.lower o (.build boilerplate verification) = .ok lowered) :
    ∃ output, lowered.tree.Reads lowered.tree.body output ∧
      (∀ n, n ∉ operationNames (output.flatMap StmtTree.declarations) →
        lowered.operations.get? n = o.operations.get? n) ∧
      ∀ n ∈ operationNames (output.flatMap StmtTree.declarations),
        n ∈ operationNames (input.flatMap StmtTree.declarations) ∨
          n ∉ input.flatMap StmtTree.names ∧ n.startsWith "_" := by
  obtain ⟨body, output, k, links, rfl, read, operations, derivation⟩ :=
    lower_derivation kinded valid reads ended
  refine ⟨output, read, fun n other => ?_, fun n member => ?_⟩
  · have outside : n ∉ operationNames ((body.map StmtTree.erase).flatMap StmtTree.declarations) := by
      intro member
      obtain ⟨m, listed⟩ := mem_operationNames.1 member
      exact other (mem_operationNames.2 ⟨m, derivation.kept listed⟩)
    have unlinked : ∀ l ∈ links, l.operation ≠ n := by
      rintro l member rfl
      rcases derivation.owner l member with old | ⟨-, new⟩
      · exact outside old
      · exact other (mem_operationNames.2 ⟨_, new⟩)
    rw [operations, derivation.operations, OperationTable.get?_linkAll unlinked]
    exact get?_start outside o
  · obtain ⟨m, listed⟩ := mem_operationNames.1 member
    rcases derivation.new _ listed with old | ⟨l, -, same⟩ | ⟨variant, named, same⟩
    · exact .inl (mem_operationNames.2 ⟨m, old⟩)
    · cases same
    · cases same
      exact .inr ⟨fun used => named.fresh (names_subset_start o body used), named.starts⟩

def singleOperation (name gate : String) (markers : Markers) : SyntaxTree :=
  ⟨#[.expr (.name gate), .expr (.name "q"), .expr (.call 0 [1] []), .stmt (.expr 2),
    .stmt (.define ⟨name, ["q"], [3], some markers⟩)], [4]⟩

def singleOperationBody (name gate : String) (markers : Markers) : List (StmtTree NodeId) :=
  [.define 4 ⟨name, ["q"], [.expr 3 (.node 2 (.call (.node 0 (.name gate)) [.node 1 (.name "q")] []))],
    some markers⟩]

theorem singleOperation_placed (name gate : String) (markers : Markers) :
    Placed (singleOperation name gate markers) (singleOperationBody name gate markers) := by
  refine ⟨rfl, ?_, ?_⟩
  · simp [singleOperation, singleOperationBody, Expr.map, Expr.children, Holds, StmtTree.label]
  · simp [singleOperationBody, Expr.map, Expr.children, StmtTree.label]

def Declaration.definition? : Declaration → Option String
  | .definition name _ => some name
  | .wiring _ => none

def definedNames (ds : List Declaration) : List String := ds.filterMap Declaration.definition?

/-- An operation and its variants resolve to each other as the markers ask for, and all of them are
defined. The adjoint of the controlled form is the controlled form of the adjoint. -/
structure OperationTable.Square (table : OperationTable) (defined : List String) (f : String)
    (m : Markers) : Prop where
  present : f ∈ defined
  adjoint : m.adjoint → ∃ fa ∈ defined, table.resolve f .adjoint = .ok fa ∧
    table.resolve fa .adjoint = .ok f
  controlled : m.controlled → ∃ fc ∈ defined, table.resolve f .controlled = .ok fc ∧
    table.resolve fc .controlled = .ok fc
  both : m.adjoint → m.controlled → ∃ fa ∈ defined, ∃ fc ∈ defined, ∃ fca ∈ defined,
    table.resolve f .adjoint = .ok fa ∧ table.resolve f .controlled = .ok fc ∧
    table.resolve fc .adjoint = .ok fca ∧ table.resolve fa .controlled = .ok fca ∧
    table.resolve fca .adjoint = .ok fc ∧ table.resolve fca .controlled = .ok fca

theorem Family.square {f : String} {m : Markers} {names : List String} {links : List Link}
    {table : OperationTable} {defined : List String} (family : Family f m names links)
    (resolves : ∀ l ∈ links, table.resolve l.operation l.functor = .ok l.variant)
    (present : f ∈ defined) (inside : names ⊆ defined) : table.Square defined f m := by
  cases family with
  | plain unmarked =>
    subst unmarked
    exact ⟨present, by simp [Markers.none], by simp [Markers.none], by simp [Markers.none]⟩
  | adjoint fa marked unmarked =>
    have there := resolves ⟨.adjoint, f, fa⟩ (by simp [adjointLinks])
    have back := resolves ⟨.adjoint, fa, f⟩ (by simp [adjointLinks])
    exact ⟨present, fun _ => ⟨fa, inside (by simp), there, back⟩, by simp [unmarked],
      by simp [unmarked]⟩
  | controlled fc marked unmarked =>
    have there := resolves ⟨.controlled, f, fc⟩ (by simp [controlledLinks])
    have self := resolves ⟨.controlled, fc, fc⟩ (by simp [controlledLinks])
    exact ⟨present, by simp [unmarked], fun _ => ⟨fc, inside (by simp), there, self⟩,
      by simp [unmarked]⟩
  | both fa fc fca marked marked' =>
    have there := resolves ⟨.adjoint, f, fa⟩ (by simp [adjointLinks])
    have back := resolves ⟨.adjoint, fa, f⟩ (by simp [adjointLinks])
    have there' := resolves ⟨.controlled, f, fc⟩ (by simp [controlledLinks])
    have self := resolves ⟨.controlled, fc, fc⟩ (by simp [controlledLinks])
    have down := resolves ⟨.adjoint, fc, fca⟩ (by simp [adjointLinks])
    have up := resolves ⟨.adjoint, fca, fc⟩ (by simp [adjointLinks])
    have across := resolves ⟨.controlled, fa, fca⟩ (by simp [controlledLinks])
    have stay := resolves ⟨.controlled, fca, fca⟩ (by simp [controlledLinks])
    exact ⟨present, fun _ => ⟨fa, inside (by simp), there, back⟩,
      fun _ => ⟨fc, inside (by simp), there', self⟩,
      fun _ _ => ⟨fa, inside (by simp), fc, inside (by simp), fca, inside (by simp), there, there',
        down, across, up, stay⟩⟩

/-- In a module without wirings whose operations have different names, every operation has its square,
and every wiring of the lowered module agrees with the table. -/
theorem lower_square (kinded : t.WellKinded) (valid : t.validate = .ok ())
    (reads : t.Reads t.body input) (unwired : ∀ l, .wiring l ∉ input.flatMap StmtTree.declarations)
    (distinct : (operationNames (input.flatMap StmtTree.declarations)).Nodup)
    (ended : t.lower o (.build boilerplate verification) = .ok lowered) :
    ∃ output, lowered.tree.Reads lowered.tree.body output ∧
      (∀ f m, .definition f (some m) ∈ input.flatMap StmtTree.declarations →
        lowered.operations.Square (definedNames (output.flatMap StmtTree.declarations)) f m) ∧
      ∀ l, .wiring l ∈ output.flatMap StmtTree.declarations →
        lowered.operations.resolve l.operation l.functor = .ok l.variant := by
  obtain ⟨body, output, k, links, rfl, read, operations, derivation⟩ :=
    lower_derivation kinded valid reads ended
  have once := derivation.distinct distinct (operationNames_subset_start o body)
  have resolves : ∀ l ∈ links, lowered.operations.resolve l.operation l.functor = .ok l.variant := by
    intro l member
    rw [operations, derivation.operations]
    exact OperationTable.resolve_linkAll once member
  have defined : ∀ {n operation},
      Declaration.definition n operation ∈ output.flatMap StmtTree.declarations →
      n ∈ definedNames (output.flatMap StmtTree.declarations) :=
    fun listed => List.mem_filterMap.2 ⟨_, listed, rfl⟩
  refine ⟨output, read, fun f m member => ?_, fun l member => ?_⟩
  · obtain ⟨names, own, family, inside, variants⟩ := derivation.family f m member
    exact family.square (fun l listed => resolves l (inside listed))
      (defined (derivation.kept member)) fun n listed => defined (variants n listed)
  · rcases derivation.new _ member with old | ⟨l', listed, same⟩ | ⟨n, -, same⟩
    · exact absurd old (unwired l)
    · cases same
      exact resolves l listed
    · cases same

theorem lower_square_both_markers :
    ∃ lowered, (singleOperation "f" "R1" ⟨true, true⟩).lower .default .standard = .ok lowered ∧
      ∃ output, lowered.tree.Reads lowered.tree.body output ∧ lowered.operations.Square
        (definedNames (output.flatMap StmtTree.declarations)) "f" ⟨true, true⟩ := by
  have placed := singleOperation_placed "f" "R1" ⟨true, true⟩
  have declared : ((singleOperationBody "f" "R1" ⟨true, true⟩).map StmtTree.erase).flatMap
      StmtTree.declarations = [.definition "f" (some ⟨true, true⟩)] := by
    simp [singleOperationBody]
  have succeeds : ((singleOperation "f" "R1" ⟨true, true⟩).lower .default .standard).toOption.any
      (fun _ => true) := by
    decide +kernel
  obtain ⟨lowered, ended, -⟩ := exists_lowered succeeds
  obtain ⟨output, read, squares, -⟩ := lower_square placed.wellKinded placed.validate
    ⟨_, placed.labels, rfl, placed.owned.held⟩ (by simp [declared])
    (by simp [declared, operationNames, Declaration.operation?]) (show _ = _ from ended)
  exact ⟨lowered, ended, output, read, squares "f" ⟨true, true⟩ (by simp [declared])⟩

end Modules

end QuantumLowering
