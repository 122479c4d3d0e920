import QuantumLowering.Proofs.Lowering.Declarations
import QuantumLowering.Proofs.Operation.Freshness

namespace QuantumLowering

theorem startsWith_append {s start : String} (starts : s.startsWith start) (t : String) :
    (s ++ t).startsWith start := by
  rw [String.startsWith_string_iff] at starts ⊢
  rw [String.toList_append]
  exact starts.trans (List.prefix_append _ _)

theorem startsWith_variantBase (name suffix : String) :
    (variantBase name suffix).startsWith "_" := by
  have underscore : ("_" : String).startsWith "_" := by simp
  unfold variantBase
  split
  · exact startsWith_append (startsWith_append ‹_› _) _
  · exact startsWith_append (startsWith_append (startsWith_append underscore _) _) _

theorem NameSupply.startsWith_fresh {base : String} (starts : base.startsWith "_")
    (s : NameSupply) : (s.fresh base).1.startsWith "_" := by
  show (candidate base _).startsWith "_"
  unfold candidate
  split
  · exact starts
  · exact startsWith_append (startsWith_append starts _) _

structure Knowledge.Names (k k' : Knowledge) (name : String) : Prop where
  fresh : name ∉ k.taken
  taken : name ∈ k'.taken
  starts : name.startsWith "_"

theorem Knowledge.Names.widen {k₀ k k' k₁ : Knowledge} {name : String} (names : k.Names k' name)
    (before : k₀.taken ⊆ k.taken) (after : k'.taken ⊆ k₁.taken) : k₀.Names k₁ name :=
  ⟨fun member => names.fresh (before member), after names.taken, names.starts⟩

def adjointLinks (f adjoint : String) : List Link :=
  [⟨.adjoint, f, adjoint⟩, ⟨.adjoint, adjoint, f⟩]

/-- Under more controls the controlled form stays what it is. -/
def controlledLinks (f controlled : String) : List Link :=
  [⟨.controlled, f, controlled⟩, ⟨.controlled, controlled, controlled⟩]

/-- The variants that the markers of an operation ask for, and how they are linked. With both markers
the two orders of the functors lead to one variant. -/
inductive Family (f : String) (m : Markers) : List String → List Link → Prop where
  | plain (unmarked : m = .none) : Family f m [] []
  | adjoint (adjoint : String) (marked : m.adjoint = true) (unmarked : m.controlled = false) :
    Family f m [adjoint] (adjointLinks f adjoint)
  | controlled (controlled : String) (marked : m.controlled = true) (unmarked : m.adjoint = false) :
    Family f m [controlled] (controlledLinks f controlled)
  | both (adjoint controlled both : String) (marked : m.adjoint = true)
    (marked' : m.controlled = true) :
    Family f m [adjoint, controlled, both] (adjointLinks f adjoint ++ (controlledLinks f controlled ++
      (adjointLinks controlled both ++ controlledLinks adjoint both)))

namespace Family

variable {f : String} {m : Markers} {names : List String} {links : List Link}

theorem owner (family : Family f m names links) {l : Link} (member : l ∈ links) :
    l.operation = f ∨ l.operation ∈ names := by
  cases family with
  | plain => cases member
  | adjoint adjoint =>
    simp only [adjointLinks, List.mem_cons, List.not_mem_nil, or_false] at member
    rcases member with rfl | rfl <;> simp
  | controlled controlled =>
    simp only [controlledLinks, List.mem_cons, List.not_mem_nil, or_false] at member
    rcases member with rfl | rfl <;> simp
  | both adjoint controlled both =>
    simp only [adjointLinks, controlledLinks, List.mem_append, List.mem_cons, List.not_mem_nil,
      or_false] at member
    rcases member with (rfl | rfl) | (rfl | rfl) | (rfl | rfl) | (rfl | rfl) <;> simp

theorem marked (family : Family f m names links) {l : Link} (member : l ∈ links) : m ≠ .none := by
  rintro rfl
  cases family with
  | plain => cases member
  | adjoint _ marked => cases marked
  | controlled _ marked => cases marked
  | both _ _ _ marked => cases marked

theorem distinct (family : Family f m names links) (apart : (f :: names).Nodup) :
    (links.map Link.key).Nodup := by
  cases family with
  | plain => exact .nil
  | adjoint adjoint => simpa [adjointLinks, Link.key] using apart
  | controlled controlled => simpa [controlledLinks, Link.key] using apart
  | both adjoint controlled both =>
    simp only [List.nodup_cons, List.mem_cons, List.not_mem_nil, or_false, not_or] at apart
    simp [adjointLinks, controlledLinks, Link.key]
    grind

end Family

/-- The definition, its adjoint and controlled forms, and forms of these. They are derived when at
least the given operations are known. -/
inductive VariantOf (o : Options) (known : OperationTable) (d : Definition StmtTerm) :
    Definition StmtTerm → Prop where
  | self : VariantOf o known d d
  | adjoint {d' : Definition StmtTerm} {table : OperationTable} {rs : List StmtTerm} (name : String)
    (source : VariantOf o known d d') (grown : known.KnownIn table)
    (ended : adjointStmts table o d'.body = .ok rs) :
    VariantOf o known d ⟨name, d'.params, rs, some .none⟩
  | controlled {d' : Definition StmtTerm} {table : OperationTable} {rs : List StmtTerm}
    (name control : String) (position : Nat) (source : VariantOf o known d d')
    (grown : known.KnownIn table) (ended : controlStmts table control d'.body = .ok rs) :
    VariantOf o known d ⟨name, d'.params.insertIdx position control, rs, some .none⟩

theorem VariantOf.declarations_body {o : Options} {known : OperationTable}
    {d d' : Definition StmtTerm} (variant : VariantOf o known d d') :
    (d'.body.flatMap StmtTree.declarations).Perm (d.body.flatMap StmtTree.declarations) := by
  induction variant with
  | self => exact .refl _
  | adjoint _ _ _ ended ih => exact (declarations_adjointStmts ended).trans ih
  | controlled _ _ _ _ _ ended ih => exact (declarations_controlStmts ended).trans ih

structure Derived (o : Options) (known : OperationTable) (d derived : Definition StmtTerm)
    (k k' : Knowledge) : Prop where
  variant : VariantOf o known d derived
  operation : derived.operation = some .none
  names : k.TakesNames k'
  named : k.Names k' derived.name

def announced (names : List String) (links : List Link) : List Declaration :=
  names.map (Declaration.definition · (some .none)) ++ links.map .wiring

/-- The variants are written beside the definition, and the links into the table. -/
structure Emits (o : Options) (d : Definition StmtTerm) (k : Knowledge) (variants : List StmtTerm)
    (k' : Knowledge) (names : List String) (links : List Link) : Prop where
  operations : k'.operations = k.operations.linkAll links
  taken : k.taken ⊆ k'.taken
  named : ∀ n ∈ names, k.Names k' n
  distinct : names.Nodup
  declared : ∀ x, x ∈ (StmtTree.define () d :: variants).flatMap StmtTree.declarations ↔
    x ∈ (StmtTree.define () d).declarations ∨ x ∈ announced names links
  derived : ∀ s ∈ variants, (∃ f operation variant, s = .wire () f operation variant) ∨
    ∃ d', s = .define () d' ∧ d'.name ∈ names ∧ VariantOf o k.operations d d'

namespace Emits

variable {o : Options} {d : Definition StmtTerm} {k k' k'' : Knowledge}
  {variants variants' : List StmtTerm} {names : List String} {links : List Link}

theorem none (o : Options) (d : Definition StmtTerm) (k : Knowledge) : Emits o d k [] k [] [] :=
  ⟨rfl, List.Subset.refl _, by simp, .nil, by simp [announced], by simp⟩

theorem known (emits : Emits o d k variants k' names links) :
    k.operations.KnownIn k'.operations := by
  rw [emits.operations]
  exact .linkAll _ _

theorem reorder (emits : Emits o d k variants k' names links) (order : variants.Perm variants') :
    Emits o d k variants' k' names links := by
  refine { emits with
    declared := fun x => ?_, derived := fun s member => emits.derived s (order.mem_iff.2 member) }
  rw [← emits.declared x]
  exact ((order.cons _).flatMap_right _).mem_iff.symm

theorem define {derived : Definition StmtTerm} (emits : Emits o d k variants k' names links)
    (made : Derived o k.operations d derived k' k'') :
    Emits o d k (variants ++ [.define () derived]) k'' (names ++ [derived.name]) links := by
  refine ⟨made.names.operations.trans emits.operations,
    List.Subset.trans emits.taken made.names.taken, ?_, ?_, ?_, ?_⟩
  · intro n member
    rcases List.mem_append.1 member with member | member
    · exact (emits.named n member).widen (List.Subset.refl _) made.names.taken
    · rw [List.mem_singleton.1 member]
      exact made.named.widen emits.taken (List.Subset.refl _)
  · refine emits.distinct.append (List.nodup_singleton _) ?_
    intro n member member'
    rw [List.mem_singleton.1 member'] at member
    exact made.named.fresh (emits.named _ member).taken
  · intro x
    have before := emits.declared x
    have inside := made.variant.declarations_body.mem_iff (a := x)
    simp only [announced, List.flatMap_cons, List.flatMap_append, List.flatMap_nil, List.append_nil,
      StmtTree.declarations_define, made.operation, List.map_append, List.map_cons, List.map_nil,
      List.mem_append, List.mem_cons, List.not_mem_nil, or_false, inside] at before ⊢
    grind
  · intro s member
    rcases List.mem_append.1 member with member | member
    · refine (emits.derived s member).imp_right ?_
      rintro ⟨d', rfl, named, variant⟩
      exact ⟨d', rfl, List.mem_append_left _ named, variant⟩
    · exact .inr ⟨derived, List.mem_singleton.1 member, by simp, made.variant⟩

theorem link {p : Progress} (emits : Emits o d k variants p.knowledge names links) (f : GateFunctor)
    (operation variant : String) : Yields (PlanM.link f operation variant) p fun s p' =>
      Emits o d k (variants ++ [s]) p'.knowledge names (links ++ [⟨f, operation, variant⟩]) := by
  intro s p' ended
  cases ended
  refine ⟨?_, emits.taken, fun n member => ?_, emits.distinct, fun x => ?_, fun s member => ?_⟩
  · rw [OperationTable.linkAll_append, ← emits.operations]
    rfl
  · exact (emits.named n member).widen (List.Subset.refl _) (List.Subset.refl _)
  · have before := emits.declared x
    simp only [announced, List.flatMap_cons, List.flatMap_append, List.flatMap_nil, List.append_nil,
      StmtTree.declarations_wire, List.map_append, List.map_cons, List.map_nil, List.mem_append,
      List.mem_cons, List.not_mem_nil, or_false] at before ⊢
    grind
  · rcases List.mem_append.1 member with member | member
    · exact emits.derived s member
    · exact .inl ⟨f, operation, variant, List.mem_singleton.1 member⟩

end Emits

section Emission

variable {o : Options} {p : Progress} {d d' : Definition StmtTerm} {k : Knowledge}
  {before : List StmtTerm} {names : List String} {links : List Link}

theorem variantName_yields (name suffix : String) :
    Yields (PlanM.freshName (variantBase name suffix)) p fun variant p' =>
      p.knowledge.TakesNames p'.knowledge ∧ p.knowledge.Names p'.knowledge variant := by
  intro variant p' ended
  have names := onlyNames.freshName _ p variant p' ended
  cases ended
  refine ⟨names, NameSupply.fresh_not_mem _ _, List.mem_cons_self, ?_⟩
  exact NameSupply.startsWith_fresh (startsWith_variantBase _ _) _

theorem modifyStats_knowledge (f : Stats → Stats) :
    Yields (PlanM.modifyStats f) p fun _ p' => p'.knowledge = p.knowledge := by
  intro b p' ended
  cases ended
  rfl

theorem deriveAdjoint_derived (emits : Emits o d k before p.knowledge names links)
    (source : VariantOf o k.operations d d') : Yields (PlanM.deriveAdjoint o d') p
      fun derived p' => Derived o k.operations d derived p.knowledge p'.knowledge := by
  unfold PlanM.deriveAdjoint
  rw [Yields.get_bind]
  refine .lift_bind fun rs ended => (variantName_yields _ _).bind ?_
  rintro name p₁ ⟨names, named⟩
  refine (modifyStats_knowledge _).bind fun _ p₂ same => .pure ?_
  rw [← same] at names named
  exact ⟨.adjoint name source emits.known ended, rfl, names, named⟩

theorem deriveControlled_derived (emits : Emits o d k before p.knowledge names links)
    (source : VariantOf o k.operations d d') : Yields (PlanM.deriveControlled o d') p
      fun derived p' => Derived o k.operations d derived p.knowledge p'.knowledge := by
  unfold PlanM.deriveControlled
  refine (onlyNames.freshName _ p).bind fun control p₁ names => ?_
  rw [Yields.get_bind]
  refine .lift_bind fun rs ended => ?_
  rw [Yields.get_bind]
  refine (variantName_yields _ _).bind ?_
  rintro name p₂ ⟨names', named⟩
  refine (modifyStats_knowledge _).bind fun _ p₃ same => .pure ?_
  rw [← same] at names' named
  have grown : k.operations.KnownIn p₁.operations := by
    rw [show p₁.operations = p.operations from names.operations]
    exact emits.known
  exact ⟨.controlled name control _ source grown ended, rfl, names.trans names',
    named.widen names.taken (List.Subset.refl _)⟩

theorem emitAdjoint_emits (d : Definition StmtTerm) :
    Yields (PlanM.emitAdjoint o d) p fun emitted p' =>
      Emits o d p.knowledge emitted.1 p'.knowledge [emitted.2] (adjointLinks d.name emitted.2) := by
  have none := Emits.none o d p.knowledge
  unfold PlanM.emitAdjoint
  refine (deriveAdjoint_derived none .self).bind fun derived p₁ made => ?_
  refine ((none.define made).link _ _ _).bind fun there p₂ linked => ?_
  exact (linked.link _ _ _).bind fun back p₃ linked' => .pure linked'

theorem emitControlled_emits (emits : Emits o d k before p.knowledge names links) :
    Yields (PlanM.emitControlled o d none) p fun emitted p' => ∃ controlled,
      Emits o d k (before ++ emitted) p'.knowledge (names ++ [controlled])
        (links ++ controlledLinks d.name controlled) := by
  unfold PlanM.emitControlled
  refine (deriveControlled_derived emits .self).bind fun controlled p₁ made => ?_
  refine ((emits.define made).link _ _ _).bind fun there p₂ linked => ?_
  refine (linked.link _ _ _).bind fun self p₃ linked' => .pure ⟨controlled.name, ?_⟩
  simpa [controlledLinks, List.append_assoc] using linked'

theorem emitControlled_emits_both (adjoint : String)
    (emits : Emits o d k before p.knowledge names links) :
    Yields (PlanM.emitControlled o d (some adjoint)) p fun emitted p' => ∃ controlled both,
      Emits o d k (before ++ emitted) p'.knowledge (names ++ [controlled, both])
        (links ++ (controlledLinks d.name controlled ++
          (adjointLinks controlled both ++ controlledLinks adjoint both))) := by
  unfold PlanM.emitControlled
  refine (deriveControlled_derived emits .self).bind fun controlled p₁ made => ?_
  have defined := emits.define made
  refine (deriveAdjoint_derived defined made.variant).bind fun both p₂ made' => ?_
  refine ((defined.define made').link _ _ _).bind fun there p₃ linked₃ => ?_
  refine (linked₃.link _ _ _).bind fun self p₄ linked₄ => ?_
  refine (linked₄.link _ _ _).bind fun down p₅ linked₅ => ?_
  refine (linked₅.link _ _ _).bind fun up p₆ linked₆ => ?_
  refine (linked₆.link _ _ _).bind fun across p₇ linked₇ => ?_
  refine (linked₇.link _ _ _).bind fun stay p₈ linked₈ => ?_
  refine .pure ⟨controlled.name, both.name, ?_⟩
  -- the definition of the last variant is written after the wirings of the one before it
  have moved : (.define () both :: ([there, self] ++ [down, up, across, stay])).Perm
      ([there, self] ++ .define () both :: [down, up, across, stay]) := List.perm_middle.symm
  have order := (moved.cons (.define () controlled)).append_left before
  simpa [controlledLinks, adjointLinks, List.append_assoc] using linked₈.reorder (by
    simpa [List.append_assoc] using order)

theorem emitVariants_emits (d : Definition StmtTerm) :
    Yields (PlanM.emitVariants o d) p fun variants p' => ∃ names links,
      Family d.name d.markers names links ∧
        Emits o d p.knowledge variants p'.knowledge names links := by
  unfold PlanM.emitVariants PlanM.requestedAdjoints PlanM.requestedControlled
  cases adjoint : d.markers.adjoint with
  | false =>
    simp only [Bool.false_eq_true, ↓reduceIte, pure_bind, List.nil_append, bind_pure]
    cases controlled : d.markers.controlled with
    | false =>
      simp only [Bool.false_eq_true, ↓reduceIte]
      have unmarked : d.markers = .none := by
        cases marked : d.markers
        simp_all [Markers.none]
      exact .pure ⟨[], [], .plain unmarked, .none _ _ _⟩
    | true =>
      simp only [↓reduceIte]
      refine (emitControlled_emits (.none o d _)).mono fun variants p' emits => ?_
      obtain ⟨name, emits⟩ := emits
      exact ⟨_, _, .controlled name controlled adjoint, emits⟩
  | true =>
    simp only [↓reduceIte, bind_assoc, pure_bind]
    refine (emitAdjoint_emits d).bind fun emitted p₁ emits => ?_
    cases controlled : d.markers.controlled with
    | false =>
      simp only [Bool.false_eq_true, ↓reduceIte, pure_bind, List.append_nil]
      exact .pure ⟨_, _, .adjoint emitted.2 adjoint controlled, emits⟩
    | true =>
      simp only [↓reduceIte]
      refine (emitControlled_emits_both emitted.2 emits).bind fun variants p₂ emits => .pure ?_
      obtain ⟨name, both, emits⟩ := emits
      exact ⟨_, _, .both emitted.2 name both adjoint controlled, emits⟩

end Emission

end QuantumLowering
