import QuantumLowering.Proofs.Lowering.Settling

/-!
The statement lists of a module and what lowering makes of them, on any tree: bodies only grow, so a list
is found again where it was, under the same statements. While a statement is lowered nothing changes what
it is nested in, since a statement that is nested in itself is never lowered to the end.
-/

namespace QuantumLowering

/-- The statement lists in a statement. With each comes whether the innermost class or definition around it
is a class, where `method` says so of the statement. -/
def Stmt.blocks {ι : Type} (method : Bool) : Stmt ι → List (Bool × List ι)
  | .define d => [(false, d.body)]
  | .classDef _ body => [(true, body)]
  | .scoped _ _ body => [(method, body)]
  | .conditional _ body orelse => [(method, body), (method, orelse)]
  | _ => []

theorem Stmt.exists_mem_blocks {ι : Type} {s : Stmt ι} {method inner : Bool} {body : List ι}
    (holds : (inner, body) ∈ s.blocks method) (method' : Bool) :
    ∃ inner', (inner', body) ∈ s.blocks method' := by
  cases s with
  | conditional test first orelse =>
    refine ⟨method', ?_⟩
    simp only [Stmt.blocks, List.mem_cons, Prod.mk.injEq, List.not_mem_nil, or_false, true_and]
      at holds ⊢
    exact holds.imp And.right And.right
  | _ => simp_all [Stmt.blocks]

/-- The path leads from a statement list to another one: from statement to statement, each in a list of the
one before. The flags tell whether the innermost class or definition around the list is a class. -/
inductive SyntaxTree.Nests (t : SyntaxTree) : Bool → List NodeId → List NodeId → Bool → List NodeId → Prop
    where
  | here (method : Bool) (block : List NodeId) : Nests t method block [] method block
  | inside {method inner method' : Bool} {block body block' path : List NodeId} {owner : NodeId}
    {s : Stmt NodeId} (listed : owner ∈ block) (found : t.nodes[owner]? = some (.stmt s))
    (holds : (inner, body) ∈ s.blocks method) (deeper : Nests t inner body path method' block') :
    Nests t method block (owner :: path) method' block'

inductive SyntaxTree.Deep (t : SyntaxTree) : Nat → NodeId → NodeId → Prop where
  | refl (id : NodeId) : Deep t 0 id id
  | step {n : Nat} {outer owner id : NodeId} {s : Stmt NodeId} {method inner : Bool} {body : List NodeId}
    (found : t.nodes[outer]? = some (.stmt s)) (holds : (inner, body) ∈ s.blocks method)
    (listed : owner ∈ body) (deeper : Deep t n owner id) : Deep t (n + 1) outer id

namespace SyntaxTree.Deep

variable {t : SyntaxTree} {m n : Nat} {a b c : NodeId}

theorem trans (first : t.Deep m a b) (second : t.Deep n b c) : t.Deep (m + n) a c := by
  induction first with
  | refl => simpa using second
  | @step m outer owner id s method inner body found holds listed _ ih =>
    rw [Nat.add_right_comm]
    exact .step found holds listed (ih second)

theorem exists_deeper (cycle : t.Deep (n + 1) a a) (m : Nat) : ∃ k, m ≤ k ∧ t.Deep k a a := by
  induction m with
  | zero => exact ⟨0, Nat.le_refl 0, .refl a⟩
  | succ m ih =>
    obtain ⟨k, bound, deep⟩ := ih
    exact ⟨n + 1 + k, by omega, cycle.trans deep⟩

end SyntaxTree.Deep

/-- What lowering may make of a statement: its lists grow where they are, definitions keep all but the
body, and wirings stay. -/
structure Stmt.Grown (s s' : Stmt NodeId) : Prop where
  blocks : ∀ method inner body, (inner, body) ∈ s.blocks method →
    ∃ body', (inner, body') ∈ s'.blocks method ∧ body ⊆ body'
  define : ∀ d, s = .define d → ∃ body, s' = .define { d with body := body }
  wire : ∀ f operation variant, s = .wire f operation variant → s' = s

namespace Stmt.Grown

variable {s s' s'' : Stmt NodeId}

theorem refl (s : Stmt NodeId) : s.Grown s :=
  ⟨fun _ _ body holds => ⟨body, holds, fun _ member => member⟩, fun d same => ⟨d.body, same⟩,
    fun _ _ _ _ => rfl⟩

theorem trans (first : s.Grown s') (second : s'.Grown s'') : s.Grown s'' where
  blocks method inner body holds := by
    obtain ⟨body', holds', kept⟩ := first.blocks method inner body holds
    obtain ⟨body'', holds'', kept'⟩ := second.blocks method inner body' holds'
    exact ⟨body'', holds'', fun _ member => kept' (kept member)⟩
  define d same := by
    obtain ⟨body, rfl⟩ := first.define d same
    exact second.define { d with body := body } rfl
  wire f operation variant same := by
    have kept := first.wire f operation variant same
    exact (second.wire f operation variant (kept.trans same)).trans kept

variable {body body' orelse orelse' : List NodeId}

theorem definition {d : Definition NodeId} (kept : d.body ⊆ body) :
    (Stmt.define d).Grown (.define { d with body := body }) where
  blocks method inner old holds := by
    obtain ⟨rfl, rfl⟩ : inner = false ∧ old = d.body := by simpa [Stmt.blocks] using holds
    exact ⟨body, by simp [Stmt.blocks], kept⟩
  define d' same := by
    cases same
    exact ⟨body, rfl⟩
  wire _ _ _ same := by cases same

theorem scopedBody {context : NodeId} {binding : Option NodeId} (kept : body ⊆ body') :
    (Stmt.scoped context binding body).Grown (.scoped context binding body') where
  blocks method inner old holds := by
    obtain ⟨rfl, rfl⟩ : inner = method ∧ old = body := by simpa [Stmt.blocks] using holds
    exact ⟨body', by simp [Stmt.blocks], kept⟩
  define _ same := by cases same
  wire _ _ _ same := by cases same

theorem branches {test : NodeId} (kept : body ⊆ body') (kept' : orelse ⊆ orelse') :
    (Stmt.conditional test body orelse).Grown (.conditional test body' orelse') where
  blocks method inner old holds := by
    simp only [Stmt.blocks, List.mem_cons, Prod.mk.injEq, List.not_mem_nil, or_false] at holds
    rcases holds with ⟨rfl, rfl⟩ | ⟨rfl, rfl⟩
    · exact ⟨body', by simp [Stmt.blocks], kept⟩
    · exact ⟨orelse', by simp [Stmt.blocks], kept'⟩
  define _ same := by cases same
  wire _ _ _ same := by cases same

theorem controlScope {test context : NodeId} {binding : Option NodeId} (kept : body ⊆ body') :
    (Stmt.conditional test body []).Grown (.scoped context binding body') where
  blocks method inner old holds := by
    simp only [Stmt.blocks, List.mem_cons, Prod.mk.injEq, List.not_mem_nil, or_false] at holds
    rcases holds with ⟨rfl, rfl⟩ | ⟨rfl, rfl⟩
    · exact ⟨body', by simp [Stmt.blocks], kept⟩
    · exact ⟨body', by simp [Stmt.blocks], List.nil_subset body'⟩
  define _ same := by cases same
  wire _ _ _ same := by cases same

end Stmt.Grown

def Grows (t t' : SyntaxTree) : Prop :=
  ∀ (id : NodeId) (s : Stmt NodeId), t.nodes[id]? = some (.stmt s) →
    ∃ s', t'.nodes[id]? = some (.stmt s') ∧ s.Grown s'

theorem Settled.grows {t t' : SyntaxTree} (settled : Settled [] t t') : Grows t t' :=
  fun id s found => ⟨s, settled id s (by simp) found, .refl s⟩

namespace Grows

variable {t t' t'' : SyntaxTree}

theorem refl (t : SyntaxTree) : Grows t t := (Settled.refl [] t).grows

theorem trans (first : Grows t t') (second : Grows t' t'') : Grows t t'' := by
  intro id s found
  obtain ⟨s', found', grown⟩ := first id s found
  obtain ⟨s'', found'', grown'⟩ := second id s' found'
  exact ⟨s'', found'', grown.trans grown'⟩

theorem deep (grows : Grows t t') {n : Nat} {a b : NodeId} (deep : t.Deep n a b) : t'.Deep n a b := by
  induction deep with
  | refl a => exact .refl a
  | step found holds listed _ ih =>
    obtain ⟨s', found', grown⟩ := grows _ _ found
    obtain ⟨body', holds', kept⟩ := grown.blocks _ _ _ holds
    exact .step found' holds' (kept listed) ih

theorem nests (grows : Grows t t') {method method' : Bool} {block larger block' path : List NodeId}
    (nests : t.Nests method block path method' block') (kept : block ⊆ larger) :
    ∃ larger', t'.Nests method larger path method' larger' ∧ block' ⊆ larger' := by
  induction nests generalizing larger with
  | here method block => exact ⟨larger, .here method larger, kept⟩
  | inside listed found holds _ ih =>
    obtain ⟨s', found', grown⟩ := grows _ _ found
    obtain ⟨body', holds', kept'⟩ := grown.blocks _ _ _ holds
    obtain ⟨larger', deeper, grown'⟩ := ih kept'
    exact ⟨larger', .inside (kept listed) found' holds' deeper, grown'⟩

end Grows

def SyntaxTree.Defines (t : SyntaxTree) (block : List NodeId) (name : String) (params : List String) :
    Prop :=
  ∃ id ∈ block, ∃ body, t.nodes[id]? = some (.stmt (.define ⟨name, params, body, some .none⟩))

def SyntaxTree.Wires (t : SyntaxTree) (block : List NodeId) (f : GateFunctor)
    (operation variant : String) : Prop :=
  ∃ id ∈ block, t.nodes[id]? = some (.stmt (.wire f operation variant))

/-- Among the statements are a definition wired to be the controlled form of the given one and, if that has
an adjoint form, a definition wired to be the adjoint of the controlled form. Both have the parameters of
the given definition and a new one in the place that a control takes; the names are new as well. -/
def SyntaxTree.HasControlled (t : SyntaxTree) (old : String → Prop) (method : Bool)
    (d : Definition NodeId) (block : List NodeId) : Prop :=
  ∃ control name, ¬ old control ∧ ¬ old name ∧
    t.Defines block name (d.params.insertIdx (LowerM.controlPosition method d.params) control) ∧
    t.Wires block .controlled d.name name ∧
    (d.markers.adjoint → ∃ both, ¬ old both ∧
      t.Defines block both (d.params.insertIdx (LowerM.controlPosition method d.params) control) ∧
      t.Wires block .adjoint name both)

namespace Grows

variable {t t' : SyntaxTree} {block block' : List NodeId} (grows : Grows t t') (kept : block ⊆ block')

include grows kept

theorem defines {name : String} {params : List String} (defines : t.Defines block name params) :
    t'.Defines block' name params := by
  obtain ⟨id, listed, body, found⟩ := defines
  obtain ⟨s', found', grown⟩ := grows id _ found
  obtain ⟨body', rfl⟩ := grown.define _ rfl
  exact ⟨id, kept listed, body', found'⟩

theorem wires {f : GateFunctor} {operation variant : String} (wires : t.Wires block f operation variant) :
    t'.Wires block' f operation variant := by
  obtain ⟨id, listed, found⟩ := wires
  obtain ⟨s', found', grown⟩ := grows id _ found
  obtain rfl := grown.wire _ _ _ rfl
  exact ⟨id, kept listed, found'⟩

theorem hasControlled {old : String → Prop} {method : Bool} {d : Definition NodeId}
    (has : t.HasControlled old method d block) : t'.HasControlled old method d block' := by
  obtain ⟨control, name, fresh, fresh', definition, wiring, adjoint⟩ := has
  refine ⟨control, name, fresh, fresh', grows.defines kept definition, grows.wires kept wiring, ?_⟩
  intro marked
  obtain ⟨both, fresh'', definition', wiring'⟩ := adjoint marked
  exact ⟨both, fresh'', grows.defines kept definition', grows.wires kept wiring'⟩

end Grows

/-- The statements of one list are in the other, and with them the controlled forms asked for by the
definitions that the first tree has in it. -/
def Served (old : String → Prop) (t t' : SyntaxTree) (method : Bool) (block block' : List NodeId) : Prop :=
  block ⊆ block' ∧ ∀ id ∈ block, ∀ d, t.nodes[id]? = some (.stmt (.define d)) → d.markers.controlled →
    t'.HasControlled old method d block'

namespace Served

variable {old : String → Prop} {t t₁ t' : SyntaxTree} {method : Bool} {block block₁ block' : List NodeId}

theorem after (served : Served old t t₁ method block block₁) (grows : Grows t₁ t')
    (kept : block₁ ⊆ block') : Served old t t' method block block' :=
  ⟨fun _ member => kept (served.1 member), fun id member d found marked =>
    grows.hasControlled kept (served.2 id member d found marked)⟩

theorem before (served : Served old t₁ t' method block₁ block') (grows : Grows t t₁)
    (kept : block ⊆ block₁) : Served old t t' method block block' := by
  refine ⟨fun _ member => served.1 (kept member), fun id member d found marked => ?_⟩
  obtain ⟨s', found', grown⟩ := grows id _ found
  obtain ⟨body, rfl⟩ := grown.define _ rfl
  exact served.2 id (kept member) { d with body := body } found' marked

theorem append {block' larger larger' : List NodeId} (first : Served old t t' method block larger)
    (second : Served old t t' method block' larger') :
    Served old t t' method (block ++ block') (larger ++ larger') := by
  have left := first.after (.refl t') (List.subset_append_left larger larger')
  have right := second.after (.refl t') (List.subset_append_right larger larger')
  refine ⟨List.append_subset.2 ⟨left.1, right.1⟩, fun id member => ?_⟩
  rcases List.mem_append.1 member with member | member
  · exact left.2 id member
  · exact right.2 id member

end Served

/-- What is left of statement lists when they have been lowered, nested to less than the depth: every list
in them is served where it was, and the statements they are nested in are untouched. -/
structure Covers (old : String → Prop) (depth : Nat) (t : SyntaxTree)
    (blocks outs : List (Bool × List NodeId)) (t' : SyntaxTree) : Prop where
  grows : Grows t t'
  bounded : ∀ block ∈ blocks, ∀ id ∈ block.2, ∀ n inner, t.Deep n id inner → n < depth
  steady : ∀ outer s, t.nodes[outer]? = some (.stmt s) →
    (∀ block ∈ blocks, ∀ id ∈ block.2, ∃ n, t.Deep (n + 1) outer id) → t'.nodes[outer]? = some (.stmt s)
  serves : ∀ block ∈ blocks, ∀ path method inner, t.Nests block.1 block.2 path method inner →
    ∃ out, (block.1, out) ∈ outs ∧ ∃ inner', t'.Nests block.1 out path method inner' ∧
      Served old t t' method inner inner'

namespace Covers

variable {old : String → Prop} {depth : Nat} {t t₁ t' : SyntaxTree}
  {blocks blocks' outs outs' : List (Bool × List NodeId)} {method : Bool}
  {block block' out out' : List NodeId}

theorem nil (settled : Settled [] t t') : Covers old depth t [] [] t' where
  grows := settled.grows
  bounded := by simp
  steady outer s found _ := settled outer s (by simp) found
  serves := by simp

theorem empty (t : SyntaxTree) (method : Bool) : Covers old depth t [(method, [])] [(method, [])] t where
  grows := .refl t
  bounded := by simp
  steady outer s found _ := found
  serves := by
    intro block member path method' inner nests
    obtain rfl := List.mem_singleton.1 member
    cases nests with
    | here => exact ⟨[], by simp, [], .here method [], fun _ member => member, by simp⟩
    | inside listed => cases listed

theorem append (first : Covers old depth t blocks outs t₁) (second : Covers old depth t₁ blocks' outs' t') :
    Covers old depth t (blocks ++ blocks') (outs ++ outs') t' where
  grows := first.grows.trans second.grows
  bounded block member id listed n inner deep := by
    rcases List.mem_append.1 member with member | member
    · exact first.bounded block member id listed n inner deep
    · exact second.bounded block member id listed n inner (first.grows.deep deep)
  steady outer s found nested := by
    have between := first.steady outer s found fun block member =>
      nested block (List.mem_append_left _ member)
    refine second.steady outer s between fun block member id listed => ?_
    obtain ⟨n, deep⟩ := nested block (List.mem_append_right _ member) id listed
    exact ⟨n, first.grows.deep deep⟩
  serves block member path method inner nests := by
    rcases List.mem_append.1 member with member | member
    · obtain ⟨out, given, inner₁, nests₁, served⟩ := first.serves block member path method inner nests
      obtain ⟨inner', nests', kept⟩ := second.grows.nests nests₁ fun _ member => member
      exact ⟨out, List.mem_append_left _ given, inner', nests', served.after second.grows kept⟩
    · obtain ⟨inner₁, nests₁, kept⟩ := first.grows.nests nests fun _ member => member
      obtain ⟨out, given, inner', nests', served⟩ := second.serves block member path method inner₁ nests₁
      exact ⟨out, List.mem_append_right _ given, inner', nests', served.before first.grows kept⟩

theorem before (covers : Covers old depth t₁ blocks outs t') (settled : Settled [] t t₁) :
    Covers old depth t blocks outs t' :=
  (nil settled).append covers

theorem after (covers : Covers old depth t blocks outs t₁) (settled : Settled [] t₁ t') :
    Covers old depth t blocks outs t' := by
  have followed := covers.append (nil settled)
  rwa [List.append_nil, List.append_nil] at followed

theorem serves_singleton (covers : Covers old depth t [(method, block)] [(method, out)] t')
    {path inner : List NodeId} {method' : Bool} (nests : t.Nests method block path method' inner) :
    ∃ inner', t'.Nests method out path method' inner' ∧ Served old t t' method' inner inner' := by
  obtain ⟨out', given, found⟩ := covers.serves _ (List.mem_singleton_self _) path method' inner nests
  obtain rfl : out' = out := by simpa using given
  exact found

theorem served (covers : Covers old depth t [(method, block)] [(method, out)] t') :
    Served old t t' method block out := by
  obtain ⟨inner', nests', served⟩ := covers.serves_singleton (.here method block)
  cases nests'
  exact served

theorem join (first : Covers old depth t [(method, block)] [(method, out)] t₁)
    (second : Covers old depth t₁ [(method, block')] [(method, out')] t') :
    Covers old depth t [(method, block ++ block')] [(method, out ++ out')] t' := by
  have both := first.append second
  refine ⟨both.grows, ?_, ?_, ?_⟩
  · intro whole member id listed
    obtain rfl := List.mem_singleton.1 member
    rcases List.mem_append.1 listed with listed | listed
    · exact both.bounded (method, block) (by simp) id listed
    · exact both.bounded (method, block') (by simp) id listed
  · intro outer s found nested
    refine both.steady outer s found fun part given id listed => ?_
    refine nested _ (List.mem_singleton_self _) id ?_
    simp only [List.cons_append, List.nil_append, List.mem_cons, List.not_mem_nil, or_false] at given
    rcases given with rfl | rfl
    · exact List.mem_append_left _ listed
    · exact List.mem_append_right _ listed
  · intro whole member path method' inner nests
    obtain rfl := List.mem_singleton.1 member
    refine ⟨out ++ out', List.mem_singleton_self _, ?_⟩
    cases nests with
    | here =>
      have left := first.served.after second.grows fun _ member => member
      have right := second.served.before first.grows fun _ member => member
      exact ⟨out ++ out', .here method _, left.append right⟩
    | inside listed found holds deeper =>
      rcases List.mem_append.1 listed with listed | listed
      · obtain ⟨inner₁, nests₁, served⟩ := first.serves_singleton (.inside listed found holds deeper)
        obtain ⟨inner', nests', kept⟩ :=
          second.grows.nests nests₁ (List.subset_append_left out out')
        exact ⟨inner', nests', served.after second.grows kept⟩
      · obtain ⟨inner₁, nests₁, kept⟩ :=
          first.grows.nests (.inside listed found holds deeper) fun _ member => member
        obtain ⟨inner₂, nests₂, served⟩ := second.serves_singleton nests₁
        obtain ⟨inner', nests', kept'⟩ :=
          (Grows.refl t').nests nests₂ (List.subset_append_right out out')
        exact ⟨inner', nests', (served.before first.grows kept).after (.refl t') kept'⟩

theorem enclose {id : NodeId} {s : Stmt NodeId} {rs : List NodeId} (found : t.nodes[id]? = some (.stmt s))
    (covers : Covers old depth t (s.blocks method) outs t₁) (others : Settled [id] t₁ t')
    (replaced : t₁.nodes[id]? = some (.stmt s) → ∃ s', t'.nodes[id]? = some (.stmt s') ∧ s.Grown s' ∧
      ∀ out ∈ outs, ∃ body, (out.1, body) ∈ s'.blocks method ∧ out.2 ⊆ body)
    (listed : id ∈ rs)
    (derived : ∀ d, s = .define d → d.markers.controlled → t'.HasControlled old method d rs) :
    Covers old (depth + 1) t [(method, [id])] [(method, rs)] t' := by
  -- the statement is untouched while the lists in it are lowered
  have untouched : t₁.nodes[id]? = some (.stmt s) :=
    covers.steady id s found fun block member inner listed => ⟨0, .step found member listed (.refl inner)⟩
  obtain ⟨s', found', grown, carried⟩ := replaced untouched
  have grows : Grows t₁ t' := by
    intro other s₁ found₁
    by_cases same : other = id
    · subst same
      cases untouched.symm.trans found₁
      exact ⟨s', found', grown⟩
    · exact ⟨s₁, others other s₁ (by simpa using same) found₁, .refl s₁⟩
  have bounded : ∀ n inner, t.Deep n id inner → n < depth + 1 := by
    intro n inner deep
    cases deep with
    | refl => omega
    | step found₁ holds listed deeper =>
      cases found.symm.trans found₁
      obtain ⟨flag, holds⟩ := Stmt.exists_mem_blocks holds method
      have bound := covers.bounded _ holds _ listed _ _ deeper
      omega
  refine ⟨covers.grows.trans grows, ?_, ?_, ?_⟩
  · intro block member owner listed
    obtain rfl := List.mem_singleton.1 member
    obtain rfl := List.mem_singleton.1 listed
    exact bounded
  · intro outer s₁ found₁ nested
    obtain ⟨n, deep⟩ := nested _ (List.mem_singleton_self _) id (List.mem_singleton_self _)
    have differ : outer ≠ id := by
      -- nested in itself, it would be so to any depth, and the run is bounded
      rintro rfl
      obtain ⟨k, long, deeper⟩ := deep.exists_deeper (depth + 1)
      exact absurd (bounded k _ deeper) (by omega)
    refine others outer s₁ (by simpa using differ) (covers.steady outer s₁ found₁ ?_)
    intro block member inner listed
    exact ⟨n + 1, deep.trans (.step found member listed (.refl inner))⟩
  · intro block member path method' inner nests
    obtain rfl := List.mem_singleton.1 member
    refine ⟨rs, List.mem_singleton_self _, ?_⟩
    cases nests with
    | here =>
      refine ⟨rs, .here method rs, List.cons_subset.2 ⟨listed, List.nil_subset rs⟩, ?_⟩
      intro owner member d there marked
      obtain rfl := List.mem_singleton.1 member
      cases found.symm.trans there
      exact derived d rfl marked
    | inside owned found₁ holds deeper =>
      obtain rfl := List.mem_singleton.1 owned
      cases found.symm.trans found₁
      obtain ⟨out, given, inner₁, nests₁, served⟩ := covers.serves _ holds _ _ _ deeper
      obtain ⟨body, holds', kept⟩ := carried _ given
      obtain ⟨inner', nests', kept'⟩ := grows.nests nests₁ kept
      exact ⟨inner', .inside listed found' holds' nests', served.after grows kept'⟩

end Covers

end QuantumLowering
