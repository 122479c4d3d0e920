import QuantumLowering.Proofs.Lowering.Ordering
import QuantumLowering.Proofs.Lowering.Translation

namespace QuantumLowering

def Defines (list : List StmtTerm) (name : String) : Prop :=
  ∃ d : Definition StmtTerm, .define () d ∈ list ∧ d.name = name

/-- Before every wiring of the list stand a definition of its operation and one of its variant. -/
def WiresFollow (list : List StmtTerm) : Prop :=
  ∀ before f operation variant after,
    list = before ++ StmtTree.wire () f operation variant :: after →
      Defines before operation ∧ Defines before variant

/-- The wirings link names that were defined before. -/
def Announced : List String → List Declaration → Prop
  | _, [] => True
  | seen, .definition name _ :: ds => Announced (name :: seen) ds
  | seen, .wiring l :: ds => l.operation ∈ seen ∧ l.variant ∈ seen ∧ Announced seen ds

def declared (list : List StmtTerm) : List Declaration := list.filterMap StmtTree.declaration?

namespace Announced

variable {seen seen' : List String} {ds ds' : List Declaration}

theorem mono (announced : Announced seen ds) (more : seen ⊆ seen') : Announced seen' ds := by
  induction ds generalizing seen seen' with
  | nil => trivial
  | cons d ds ih =>
    cases d with
    | definition name operation => exact ih announced (List.cons_subset_cons name more)
    | wiring l => exact ⟨more announced.1, more announced.2.1, ih announced.2.2 more⟩

theorem append_iff : Announced seen (ds ++ ds') ↔
    Announced seen ds ∧ Announced ((definedNames ds).reverse ++ seen) ds' := by
  induction ds generalizing seen with
  | nil => exact (and_iff_right trivial).symm
  | cons d ds ih =>
    cases d with
    | definition name operation =>
      have names : (definedNames (.definition name operation :: ds)).reverse ++ seen =
          (definedNames ds).reverse ++ name :: seen := by
        simp [definedNames, Declaration.definition?]
      simp only [List.cons_append, Announced, ih, names]
    | wiring l =>
      have names : definedNames (.wiring l :: ds) = definedNames ds := rfl
      simp only [List.cons_append, Announced, ih, names, and_assoc]

theorem append (first : Announced [] ds) (second : Announced [] ds') : Announced [] (ds ++ ds') :=
  append_iff.2 ⟨first, second.mono (List.nil_subset _)⟩

end Announced

theorem mem_defined_declared {list : List StmtTerm} {name : String} :
    name ∈ definedNames (declared list) ↔ Defines list name := by
  rw [declared, definedNames, List.filterMap_filterMap, List.mem_filterMap]
  constructor
  · rintro ⟨s, inside, named⟩
    cases s with
    | define label d =>
      cases named
      exact ⟨d, inside, rfl⟩
    | _ => cases named
  · rintro ⟨d, inside, rfl⟩
    exact ⟨_, inside, rfl⟩

theorem wiresFollow_iff {list : List StmtTerm} :
    WiresFollow list ↔ Announced [] (declared list) := by
  constructor
  · intro follow
    -- the wirings link what stands before them in a longer list, of which this is the end
    have ending : ∀ before after, list = before ++ after →
        Announced ((definedNames (declared before)).reverse) (declared after) := by
      intro before after whole
      induction after generalizing before with
      | nil => trivial
      | cons s after ih =>
        have rest := ih (before ++ [s]) (by simp [whole])
        have joined : declared (before ++ [s]) = declared before ++ declared [s] :=
          List.filterMap_append
        have split : declared (s :: after) = declared [s] ++ declared after :=
          List.filterMap_append (l := [s])
        rw [joined, definedNames, List.filterMap_append, List.reverse_append] at rest
        rw [split, Announced.append_iff]
        refine ⟨?_, rest⟩
        cases s with
        | wire label f operation variant =>
          obtain ⟨operation_mem, variant_mem⟩ := follow before f operation variant after whole
          refine ⟨?_, ?_, trivial⟩
          · exact List.mem_reverse.2 (mem_defined_declared.2 operation_mem)
          · exact List.mem_reverse.2 (mem_defined_declared.2 variant_mem)
        | _ => trivial
    exact ending [] list rfl
  · rintro announced before f operation variant after rfl
    rw [declared, List.filterMap_append] at announced
    obtain ⟨operation_mem, variant_mem, -⟩ := (Announced.append_iff.1 announced).2
    simp only [List.append_nil, List.mem_reverse] at operation_mem variant_mem
    exact ⟨mem_defined_declared.1 operation_mem, mem_defined_declared.1 variant_mem⟩

theorem WiresFollow.of_declared_eq {list list' : List StmtTerm} (follow : WiresFollow list)
    (same : declared list' = declared list) : WiresFollow list' := by
  rw [wiresFollow_iff] at follow ⊢
  rwa [same]

theorem WiresFollow.append {list list' : List StmtTerm} (first : WiresFollow list)
    (second : WiresFollow list') : WiresFollow (list ++ list') := by
  rw [wiresFollow_iff] at first second ⊢
  unfold declared
  rw [List.filterMap_append]
  exact first.append second

/-- The lists inside the statement, each with whether it belongs to an adjoint form and whether the form
turns it round. Adjoint forms are known by their names. They turn round their bodies and the bodies of
the control scopes in them. -/
def StmtTree.orderedLists (o : Options) (adjoints : List String) (adjoint : Bool) :
    StmtTerm → List (Bool × Bool × List StmtTerm)
  | .define _ d => [(d.name ∈ adjoints, d.name ∈ adjoints, d.body)]
  | .classDef _ _ body => [(false, false, body)]
  | .scoped _ context _ body => [(adjoint, adjoint && context.isControlScope o, body)]
  | .conditional _ _ body orelse => [(adjoint, false, body), (adjoint, false, orelse)]
  | _ => []

/-- The wirings of the block, and of every list inside it, come after the definitions they link, or
before them where an adjoint form has turned the list round. -/
inductive LinksInOrder (o : Options) (adjoints : List String) : Bool → Bool → List StmtTerm → Prop where
  | intro {adjoint turned : Bool} {block : List StmtTerm} (here : WiresFollow (turnedList turned block))
    (within : ∀ s ∈ block, ∀ inner ∈ s.orderedLists o adjoints adjoint,
      LinksInOrder o adjoints inner.1 inner.2.1 inner.2.2) :
    LinksInOrder o adjoints adjoint turned block

namespace LinksInOrder

variable {o : Options} {adjoints : List String} {adjoint : Bool} {block block' : List StmtTerm}

theorem append (first : LinksInOrder o adjoints adjoint false block)
    (second : LinksInOrder o adjoints adjoint false block') :
    LinksInOrder o adjoints adjoint false (block ++ block') := by
  obtain ⟨here, within⟩ := first
  obtain ⟨here', within'⟩ := second
  refine .intro (here.append here') fun s inside => ?_
  rcases List.mem_append.1 inside with inside | inside
  · exact within s inside
  · exact within' s inside

theorem singleton {s : StmtTerm} (unwired : ∀ l, s.declaration? ≠ some (.wiring l))
    (within : ∀ inner ∈ s.orderedLists o adjoints adjoint,
      LinksInOrder o adjoints inner.1 inner.2.1 inner.2.2) :
    LinksInOrder o adjoints adjoint false [s] := by
  refine .intro ?_ fun s' inside => List.mem_singleton.1 inside ▸ within
  rw [turnedList, if_neg (by simp), wiresFollow_iff, declared, List.filterMap_cons]
  split
  · trivial
  · rename_i d declares
    cases d with
    | definition name operation => trivial
    | wiring l => exact absurd declares (unwired l)

theorem insert {front batch back : List StmtTerm}
    (inOrder : LinksInOrder o adjoints adjoint false (front ++ back))
    (assigns : ∀ s ∈ batch, ∃ target value, s = .assign () target value) :
    LinksInOrder o adjoints adjoint false (front ++ batch ++ back) := by
  obtain ⟨here, within⟩ := inOrder
  have nothing : declared batch = [] := by
    refine List.filterMap_eq_nil_iff.2 fun s inside => ?_
    obtain ⟨target, value, rfl⟩ := assigns s inside
    rfl
  refine .intro (WiresFollow.of_declared_eq here ?_) fun s inside => ?_
  · unfold declared at nothing ⊢
    simp only [turnedList, Bool.false_eq_true, if_false, List.filterMap_append, nothing,
      List.append_nil]
  · rcases List.mem_append.1 inside with inside | last
    · rcases List.mem_append.1 inside with first | added
      · exact within s (List.mem_append_left _ first)
      · obtain ⟨target, value, rfl⟩ := assigns s added
        exact fun _ none => absurd none List.not_mem_nil
    · exact within s (List.mem_append_right _ last)

section Rewriting

variable {rule : CallRule} {reversed : ExprTerm → Bool}

theorem declared_mapM {rs : List StmtTerm}
    (ended : block.mapM (rule.rewriteStmt reversed) = .ok rs) : declared rs = declared block := by
  have pairs := Plan.mapM_eq_ok ended
  clear ended
  induction pairs with
  | nil => rfl
  | cons here _ ih =>
    unfold declared at ih ⊢
    rw [List.filterMap_cons, List.filterMap_cons, CallRule.declaration?_of_keeps (.inr here), ih]

/-- A block in order has copies in order: with a control as it is, and for the adjoint turned round, as
are the bodies of its control scopes. The definitions in it are not copies, they stay as they are. -/
theorem rewritten {mode turned : Bool} {rs : List StmtTerm}
    (turns : ∀ context, reversed context = (adjoint && context.isControlScope o))
    (inOrder : LinksInOrder o adjoints mode turned block) (plain : mode = false)
    (straight : turned = false) (ended : block.mapM (rule.rewriteStmt reversed) = .ok rs)
    (round : Bool) : LinksInOrder o adjoints adjoint round (turnedList round rs) := by
  induction inOrder generalizing rs round with
  | @intro _ _ block here within ih =>
    subst plain straight
    refine .intro ?_ fun r inside => ?_
    · rw [turnedList_turnedList]
      exact WiresFollow.of_declared_eq here (declared_mapM ended)
    have listed : r ∈ rs := by
      cases round with
      | false => exact inside
      | true => exact List.mem_reverse.1 inside
    obtain ⟨s, original, ran⟩ := Plan.exists_of_mem ended listed
    have old := within s original
    have copies := ih s original
    intro inner member
    cases CallRule.rewritten ran with
    | kept closed =>
      cases r with
      | define label d | classDef label name body => exact old inner member
      | importAs _ _ _ | wire _ _ _ _ | pass _ => cases member
      | expr _ _ | assign _ _ _ | «scoped» _ _ _ _ | conditional _ _ _ _ => cases closed
    | expr _ | assign _ => cases member
    | @scope context binding body rs ended =>
      rw [StmtTree.orderedLists, List.mem_singleton] at member
      subst member
      rw [← turns context]
      exact copies (false, false, body) (by simp [StmtTree.orderedLists]) rfl rfl ended _
    | @conditional test body orelse rs rs' ended ended' =>
      simp only [StmtTree.orderedLists, List.mem_cons, List.not_mem_nil, or_false] at member
      rcases member with rfl | rfl
      · exact copies (false, false, body) (by simp [StmtTree.orderedLists]) rfl rfl ended false
      · exact copies (false, false, orelse) (by simp [StmtTree.orderedLists]) rfl rfl ended' false

theorem controlled {table : OperationTable} {control : String} {rs : List StmtTerm}
    (inOrder : LinksInOrder o adjoints false false block)
    (ended : controlStmts table control block = .ok rs) : LinksInOrder o adjoints false false rs :=
  rewritten (by simp) inOrder rfl rfl ended false

theorem adjoints_of {table : OperationTable} {rs : List StmtTerm}
    (inOrder : LinksInOrder o adjoints false false block)
    (ended : adjointStmts table o block = .ok rs) : LinksInOrder o adjoints true true rs := by
  obtain ⟨copies, ran, same⟩ := Plan.bind_eq_ok.1 ended
  cases same
  exact rewritten (by simp) inOrder rfl rfl ran true

end Rewriting

end LinksInOrder

def Declaration.Ordinary (adjoints : List String) : Declaration → Prop
  | .definition name _ => name ∉ adjoints
  | .wiring _ => False

def ListsInOrder (o : Options) (adjoints : List String) (s : StmtTerm) : Prop :=
  ∀ inner ∈ s.orderedLists o adjoints false, LinksInOrder o adjoints inner.1 inner.2.1 inner.2.2

section Derived

variable {o : Options} {adjoints : List String} {d form : Definition StmtTerm}

theorem listsInOrder_define (plain : d.name ∉ adjoints)
    (within : LinksInOrder o adjoints false false d.body) : ListsInOrder o adjoints (.define () d) := by
  intro inner member
  rw [StmtTree.orderedLists, List.mem_singleton, decide_eq_false plain] at member
  rw [member]
  exact within

theorem AdjointForm.listsInOrder (derived : AdjointForm o d form) (named : form.name ∈ adjoints)
    (within : LinksInOrder o adjoints false false d.body) :
    ListsInOrder o adjoints (.define () form) := by
  obtain ⟨table, ended⟩ := derived.body
  intro inner member
  rw [StmtTree.orderedLists, List.mem_singleton, decide_eq_true named] at member
  rw [member]
  exact within.adjoints_of ended

theorem ControlledForm.linksInOrder {position : Nat} {control : String}
    (derived : ControlledForm position control d form)
    (within : LinksInOrder o adjoints false false d.body) :
    LinksInOrder o adjoints false false form.body := by
  obtain ⟨table, ended⟩ := derived.body
  exact within.controlled ended

theorem listsInOrder_wirings (links : List Link) : ∀ s ∈ wirings links, ListsInOrder o adjoints s := by
  intro s member
  obtain ⟨l, -, rfl⟩ := List.mem_map.1 member
  exact fun _ none => absurd none List.not_mem_nil

end Derived

theorem Expansion.linksInOrder {o : Options} {adjoints : List String} {position : Nat}
    {d : Definition StmtTerm} {variants : List StmtTerm} {names : List (Purpose × String)}
    (expands : Expansion o position d variants names)
    (roles : ∀ handed ∈ names, handed.2 ∈ adjoints ↔ handed.1 = .adjointForm)
    (plain : d.name ∉ adjoints) (within : LinksInOrder o adjoints false false d.body) :
    LinksInOrder o adjoints false false (.define () d :: variants) := by
  have original := listsInOrder_define plain within
  have adjointForm : ∀ name, (.adjointForm, name) ∈ names → name ∈ adjoints :=
    fun name handed => (roles _ handed).2 rfl
  have controlledForm : ∀ name, (.controlledForm, name) ∈ names → name ∉ adjoints := by
    intro name handed member
    cases (roles _ handed).1 member
  cases expands with
  | plain unmarked => exact .singleton (by simp [StmtTree.declaration?]) original
  | @adjoint form marked derived =>
    have lists := derived.listsInOrder (adjointForm _ (by simp)) within
    refine .intro ?_ (List.forall_mem_cons.2 ⟨original, List.forall_mem_cons.2 ⟨lists, ?_⟩⟩)
    · rw [turnedList, if_neg (by simp), wiresFollow_iff]
      simp [declared, wirings, adjointLinks, StmtTree.declaration?, Announced]
    · exact listsInOrder_wirings _
  | @controlled form control marked derived =>
    have lists := listsInOrder_define (controlledForm _ (by simp)) (derived.linksInOrder within)
    refine .intro ?_ (List.forall_mem_cons.2 ⟨original, List.forall_mem_cons.2 ⟨lists, ?_⟩⟩)
    · rw [turnedList, if_neg (by simp), wiresFollow_iff]
      simp [declared, wirings, controlledLinks, StmtTree.declaration?, Announced]
    · exact listsInOrder_wirings _
  | @both adjoint controlled form control marked derived derived' derived'' =>
    have controlledBody := derived'.linksInOrder within
    have lists := derived.listsInOrder (adjointForm _ (by simp)) within
    have lists' := listsInOrder_define (controlledForm _ (by simp)) controlledBody
    have lists'' := derived''.listsInOrder (adjointForm _ (by simp)) controlledBody
    refine .intro ?_ (List.forall_mem_cons.2 ⟨original, ?_⟩)
    · rw [turnedList, if_neg (by simp), wiresFollow_iff]
      simp [declared, wirings, adjointLinks, controlledLinks, StmtTree.declaration?, Announced]
    · refine List.forall_mem_append.2 ⟨List.forall_mem_append.2 ⟨?_, ?_⟩, ?_⟩
      · exact List.forall_mem_cons.2 ⟨lists, listsInOrder_wirings _⟩
      · exact List.forall_mem_cons.2 ⟨lists', listsInOrder_wirings _⟩
      · exact List.forall_mem_cons.2 ⟨lists'', listsInOrder_wirings _⟩

theorem Translated.linksInOrder {o : Options} {adjoints : List String} {method : Bool}
    {body rs : List StmtTerm} {names : List (Purpose × String)}
    (translated : Translated o method body rs names)
    (roles : ∀ handed ∈ names, handed.2 ∈ adjoints ↔ handed.1 = .adjointForm)
    (ordinary : ∀ x ∈ body.flatMap StmtTree.declarations, x.Ordinary adjoints) :
    LinksInOrder o adjoints false false rs := by
  induction translated with
  | nil method => exact .intro (wiresFollow_iff.2 trivial) fun _ none => absurd none List.not_mem_nil
  | append first second ih ih' =>
    rw [List.flatMap_append, List.forall_mem_append] at ordinary
    rw [List.forall_mem_append] at roles
    exact (ih roles.1 ordinary.1).append (ih' roles.2 ordinary.2)
  | leaf method leaf =>
    refine .singleton ?_ ?_
    · intro l wires
      cases leaf with
      | wire f operation variant => exact ordinary (.wiring ⟨f, operation, variant⟩) (by simp)
      | _ => cases wires
    · cases leaf <;> exact fun _ none => absurd none List.not_mem_nil
  | @define method d rs variants names names' within expansion ih =>
    rw [List.forall_mem_append] at roles
    rw [List.flatMap_singleton, StmtTree.declarations_define, List.forall_mem_cons] at ordinary
    exact expansion.linksInOrder roles.2 ordinary.1 (ih roles.1 ordinary.2)
  | @classDef method name body rs names within ih =>
    rw [List.flatMap_singleton, StmtTree.declarations_classDef] at ordinary
    refine .singleton (by simp [StmtTree.declaration?]) ?_
    simpa [StmtTree.orderedLists] using ih roles ordinary
  | @«scope» method context context' binding body front batch back names within added ih =>
    rw [List.flatMap_singleton, StmtTree.declarations_scoped] at ordinary
    have lists := (ih roles ordinary).insert fun s member => (added s member).2
    refine .singleton (by simp [StmtTree.declaration?]) ?_
    simpa [StmtTree.orderedLists] using lists
  | @classical method test test' body orelse rs rs' names names' plain first second ih ih' =>
    rw [List.flatMap_singleton, StmtTree.declarations_conditional, List.forall_mem_append] at ordinary
    rw [List.forall_mem_append] at roles
    have lists := ih roles.1 ordinary.1
    have lists' := ih' roles.2 ordinary.2
    refine .singleton (by simp [StmtTree.declaration?]) ?_
    simpa [StmtTree.orderedLists] using ⟨lists, lists'⟩
  | @quantum method left right control body rs names within ih =>
    rw [List.flatMap_singleton, StmtTree.declarations_conditional, List.forall_mem_append] at ordinary
    rw [List.forall_mem_append] at roles
    refine .singleton (by simp [controlScope, StmtTree.declaration?]) ?_
    simpa [controlScope, StmtTree.orderedLists] using ih roles.1 ordinary.1

section Modules

variable {o : Options} {t : SyntaxTree} {input : List StmtTerm} {lowered : Lowered}
  {boilerplate verification : Bool}

/-- If a module without wirings is lowered, then in every list of the output the definitions come before
the wirings that link them, apart from the lists that an adjoint form turns round: there they come
after. -/
theorem lower_links_ordered (kinded : t.WellKinded) (valid : t.validate = .ok ())
    (reads : t.Reads t.body input) (unwired : ∀ l, .wiring l ∉ input.flatMap StmtTree.declarations)
    (ended : t.lower o (.build boilerplate verification) = .ok lowered) :
    ∃ rest names, lowered.tree.Reads lowered.tree.body (injectedImport o boilerplate input ++ rest) ∧
      Translated o false input rest names ∧ (names.map Prod.snd).Nodup ∧
      (∀ x ∈ names.map Prod.snd, x ∉ input.flatMap StmtTree.identifiers) ∧
      LinksInOrder o (namesFor [.adjointForm] names) false false
        (injectedImport o boilerplate input ++ rest) := by
  obtain ⟨rest, names, read, translated, once, fresh⟩ := lower_translated kinded valid reads ended
  refine ⟨rest, names, read, translated, once, fresh, ?_⟩
  have ordinary : ∀ x ∈ input.flatMap StmtTree.declarations, x.Ordinary (namesFor [.adjointForm] names) := by
    intro x member
    cases x with
    | wiring l => exact unwired l member
    | definition name operation =>
      exact not_mem_namesFor fresh name (List.mem_filterMap.2 ⟨_, member, rfl⟩)
  have statements := translated.linksInOrder (fun handed member =>
    (mem_namesFor once member).trans List.mem_singleton) ordinary
  unfold injectedImport
  split
  · have imported : LinksInOrder o (namesFor [.adjointForm] names) false false
        [.importAs () o.boilerplateModule o.boilerplateAlias] :=
      .singleton (by simp [StmtTree.declaration?]) fun _ none => absurd none List.not_mem_nil
    exact imported.append statements
  · exact statements

theorem SyntaxTree.Reads.mem_define {ids : List NodeId} {block : List StmtTerm} {id : NodeId}
    {d : Definition NodeId} (reads : t.Reads ids block) (listed : id ∈ ids)
    (found : t.nodes[id]? = some (.stmt (.define d))) :
    ∃ body, .define () ⟨d.name, d.params, body, d.operation⟩ ∈ block ∧ t.Reads d.body body := by
  obtain ⟨stmts, rfl, rfl, held⟩ := reads
  obtain ⟨s, inside, rfl⟩ := List.mem_map.1 listed
  have own := Holds.flatMap_iff.1 held s inside
  have same := own.stmt_node.symm.trans found
  cases s with
  | define label d' =>
    cases same
    have erased : (StmtTree.define label d').erase =
        .define () ⟨d'.name, d'.params, d'.body.map StmtTree.erase, d'.operation⟩ := by simp
    refine ⟨_, erased ▸ List.mem_map_of_mem inside, d'.body, rfl, rfl, ?_⟩
    exact Holds.flatMap_iff.2 fun part member => own.inner member
  | _ => cases same

theorem SyntaxTree.Reads.exists_wire {ids : List NodeId} {block : List StmtTerm} {id : NodeId}
    {f : GateFunctor} {operation variant : String} (reads : t.Reads (id :: ids) block)
    (found : t.nodes[id]? = some (.stmt (.wire f operation variant))) :
    ∃ rest, block = .wire () f operation variant :: rest := by
  obtain ⟨stmts, labels, rfl, held⟩ := reads
  obtain ⟨s, rest, rfl, rfl, -⟩ := List.map_eq_cons_iff.1 labels
  have same := (Holds.flatMap_iff.1 held s (by simp)).stmt_node.symm.trans found
  cases s with
  | wire label f' operation' variant' =>
    cases same
    exact ⟨rest.map StmtTree.erase, by simp⟩
  | _ => cases same

def nestedOperations : SyntaxTree :=
  ⟨#[.expr (.name "H"), .expr (.name "q"), .expr (.call 0 [1] []), .stmt (.expr 2),
    .stmt (.define ⟨"g", ["q"], [3], some ⟨true, false⟩⟩),
    .stmt (.define ⟨"f", ["q"], [4], some ⟨true, false⟩⟩)], [5]⟩

def nestedOperationsBody : List (StmtTree NodeId) :=
  [.define 5 ⟨"f", ["q"], [.define 4 ⟨"g", ["q"],
    [.expr 3 (.node 2 (.call (.node 0 (.name "H")) [.node 1 (.name "q")] []))], some ⟨true, false⟩⟩],
    some ⟨true, false⟩⟩]

theorem nestedOperations_placed : Placed nestedOperations nestedOperationsBody := by
  refine ⟨rfl, ?_, ?_⟩
  · simp [nestedOperations, nestedOperationsBody, Expr.map, Expr.children, Holds, StmtTree.label]
  · simp [nestedOperationsBody, Expr.map, Expr.children, StmtTree.label]

/-- The adjoint form of the outer operation starts with the wirings of the inner one. -/
theorem lower_links_ordered_nested :
    ∃ lowered, nestedOperations.lower .default (.build false false) = .ok lowered ∧
      ∃ output adjoints, lowered.tree.Reads lowered.tree.body output ∧
        LinksInOrder .default adjoints false false output ∧
        ∃ d : Definition StmtTerm, .define () d ∈ output ∧ d.name = "_f_adj" ∧
          ¬ WiresFollow d.body := by
  have placed := nestedOperations_placed
  have unwired : ∀ l, .wiring l ∉ (nestedOperationsBody.map StmtTree.erase).flatMap
      StmtTree.declarations := by
    simp [nestedOperationsBody]
  let form : Definition NodeId := ⟨"_f_adj", ["q"], [26, 25, 24, 18], some .none⟩
  have succeeds : (nestedOperations.lower .default (.build false false)).toOption.any fun lowered =>
      27 ∈ lowered.tree.body ∧ lowered.tree.nodes[27]? = some (.stmt (.define form)) ∧
        lowered.tree.nodes[26]? = some (.stmt (.wire .adjoint "_g_adj" "g")) := by
    decide +kernel
  obtain ⟨lowered, ended, outcome⟩ := exists_lowered succeeds
  obtain ⟨listed, found, first⟩ := of_decide_eq_true outcome
  obtain ⟨rest, names, read, -, -, -, inOrder⟩ := lower_links_ordered placed.wellKinded
    placed.validate ⟨_, placed.labels, rfl, placed.owned.held⟩ unwired ended
  obtain ⟨body, inside, bodyRead⟩ := read.mem_define listed found
  obtain ⟨others, rfl⟩ := bodyRead.exists_wire first
  refine ⟨lowered, ended, _, _, read, inOrder, _, inside, rfl, fun follow => ?_⟩
  obtain ⟨⟨d, none, -⟩, -⟩ := follow [] _ _ _ others rfl
  cases none

end Modules

end QuantumLowering
