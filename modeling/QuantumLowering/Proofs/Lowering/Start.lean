import QuantumLowering.Proofs.Lowering.Declarations
import QuantumLowering.Proofs.Operation.Freshness
import QuantumLowering.Proofs.Syntax.Identifiers

namespace QuantumLowering

def Declaration.operation? : Declaration → Option String
  | .definition name (some _) => some name
  | .definition _ none | .wiring _ => none

def operationNames (ds : List Declaration) : List String := ds.filterMap Declaration.operation?

theorem mem_operationNames {ds : List Declaration} {n : String} :
    n ∈ operationNames ds ↔ ∃ m, .definition n (some m) ∈ ds := by
  unfold operationNames
  rw [List.mem_filterMap]
  constructor
  · rintro ⟨x, member, named⟩
    cases x with
    | definition name operation =>
      cases operation with
      | none => cases named
      | some m =>
        cases named
        exact ⟨m, member⟩
    | wiring l => cases named
  · rintro ⟨m, member⟩
    exact ⟨_, member, rfl⟩

def Node.declaration? : Node NodeId → Option Declaration
  | .stmt (.define d) => some (.definition d.name d.operation)
  | .stmt (.wire f operation variant) => some (.wiring ⟨f, operation, variant⟩)
  | _ => none

theorem StmtTree.declarations_cells (s : StmtTree NodeId) :
    s.cells.filterMap (fun cell => cell.2.declaration?) = s.declarations := by
  induction s using StmtTree.induct with
  | step s ih =>
    have exprs : (s.exprs.flatMap ExprTree.cells).filterMap (fun cell => cell.2.declaration?) = [] := by
      refine List.filterMap_eq_nil_iff.2 fun cell member => ?_
      obtain ⟨e, -, inside⟩ := List.mem_flatMap.1 member
      obtain ⟨layer, same⟩ := e.exists_of_mem_cells inside
      rw [same]
      rfl
    have inner : (s.inner.flatMap StmtTree.cells).filterMap (fun cell => cell.2.declaration?) =
        s.inner.flatMap StmtTree.declarations := by
      rw [List.filterMap_flatMap]
      exact List.flatMap_congr ih
    have here : Node.declaration? (.stmt s.stmt) = s.declaration? := by
      cases s <;> rfl
    rw [StmtTree.cells_eq, StmtTree.declarations_eq, List.filterMap_cons, List.filterMap_append,
      exprs, inner, List.nil_append, here]
    cases s.declaration? <;> rfl

theorem StmtTree.declarations_erase {α : Type} (s : StmtTree α) :
    s.erase.declarations = s.declarations := by
  induction s using StmtTree.induct with
  | step s ih =>
    have here : s.erase.declaration? = s.declaration? := by
      cases s <;> simp [declaration?]
    rw [declarations_eq, declarations_eq s, here, inner_erase, List.flatMap_map,
      List.flatMap_congr ih]

theorem declarations_cells (body : List (StmtTree NodeId)) :
    (body.flatMap StmtTree.cells).filterMap (fun cell => cell.2.declaration?) =
      (body.map StmtTree.erase).flatMap StmtTree.declarations := by
  rw [List.filterMap_flatMap, List.flatMap_map]
  exact List.flatMap_congr fun s _ => s.declarations_cells.trans s.declarations_erase.symm

def OperationTable.enter (known : OperationTable) : Declaration → OperationTable
  | .definition name (some markers) => known.declare name markers
  | .definition _ none | .wiring _ => known

namespace Context

theorem enter_eq (c : Context) (node : Node NodeId) :
    c.enter node = { c with
      names := node.identifiers.foldl NameSupply.reserve c.names
      operations := node.declaration?.toList.foldl OperationTable.enter c.operations } := by
  match node with
  | .stmt (.define ⟨name, params, body, operation⟩) => cases operation <;> rfl
  | .stmt (.classDef ..) | .stmt (.importAs ..) | .stmt (.expr _) | .stmt (.assign ..)
  | .stmt (.scoped ..) | .stmt (.conditional ..) | .stmt (.wire ..) | .stmt .pass => rfl
  | .expr (.name _) | .expr (.int _) | .expr (.float _) | .expr (.bool _) | .expr (.str _)
  | .expr (.attribute ..) | .expr (.call ..) | .expr (.functor ..) | .expr (.aggregate _)
  | .expr (.list _) | .expr (.tuple _) | .expr (.compare ..) => rfl

theorem enterAll_eq (c : Context) (cells : List Cell) :
    c.enterAll cells = { c with
      names := (cells.flatMap fun cell => cell.2.identifiers).foldl NameSupply.reserve c.names
      operations := (cells.filterMap fun cell => cell.2.declaration?).foldl OperationTable.enter
        c.operations } := by
  induction cells generalizing c with
  | nil => rfl
  | cons cell cells ih =>
    have here : c.enterAll (cell :: cells) = (c.enter cell.2).enterAll cells := rfl
    have listed : (cell :: cells).filterMap (fun cell => cell.2.declaration?) =
        cell.2.declaration?.toList ++ cells.filterMap fun cell => cell.2.declaration? := by
      rw [List.filterMap_cons]
      cases cell.2.declaration? <;> rfl
    rw [here, ih, enter_eq, List.flatMap_cons, List.foldl_append, listed, List.foldl_append]

end Context

/-- Where lowering starts depends on the statements of the module only. -/
theorem Progress.start_eq (o : Options) (body : List (StmtTree NodeId)) :
    Progress.start o body =
      ⟨((body.map StmtTree.erase).flatMap StmtTree.declarations).foldl OperationTable.enter
          o.operations,
        .zero, ((body.map StmtTree.erase).flatMap StmtTree.identifiers).foldl NameSupply.reserve .empty,
        false, none⟩ := by
  rw [Progress.start, Context.enterAll_eq, identifiers_cells, declarations_cells]
  rfl

theorem identifiers_subset_start (o : Options) (body : List (StmtTree NodeId)) :
    (body.map StmtTree.erase).flatMap StmtTree.identifiers ⊆ (Progress.start o body).names.taken := by
  intro x member
  rw [Progress.start_eq]
  exact NameSupply.mem_taken_foldl_reserve.2 (.inl member)

theorem names_subset_start (o : Options) (body : List (StmtTree NodeId)) :
    (body.map StmtTree.erase).flatMap StmtTree.names ⊆ (Progress.start o body).names.taken := by
  intro x member
  obtain ⟨s, listed, inside⟩ := List.mem_flatMap.1 member
  exact identifiers_subset_start o body
    (List.mem_flatMap.2 ⟨s, listed, s.names_subset_identifiers inside⟩)

namespace OperationTable

variable {known : OperationTable} {d : Declaration} {ds : List Declaration} {n : String}

theorem get?_enter (other : d.operation? ≠ some n) : (known.enter d).get? n = known.get? n := by
  match d with
  | .definition name (some m) =>
    have apart : n ≠ name := by
      rintro rfl
      exact other rfl
    rw [enter, declare, Dictionary.get?_insert, if_neg apart]
  | .definition _ none | .wiring _ => rfl

theorem contains_enter : (known.enter d).contains n ↔ known.contains n ∨ d.operation? = some n := by
  by_cases same : d.operation? = some n
  · match d with
    | .definition name (some m) =>
      cases same
      simp [enter, declare, Dictionary.contains, Dictionary.get?_insert, Declaration.operation?]
    | .definition _ none | .wiring _ => cases same
  · unfold Dictionary.contains
    simp [get?_enter same, same]

theorem get?_foldl_enter (other : n ∉ operationNames ds) :
    (ds.foldl enter known).get? n = known.get? n := by
  induction ds generalizing known with
  | nil => rfl
  | cons d ds ih =>
    simp only [operationNames, List.mem_filterMap, List.mem_cons, exists_eq_or_imp, not_or] at other
    rw [List.foldl_cons, ih (by simpa [operationNames] using other.2), get?_enter other.1]

theorem contains_foldl_enter :
    (ds.foldl enter known).contains n ↔ known.contains n ∨ n ∈ operationNames ds := by
  induction ds generalizing known with
  | nil => simp [operationNames]
  | cons d ds ih =>
    rw [List.foldl_cons, ih, contains_enter, or_assoc]
    simp [operationNames, List.mem_filterMap]

end OperationTable

theorem get?_start {body : List (StmtTree NodeId)} {n : String}
    (other : n ∉ operationNames ((body.map StmtTree.erase).flatMap StmtTree.declarations))
    (o : Options) : (Progress.start o body).operations.get? n = o.operations.get? n := by
  rw [Progress.start_eq]
  exact OperationTable.get?_foldl_enter other

theorem contains_start {body : List (StmtTree NodeId)} {o : Options} {n : String}
    (listed : o.operations.contains n ∨
      n ∈ operationNames ((body.map StmtTree.erase).flatMap StmtTree.declarations)) :
    (Progress.start o body).operations.contains n := by
  rw [Progress.start_eq]
  exact OperationTable.contains_foldl_enter.2 listed

theorem StmtTree.operationNames_subset_identifiers {α : Type} (s : StmtTree α) :
    operationNames s.declarations ⊆ s.identifiers := by
  induction s using induct with
  | step s ih =>
    intro n member
    obtain ⟨m, listed⟩ := mem_operationNames.1 member
    rw [declarations_eq, List.mem_append] at listed
    rcases listed with here | inside
    · have own : n ∈ s.binders := by
        cases s <;> simp_all [declaration?, binders]
      rw [identifiers_eq]
      exact List.mem_append_left _ (List.mem_append_left _ own)
    · obtain ⟨part, within, listed⟩ := List.mem_flatMap.1 inside
      exact identifiers_inner within (ih part within (mem_operationNames.2 ⟨m, listed⟩))

theorem operationNames_subset_start (o : Options) (body : List (StmtTree NodeId)) :
    operationNames ((body.map StmtTree.erase).flatMap StmtTree.declarations) ⊆
      (Progress.start o body).names.taken := by
  intro n member
  obtain ⟨m, listed⟩ := mem_operationNames.1 member
  obtain ⟨s, there, inside⟩ := List.mem_flatMap.1 listed
  have used := s.operationNames_subset_identifiers (mem_operationNames.2 ⟨m, inside⟩)
  exact identifiers_subset_start o body (List.mem_flatMap.2 ⟨s, there, used⟩)

end QuantumLowering
