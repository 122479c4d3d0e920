import QuantumLowering.Lowering.Chain
import QuantumLowering.Proofs.Syntax.Placement

namespace QuantumLowering

namespace ExprTree

variable {α β : Type}

def chain : ExprTree α → List GateFunctor
  | .node _ (.functor f target) => f :: chain target
  | _ => []

def base : ExprTree α → ExprTree α
  | .node _ (.functor _ target) => base target
  | e => e

def operationName (e : ExprTree α) : Option String :=
  match e.base.layer with
  | .name name => some name
  | .attribute _ attr => some attr
  | _ => none

def signature (e : ExprTree α) : Signature :=
  if .controlled ∈ e.chain then .controlled else .identity

/-- The controls listed, through lists and aggregates of any depth. -/
def leaves : ExprTree α → List (ExprTree α)
  | .node _ (.list items) => (items.attach.map fun item => leaves item.1).flatten
  | .node _ (.aggregate members) => (members.attach.map fun member => leaves member.1).flatten
  | e => [e]
termination_by e => sizeOf e
decreasing_by
  · exact sizeOf_part item.2
  · exact sizeOf_part member.2

section Leaves

variable (label : α)

@[simp]
theorem leaves_list (items : List (ExprTree α)) :
    (node label (.list items)).leaves = items.flatMap leaves := by
  rw [leaves, List.attach_map_val (f := leaves), ← List.flatMap_def]

@[simp]
theorem leaves_aggregate (members : List (ExprTree α)) :
    (node label (.aggregate members)).leaves = members.flatMap leaves := by
  rw [leaves, List.attach_map_val (f := leaves), ← List.flatMap_def]

end Leaves

/-- Equal up to labels. Float literals are compared as numbers. -/
def same : ExprTree α → ExprTree β → Bool
  | .node _ x, .node _ y =>
    x.sameHead y && List.all₂ (fun part other => same part.1 other) x.children.attach y.children
termination_by e => sizeOf e
decreasing_by exact sizeOf_part part.2

end ExprTree

theorem all₂_attach {β γ : Type} (r : β → γ → Bool) (xs : List β) (ys : List γ) :
    List.all₂ (fun x y => r x.1 y) xs.attach ys = List.all₂ r xs ys := by
  have general : ∀ xs : List { x // x ∈ xs }, ∀ ys,
      List.all₂ (fun x y => r x.1 y) xs ys = List.all₂ r (xs.map Subtype.val) ys := by
    intro xs
    induction xs with
    | nil => intro ys; cases ys <;> rfl
    | cons x xs ih => intro ys; cases ys <;> simp [List.all₂, ih]
  rw [general, List.attach_map_subtype_val]

@[simp]
theorem ExprTree.same_node {α β : Type} (a : α) (b : β) (x : Expr (ExprTree α))
    (y : Expr (ExprTree β)) :
    (ExprTree.node a x).same (.node b y) =
      (x.sameHead y && List.all₂ ExprTree.same x.children y.children) := by
  rw [ExprTree.same, all₂_attach]

/-- Those that are not the same as one kept before. -/
def firsts {β : Type} (same : β → β → Bool) (xs : List β) : List β :=
  xs.foldl (fun kept x => if kept.any (same · x) then kept else kept ++ [x]) []

theorem Expr.sameHead_map {ι ι' κ κ' : Type} (f : ι → ι') (g : κ → κ') (x : Expr ι) (y : Expr κ) :
    (x.map f).sameHead (y.map g) = x.sameHead y := by
  have names : ∀ keywords : List (Keyword ι), (keywords.map (Keyword.map f)).map Keyword.name =
      keywords.map Keyword.name := by
    simp [Keyword.map]
  have names' : ∀ keywords : List (Keyword κ), (keywords.map (Keyword.map g)).map Keyword.name =
      keywords.map Keyword.name := by
    simp [Keyword.map]
  cases x <;> cases y <;> simp only [Expr.map, Expr.sameHead, List.length_map, names, names']

theorem all₂_map {β γ β' γ' : Type} (r : β' → γ' → Bool) (f : β → β') (g : γ → γ') (xs : List β)
    (ys : List γ) : List.all₂ r (xs.map f) (ys.map g) = List.all₂ (fun x y => r (f x) (g y)) xs ys := by
  induction xs generalizing ys with
  | nil => cases ys <;> rfl
  | cons x xs ih => cases ys <;> simp [List.all₂, ih]

theorem all₂_congr {β γ : Type} {r r' : β → γ → Bool} {xs : List β} {ys : List γ}
    (h : ∀ x ∈ xs, ∀ y, r x y = r' x y) : List.all₂ r xs ys = List.all₂ r' xs ys := by
  induction xs generalizing ys with
  | nil => cases ys <;> rfl
  | cons x xs ih =>
    cases ys with
    | nil => rfl
    | cons y ys => simp [List.all₂, h x (by simp), ih fun x member => h x (by simp [member])]

namespace ExprTree

variable {α β : Type}

@[simp]
theorem chain_erase (e : ExprTree α) : e.erase.chain = e.chain := by
  induction e using induct with
  | step label layer ih =>
    rw [erase_node]
    cases layer with
    | functor f target => simp [Expr.map, chain, ih target (by simp [Expr.children])]
    | _ => rfl

@[simp]
theorem base_erase (e : ExprTree α) : e.erase.base = e.base.erase := by
  induction e using induct with
  | step label layer ih =>
    rw [erase_node]
    cases layer with
    | functor f target => simp [Expr.map, base, ih target (by simp [Expr.children])]
    | _ => simp [Expr.map, base]

@[simp]
theorem layer_erase (e : ExprTree α) : e.erase.layer = e.layer.map erase := by
  cases e
  rw [erase_node]
  rfl

@[simp]
theorem operationName_erase (e : ExprTree α) : e.erase.operationName = e.operationName := by
  rw [operationName, operationName, base_erase, layer_erase]
  cases e.base.layer <;> rfl

@[simp]
theorem signature_erase (e : ExprTree α) : e.erase.signature = e.signature := by
  rw [signature, signature, chain_erase]

theorem leaves_of_ne {e : ExprTree α} (list : ∀ items, e.layer ≠ .list items)
    (aggregate : ∀ members, e.layer ≠ .aggregate members) : e.leaves = [e] := by
  obtain ⟨label, layer⟩ := e
  cases layer with
  | list items => exact absurd rfl (list items)
  | aggregate members => exact absurd rfl (aggregate members)
  | _ => simp [leaves]

@[simp]
theorem leaves_erase (e : ExprTree α) : e.erase.leaves = e.leaves.map erase := by
  induction e using induct with
  | step label layer ih =>
    cases layer with
    | list items | aggregate items =>
      simp only [erase_node, Expr.map, leaves_list, leaves_aggregate, List.flatMap_map,
        List.map_flatMap]
      exact List.flatMap_congr ih
    | _ =>
      rw [leaves_of_ne, leaves_of_ne]
      · rfl
      all_goals
        simp [layer, Expr.map]

@[simp]
theorem same_erase (a : ExprTree α) (b : ExprTree β) : a.erase.same b.erase = a.same b := by
  induction a using induct generalizing b with
  | step label x ih =>
    obtain ⟨label', y⟩ := b
    simp only [erase_node, same_node, Expr.sameHead_map, Expr.children_map, all₂_map]
    rw [all₂_congr ih]

end ExprTree

section Firsts

variable {β γ : Type}

theorem foldl_firsts_map (r : γ → γ → Bool) (f : β → γ) (xs kept : List β) :
    (xs.foldl (fun kept x => if kept.any (fun y => r (f y) (f x)) then kept else kept ++ [x])
      kept).map f =
      (xs.map f).foldl (fun kept x => if kept.any (r · x) then kept else kept ++ [x])
        (kept.map f) := by
  induction xs generalizing kept with
  | nil => rfl
  | cons x xs ih =>
    simp only [List.foldl_cons, List.map_cons, ih, List.any_map, Function.comp_def]
    split <;> simp

theorem map_firsts (r : γ → γ → Bool) (f : β → γ) (xs : List β) :
    (firsts (fun x y => r (f x) (f y)) xs).map f = firsts r (xs.map f) :=
  foldl_firsts_map r f xs []

theorem foldl_firsts_sublist (r : β → β → Bool) (xs kept : List β) :
    (xs.foldl (fun kept x => if kept.any (r · x) then kept else kept ++ [x]) kept).Sublist
      (kept ++ xs) := by
  induction xs generalizing kept with
  | nil => simp
  | cons x xs ih =>
    rw [List.foldl_cons]
    split
    · exact (ih kept).trans ((List.sublist_cons_self x xs).append_left kept)
    · simpa using ih (kept ++ [x])

theorem firsts_sublist (r : β → β → Bool) (xs : List β) : (firsts r xs).Sublist xs :=
  foldl_firsts_sublist r xs []

end Firsts

variable {t : SyntaxTree} {e : ExprTree NodeId}

theorem Holds.expr_eq (held : Holds t e.cells) :
    t.expr e.label = .ok (e.layer.map ExprTree.label) := by
  obtain ⟨id, layer⟩ := e
  simp [SyntaxTree.expr, ExprTree.label, ExprTree.layer, held.expr_node]

theorem Holds.base (held : Holds t e.cells) : Holds t e.base.cells := by
  induction e using ExprTree.induct with
  | step id layer ih =>
    cases layer with
    | functor f target =>
      exact ih target (by simp [Expr.children]) (held.part (by simp [Expr.children]))
    | _ => exact held

theorem Holds.leaves (held : Holds t e.cells) : ∀ leaf ∈ e.leaves, Holds t leaf.cells := by
  induction e using ExprTree.induct with
  | step id layer ih =>
    intro leaf member
    cases layer with
    | list items | aggregate items =>
      simp only [ExprTree.leaves_list, ExprTree.leaves_aggregate, List.mem_flatMap] at member
      obtain ⟨item, inside, member⟩ := member
      exact ih item inside (held.part inside) leaf member
    | _ =>
      rw [ExprTree.leaves_of_ne (by simp [ExprTree.layer]) (by simp [ExprTree.layer]),
        List.mem_singleton] at member
      exact member ▸ held

namespace SyntaxTree

variable {depth : Nat}

theorem innermostWithin_eq (held : Holds t e.cells) (bound : e.height ≤ depth) :
    t.innermostWithin depth e.label = .ok e.base.label := by
  induction e using ExprTree.induct generalizing depth with
  | step id layer ih =>
    cases depth with
    | zero => have := (ExprTree.node id layer).height_pos; omega
    | succ depth =>
      rw [innermostWithin, held.expr_eq]
      cases layer with
      | functor f target =>
        have inside : target ∈ (Expr.functor f target).children := by simp [Expr.children]
        exact ih target inside (held.part inside) (ExprTree.height_part_le bound inside)
      | _ => rfl

theorem chainWithin_eq (held : Holds t e.cells) (bound : e.height ≤ depth) :
    t.chainWithin depth e.label = .ok (e.chain, e.base.label) := by
  induction e using ExprTree.induct generalizing depth with
  | step id layer ih =>
    cases depth with
    | zero => have := (ExprTree.node id layer).height_pos; omega
    | succ depth =>
      rw [chainWithin, held.expr_eq]
      cases layer with
      | functor f target =>
        have inside : target ∈ (Expr.functor f target).children := by simp [Expr.children]
        have rest := ih target inside (held.part inside) (ExprTree.height_part_le bound inside)
        simp only [ExprTree.layer, Expr.map, Bind.bind, Except.bind, rest]
        rfl
      | _ => rfl

theorem signatureWithin_eq (held : Holds t e.cells) (bound : e.height ≤ depth) :
    t.signatureWithin depth e.label = .ok e.signature := by
  induction e using ExprTree.induct generalizing depth with
  | step id layer ih =>
    cases depth with
    | zero => have := (ExprTree.node id layer).height_pos; omega
    | succ depth =>
      rw [signatureWithin, held.expr_eq]
      cases layer with
      | functor f target =>
        have inside : target ∈ (Expr.functor f target).children := by simp [Expr.children]
        cases f with
        | controlled => simp [ExprTree.signature, ExprTree.chain, ExprTree.layer, Expr.map]; rfl
        | adjoint =>
          have rest := ih target inside (held.part inside) (ExprTree.height_part_le bound inside)
          simp only [ExprTree.signature, ExprTree.chain, List.mem_cons, reduceCtorEq, false_or]
          exact rest
      | _ => rfl

theorem controlsWithin_eq (held : Holds t e.cells) (bound : e.height ≤ depth) :
    t.controlsWithin depth e.label = .ok (e.leaves.map ExprTree.label) := by
  induction e using ExprTree.induct generalizing depth with
  | step id layer ih =>
    cases depth with
    | zero => have := (ExprTree.node id layer).height_pos; omega
    | succ depth =>
      rw [controlsWithin, held.expr_eq]
      cases layer with
      | list items | aggregate items =>
        have each : (items.map ExprTree.label).mapM (t.controlsWithin depth) =
            .ok (items.map fun item => item.leaves.map ExprTree.label) := by
          rw [List.mapM_map]
          apply mapM_ok_of_forall
          intro item inside
          exact ih item inside (held.part inside) (ExprTree.height_part_le bound inside)
        simp only [ExprTree.layer, Expr.map, Bind.bind, Except.bind, each, ExprTree.leaves_list,
          ExprTree.leaves_aggregate, List.flatMap_def, List.map_flatten, List.map_map]
        rfl
      | _ =>
        rw [ExprTree.leaves_of_ne (by simp [ExprTree.layer]) (by simp [ExprTree.layer])]
        rfl

theorem allPairs_eq {same : NodeId → NodeId → Except TreeError Bool}
    {r : ExprTree NodeId → ExprTree NodeId → Bool} {xs ys : List (ExprTree NodeId)}
    (each : ∀ x ∈ xs, ∀ y ∈ ys, same x.label y.label = .ok (r x y)) :
    allPairs same (xs.map ExprTree.label) (ys.map ExprTree.label) = .ok (List.all₂ r xs ys) := by
  induction xs generalizing ys with
  | nil => cases ys <;> rfl
  | cons x xs ih =>
    cases ys with
    | nil => rfl
    | cons y ys =>
      have rest := @ih ys fun x hx y hy => each x (by simp [hx]) y (by simp [hy])
      simp only [List.map_cons, allPairs, each x (by simp) y (by simp), Bind.bind, Except.bind,
        rest, List.all₂]
      cases r x y <;> rfl

theorem sameWithin_eq {e' : ExprTree NodeId} (held : Holds t e.cells) (held' : Holds t e'.cells)
    (bound : e.height ≤ depth) : t.sameWithin depth e.label e'.label = .ok (e.same e') := by
  induction e using ExprTree.induct generalizing depth e' with
  | step id x ih =>
    obtain ⟨id', y⟩ := e'
    cases depth with
    | zero => have := (ExprTree.node id x).height_pos; omega
    | succ depth =>
      have first : t.node id = .ok (.expr (x.map ExprTree.label)) := by
        simp [node, held.expr_node]
      have second : t.node id' = .ok (.expr (y.map ExprTree.label)) := by
        simp [node, held'.expr_node]
      have pairs : allPairs (t.sameWithin depth) (x.children.map ExprTree.label)
          (y.children.map ExprTree.label) = .ok (List.all₂ ExprTree.same x.children y.children) :=
        allPairs_eq fun part inside part' inside' => ih part inside (held.part inside)
          (held'.part inside') (ExprTree.height_part_le bound inside)
      simp only [sameWithin, ExprTree.label, first, second, Bind.bind, Except.bind, Node.sameHead,
        Expr.sameHead_map, Node.children, Expr.children_map, pairs, ExprTree.same_node]
      cases x.sameHead y <;> rfl

end SyntaxTree

namespace Holds

theorem chain_eq (held : Holds t e.cells) : t.chain e.label = .ok (e.chain, e.base.label) :=
  SyntaxTree.chainWithin_eq held (Nat.le_succ_of_le held.height_expr)

theorem signature_eq (held : Holds t e.cells) : t.signature e.label = .ok e.signature :=
  SyntaxTree.signatureWithin_eq held (Nat.le_succ_of_le held.height_expr)

theorem controls_eq (held : Holds t e.cells) :
    t.controls e.label = .ok (e.leaves.map ExprTree.label) :=
  SyntaxTree.controlsWithin_eq held (Nat.le_succ_of_le held.height_expr)

theorem same_eq {e' : ExprTree NodeId} (held : Holds t e.cells) (held' : Holds t e'.cells) :
    t.same e.label e'.label = .ok (e.same e') :=
  SyntaxTree.sameWithin_eq held held' (Nat.le_succ_of_le held.height_expr)

theorem operationName_eq (held : Holds t e.cells) :
    t.operationName e.label = .ok e.operationName := by
  have found : t.innermost e.label = .ok e.base.label :=
    SyntaxTree.innermostWithin_eq held (Nat.le_succ_of_le held.height_expr)
  rw [SyntaxTree.operationName, found]
  simp only [Bind.bind, Except.bind, held.base.expr_eq, ExprTree.operationName]
  cases e.base.layer <;> rfl

theorem anySame_eq {es : List (ExprTree NodeId)} (held : Holds t e.cells)
    (helds : ∀ e ∈ es, Holds t e.cells) :
    t.anySame e.label (es.map ExprTree.label) = .ok (es.any (·.same e)) := by
  induction es with
  | nil => rfl
  | cons other es ih =>
    have rest := ih fun e member => helds e (by simp [member])
    simp only [List.map_cons, SyntaxTree.anySame, (helds other (by simp)).same_eq held, Bind.bind,
      Except.bind, rest, List.any_cons]
    cases other.same e <;> rfl

theorem dedupe_eq {es : List (ExprTree NodeId)} (helds : ∀ e ∈ es, Holds t e.cells) :
    t.dedupe (es.map ExprTree.label) = .ok ((firsts ExprTree.same es).map ExprTree.label) := by
  have general : ∀ kept : List (ExprTree NodeId), (∀ e ∈ kept, Holds t e.cells) →
      (es.map ExprTree.label).foldlM (fun kept id => do
          if ← t.anySame id kept then return kept else return kept ++ [id])
          (kept.map ExprTree.label) =
        Except.ok ((es.foldl (fun kept x => if kept.any (·.same x) then kept else kept ++ [x])
          kept).map ExprTree.label) := by
    induction es with
    | nil => intro kept _; rfl
    | cons e es ih =>
      intro kept inside
      have look := (helds e (by simp)).anySame_eq inside
      simp only [List.map_cons, List.foldlM_cons, look, List.foldl_cons]
      cases kept.any (·.same e) with
      | true => exact ih (fun e member => helds e (by simp [member])) kept inside
      | false =>
        have next := ih (fun e member => helds e (by simp [member])) (kept ++ [e]) (by
          intro e' member
          rcases List.mem_append.1 member with member | member
          · exact inside e' member
          · exact List.mem_singleton.1 member ▸ helds e (by simp))
        simp only [List.map_append] at next
        exact next
  exact general [] (by simp)

end Holds

def Expr.isCall {ι : Type} : Expr ι → Bool
  | .call .. => true
  | _ => false

@[simp]
theorem Expr.isCall_map {ι κ : Type} (f : ι → κ) (e : Expr ι) : (e.map f).isCall = e.isCall := by
  cases e <;> rfl

def ExprTree.calls : ExprTree NodeId → List NodeId
  | .node id layer =>
    (if layer.isCall then [id] else []) ++
      (layer.children.attach.map fun part => calls part.1).flatten
termination_by e => sizeOf e
decreasing_by exact sizeOf_part part.2

theorem ExprTree.calls_node (id : NodeId) (layer : Expr (ExprTree NodeId)) :
    (node id layer).calls =
      (if layer.isCall then [id] else []) ++ layer.children.flatMap calls := by
  rw [calls, List.attach_map_val (f := calls), ← List.flatMap_def]

theorem filterM_ok_of_forall {ε β : Type} {f : β → Except ε Bool} {p : β → Bool} {xs : List β}
    (h : ∀ x ∈ xs, f x = .ok (p x)) : xs.filterM f = .ok (xs.filter p) := by
  have general : ∀ kept, xs.filterAuxM f kept = .ok ((xs.filter p).reverse ++ kept) := by
    induction xs with
    | nil => intro kept; rfl
    | cons x xs ih =>
      intro kept
      have rest := ih fun y member => h y (by simp [member])
      simp only [List.filterAuxM, h x (by simp), Bind.bind, Except.bind, rest]
      cases found : p x <;> simp [found]
  simp only [List.filterM, general, Bind.bind, Except.bind]
  simp [Pure.pure, Except.pure]

theorem SyntaxTree.isCall_eq {id : NodeId} {layer : Expr NodeId}
    (found : t.nodes[id]? = some (.expr layer)) : t.isCall id = .ok layer.isCall := by
  simp only [SyntaxTree.isCall, SyntaxTree.expr, found, Bind.bind, Except.bind]
  cases layer <;> rfl

namespace Holds

theorem callsIn_eq (held : Holds t e.cells) : t.callsIn e.label = .ok e.calls := by
  let p : NodeId → Bool := fun id => (t.isCall id).toOption.getD false
  have look : ∀ id ∈ e.ids, t.isCall id = .ok (p id) := by
    intro id member
    obtain ⟨⟨place, node⟩, inside, rfl⟩ := List.mem_map.1 member
    obtain ⟨layer, rfl⟩ := e.exists_of_mem_cells inside
    simp [p, SyntaxTree.isCall_eq (held _ inside), Except.toOption]
  have walk : e.ids.filter p = e.calls := by
    clear look
    induction e using ExprTree.induct with
    | step id layer ih =>
      have here : p id = layer.isCall := by
        simp [p, SyntaxTree.isCall_eq held.expr_node, Except.toOption]
      rw [ExprTree.ids_node, ExprTree.calls_node, List.filter_cons, here, List.filter_flatMap]
      have below : layer.children.flatMap (fun part => part.ids.filter p) =
          layer.children.flatMap ExprTree.calls :=
        List.flatMap_congr fun part inside => ih part inside (held.part inside)
      rw [below]
      cases layer.isCall <;> rfl
  rw [SyntaxTree.callsIn, held.subtree_expr]
  simp only [Bind.bind, Except.bind, filterM_ok_of_forall look, walk]

end Holds

def ExprTree.isCallTo {α : Type} (name : String) : ExprTree α → Bool
  | .node _ (.call (.node _ (.name found)) _ _) => found == name
  | _ => false

@[simp]
theorem ExprTree.isCallTo_erase {α : Type} (name : String) (e : ExprTree α) :
    e.erase.isCallTo name = e.isCallTo name := by
  obtain ⟨label, layer⟩ := e
  rw [erase_node]
  cases layer with
  | call func args keywords =>
    obtain ⟨label', layer'⟩ := func
    rw [Expr.map, erase_node]
    cases layer' <;> rfl
  | _ => rfl

theorem Holds.isCallTo_eq (held : Holds t e.cells) (name : String) :
    t.isCallTo e.label name = .ok (e.isCallTo name) := by
  obtain ⟨id, layer⟩ := e
  rw [SyntaxTree.isCallTo, held.expr_eq]
  cases layer with
  | call func args keywords =>
    have callee := (held.part (e := func) (by simp [Expr.children])).expr_eq
    simp only [ExprTree.layer, Expr.map, Bind.bind, Except.bind, callee]
    obtain ⟨id', layer'⟩ := func
    cases layer' <;> rfl
  | _ => rfl

end QuantumLowering
