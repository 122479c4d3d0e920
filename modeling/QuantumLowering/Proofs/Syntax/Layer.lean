import Mathlib.Data.List.Basic
import QuantumLowering.Syntax.Node

namespace QuantumLowering

variable {ι κ : Type}

def Keyword.map (f : ι → κ) (k : Keyword ι) : Keyword κ := ⟨k.name, f k.value⟩

def Expr.map (f : ι → κ) : Expr ι → Expr κ
  | .name x => .name x
  | .int value => .int value
  | .float value => .float value
  | .bool value => .bool value
  | .str value => .str value
  | .attribute value attr => .attribute (f value) attr
  | .call func args keywords => .call (f func) (args.map f) (keywords.map (Keyword.map f))
  | .functor g target => .functor g (f target)
  | .aggregate members => .aggregate (members.map f)
  | .list items => .list (items.map f)
  | .tuple items => .tuple (items.map f)
  | .compare left op right => .compare (f left) op (f right)

def Stmt.map (f : ι → κ) : Stmt ι → Stmt κ
  | .importAs module name => .importAs module name
  | .expr value => .expr (f value)
  | .assign target value => .assign (f target) (f value)
  | .define d => .define ⟨d.name, d.params, d.body.map f, d.operation⟩
  | .classDef name body => .classDef name (body.map f)
  | .scoped context binding body => .scoped (f context) (binding.map f) (body.map f)
  | .conditional test body orelse => .conditional (f test) (body.map f) (orelse.map f)
  | .wire functor operation variant => .wire functor operation variant
  | .pass => .pass

def Node.map (f : ι → κ) : Node ι → Node κ
  | .expr e => .expr (e.map f)
  | .stmt s => .stmt (s.map f)

@[simp]
theorem Expr.children_map (f : ι → κ) (e : Expr ι) : (e.map f).children = e.children.map f := by
  cases e <;> simp [Expr.map, Expr.children, Keyword.map, Function.comp_def]

@[simp]
theorem Expr.map_map {μ : Type} (g : κ → μ) (f : ι → κ) (e : Expr ι) :
    (e.map f).map g = e.map (g ∘ f) := by
  cases e <;> simp [Expr.map, Keyword.map, Function.comp_def]

theorem Expr.map_id (e : Expr ι) : e.map (fun part => part) = e := by
  have keywords : Keyword.map (fun part : ι => part) = fun k => k := rfl
  cases e <;> simp [Expr.map, keywords]

theorem Expr.map_congr {f g : ι → κ} {e : Expr ι} (h : ∀ c ∈ e.children, f c = g c) :
    e.map f = e.map g := by
  cases e with
  | call func args keywords =>
    have values : ∀ k ∈ keywords, f k.value = g k.value := fun k member =>
      h _ (by simp only [Expr.children]; simp; exact .inr (.inr ⟨k, member, rfl⟩))
    simp_all [Expr.map, Expr.children, Keyword.map]
  | _ => simp_all [Expr.map, Expr.children]

theorem eq_of_map_eq {f : ι → κ} {xs ys : List ι} (same : xs.map f = ys.map f)
    (inj : ∀ x ∈ xs, ∀ y ∈ ys, f x = f y → x = y) : xs = ys := by
  induction xs generalizing ys with
  | nil => exact (List.map_eq_nil_iff.1 same.symm).symm
  | cons x xs ih =>
    cases ys with
    | nil => cases same
    | cons y ys =>
      rw [List.map_cons, List.map_cons, List.cons.injEq] at same
      rw [inj x (by simp) y (by simp) same.1, ih same.2 fun x inside y inside' =>
        inj x (by simp [inside]) y (by simp [inside'])]

theorem Expr.eq_of_map_eq {f : ι → κ} {e e' : Expr ι} (same : e.map f = e'.map f)
    (inj : ∀ x ∈ e.children, ∀ y ∈ e'.children, f x = f y → x = y) : e = e' := by
  cases e with
  | call func args keywords =>
    cases e' with
    | call func' args' keywords' =>
      simp only [Expr.map, Expr.call.injEq] at same
      simp only [Expr.children] at inj
      obtain ⟨funcs, argss, keywordss⟩ := same
      have func_eq := inj func List.mem_cons_self func' List.mem_cons_self funcs
      have args_eq := QuantumLowering.eq_of_map_eq argss fun x inside y inside' =>
        inj x (List.mem_cons_of_mem _ (List.mem_append_left _ inside)) y
          (List.mem_cons_of_mem _ (List.mem_append_left _ inside'))
      have keywords_eq := QuantumLowering.eq_of_map_eq keywordss fun k inside k' inside' eq => by
        simp only [Keyword.map, Keyword.mk.injEq] at eq
        have value := inj k.value
          (List.mem_cons_of_mem _ (List.mem_append_right _ (List.mem_map_of_mem inside))) k'.value
          (List.mem_cons_of_mem _ (List.mem_append_right _ (List.mem_map_of_mem inside'))) eq.2
        cases k
        cases k'
        exact congrArg₂ Keyword.mk eq.1 value
      rw [func_eq, args_eq, keywords_eq]
    | _ => cases same
  | aggregate xs | list xs | tuple xs =>
    cases e' <;> simp only [Expr.map, reduceCtorEq, Expr.aggregate.injEq, Expr.list.injEq,
      Expr.tuple.injEq] at same
    rw [QuantumLowering.eq_of_map_eq same inj]
  | _ => cases e' <;> simp_all [Expr.map, Expr.children]

theorem Expr.sizeOf_lt_of_mem_children [SizeOf ι] {e : Expr ι} {part : ι}
    (member : part ∈ e.children) : sizeOf part < sizeOf e := by
  cases e with
  | call func args keywords =>
    simp only [Expr.children, List.mem_cons, List.mem_append, List.mem_map] at member
    simp only [Expr.call.sizeOf_spec]
    rcases member with rfl | member | ⟨keyword, member, rfl⟩
    · omega
    · have := List.sizeOf_lt_of_mem member
      omega
    · have := List.sizeOf_lt_of_mem member
      have : sizeOf keyword.value < sizeOf keyword := by
        cases keyword
        simp only [Keyword.mk.sizeOf_spec]
        omega
      omega
  | compare left op right =>
    simp only [Expr.children, List.mem_cons, List.not_mem_nil, or_false] at member
    simp only [Expr.compare.sizeOf_spec]
    rcases member with rfl | rfl <;> omega
  | _ =>
    simp only [Expr.children, List.mem_cons, List.not_mem_nil, or_false] at member
    all_goals
      first
      | have := List.sizeOf_lt_of_mem member
        simp
        omega
      | simp [member]
        try omega

def Expr.attach (e : Expr ι) : Expr { part : ι // part ∈ e.children } :=
  match e with
  | .name x => .name x
  | .int value => .int value
  | .float value => .float value
  | .bool value => .bool value
  | .str value => .str value
  | .attribute value attr => .attribute ⟨value, by simp [Expr.children]⟩ attr
  | .call func args keywords =>
    .call ⟨func, by simp [Expr.children]⟩
      (args.attach.map fun ⟨arg, member⟩ => ⟨arg, by simp [Expr.children, member]⟩)
      (keywords.attach.map fun ⟨keyword, member⟩ =>
        ⟨keyword.name, keyword.value, by
          simp only [Expr.children, List.mem_cons, List.mem_append, List.mem_map]
          exact .inr (.inr ⟨keyword, member, rfl⟩)⟩)
  | .functor g target => .functor g ⟨target, by simp [Expr.children]⟩
  | .aggregate members => .aggregate members.attach
  | .list items => .list items.attach
  | .tuple items => .tuple items.attach
  | .compare left op right =>
    .compare ⟨left, by simp [Expr.children]⟩ op ⟨right, by simp [Expr.children]⟩

theorem Expr.attach_map (f : ι → κ) (e : Expr ι) : (e.attach.map fun part => f part.1) = e.map f := by
  cases e with
  | call func args keywords =>
    simp only [Expr.attach, Expr.map, List.map_map]
    congr 1
    · exact List.attach_map_val
    · exact List.attach_map_val (f := Keyword.map f)
  | aggregate members => exact congrArg Expr.aggregate List.attach_map_val
  | list items => exact congrArg Expr.list List.attach_map_val
  | tuple items => exact congrArg Expr.tuple List.attach_map_val
  | _ => rfl

@[simp]
theorem Stmt.children_map (f : ι → κ) (s : Stmt ι) : (s.map f).children = s.children.map f := by
  match s with
  | .scoped context none body | .scoped context (some binding) body =>
    simp [Stmt.map, Stmt.children]
  | .importAs .. | .expr .. | .assign .. | .define .. | .classDef .. | .conditional .. | .wire ..
  | .pass => simp [Stmt.map, Stmt.children]

@[simp]
theorem Node.children_map (f : ι → κ) (node : Node ι) :
    (node.map f).children = node.children.map f := by
  cases node <;> simp [Node.map, Node.children]

@[simp]
theorem Node.map_map {μ : Type} (g : κ → μ) (f : ι → κ) (node : Node ι) :
    (node.map f).map g = node.map (g ∘ f) := by
  cases node with
  | expr e => simp [Node.map]
  | stmt s => cases s <;> simp [Node.map, Stmt.map, Function.comp_def]

theorem Stmt.sizeOf_lt_of_mem_children [SizeOf ι] {s : Stmt ι} {part : ι}
    (member : part ∈ s.children) : sizeOf part < sizeOf s := by
  match s with
  | .importAs .. | .wire .. | .pass => cases member
  | .expr value =>
    obtain rfl := List.mem_singleton.1 member
    simp
  | .assign target value =>
    simp only [Stmt.children, List.mem_cons, List.not_mem_nil, or_false] at member
    rw [Stmt.assign.sizeOf_spec]
    rcases member with rfl | rfl <;> omega
  | .define ⟨name, params, body, operation⟩ =>
    have := List.sizeOf_lt_of_mem (show part ∈ body from member)
    simp only [Stmt.define.sizeOf_spec, Definition.mk.sizeOf_spec]
    omega
  | .classDef name body =>
    have := List.sizeOf_lt_of_mem (show part ∈ body from member)
    simp only [Stmt.classDef.sizeOf_spec]
    omega
  | .scoped context binding body =>
    simp only [Stmt.children, List.mem_cons, List.mem_append, Option.mem_toList] at member
    simp only [Stmt.scoped.sizeOf_spec]
    rcases member with rfl | rfl | member
    · omega
    · simp only [Option.some.sizeOf_spec]
      omega
    · have := List.sizeOf_lt_of_mem member
      omega
  | .conditional test body orelse =>
    simp only [Stmt.children, List.mem_cons, List.mem_append] at member
    simp only [Stmt.conditional.sizeOf_spec]
    rcases member with rfl | member | member
    · omega
    all_goals
      have := List.sizeOf_lt_of_mem member
      omega

theorem Node.sizeOf_lt_of_mem_children [SizeOf ι] {node : Node ι} {part : ι}
    (member : part ∈ node.children) : sizeOf part < sizeOf node := by
  cases node with
  | expr e =>
    have := Expr.sizeOf_lt_of_mem_children (show part ∈ e.children from member)
    simp only [Node.expr.sizeOf_spec]
    omega
  | stmt s =>
    have := Stmt.sizeOf_lt_of_mem_children (show part ∈ s.children from member)
    simp only [Node.stmt.sizeOf_spec]
    omega

def Stmt.attach (s : Stmt ι) : Stmt { part : ι // part ∈ s.children } :=
  match s with
  | .importAs module name => .importAs module name
  | .expr value => .expr ⟨value, List.mem_cons_self⟩
  | .assign target value =>
    .assign ⟨target, List.mem_cons_self⟩ ⟨value, List.mem_cons_of_mem _ List.mem_cons_self⟩
  | .define d => .define ⟨d.name, d.params, d.body.attach, d.operation⟩
  | .classDef name body => .classDef name body.attach
  | .scoped context binding body =>
    .scoped ⟨context, List.mem_cons_self⟩
      (binding.attach.map fun ⟨bound, member⟩ =>
        ⟨bound, List.mem_cons_of_mem _ (List.mem_append_left _ (Option.mem_toList.2 member))⟩)
      (body.attach.map fun ⟨part, member⟩ =>
        ⟨part, List.mem_cons_of_mem _ (List.mem_append_right _ member)⟩)
  | .conditional test body orelse =>
    .conditional ⟨test, List.mem_cons_self⟩
      (body.attach.map fun ⟨part, member⟩ =>
        ⟨part, List.mem_cons_of_mem _ (List.mem_append_left _ member)⟩)
      (orelse.attach.map fun ⟨part, member⟩ =>
        ⟨part, List.mem_cons_of_mem _ (List.mem_append_right _ member)⟩)
  | .wire functor operation variant => .wire functor operation variant
  | .pass => .pass

def Node.attach (node : Node ι) : Node { part : ι // part ∈ node.children } :=
  match node with
  | .expr e => .expr e.attach
  | .stmt s => .stmt s.attach

theorem Stmt.attach_map (f : ι → κ) (s : Stmt ι) :
    (s.attach.map fun part => f part.1) = s.map f := by
  match s with
  | .scoped context none body | .scoped context (some binding) body =>
    simp only [Stmt.attach, Stmt.map, List.map_map]
    congr 1
    exact List.attach_map_val
  | .conditional test body orelse =>
    simp only [Stmt.attach, Stmt.map, List.map_map]
    congr 1 <;> exact List.attach_map_val
  | .define d =>
    exact congrArg (fun body => Stmt.define ⟨d.name, d.params, body, d.operation⟩)
      List.attach_map_val
  | .classDef name body => exact congrArg (Stmt.classDef name) List.attach_map_val
  | .importAs .. | .expr .. | .assign .. | .wire .. | .pass => rfl

theorem Node.attach_map (f : ι → κ) (node : Node ι) :
    (node.attach.map fun part => f part.1) = node.map f := by
  cases node with
  | expr e => exact congrArg Node.expr (e.attach_map f)
  | stmt s => exact congrArg Node.stmt (s.attach_map f)

/-- The expression with its parts replaced, in order. -/
def Expr.refill (e : Expr ι) (parts : List ι) : Expr ι :=
  match e with
  | .attribute value attr => .attribute (parts.headD value) attr
  | .call func args keywords =>
    .call (parts.headD func) (parts.tail.take args.length)
      (List.zipWith (fun k value => ⟨k.name, value⟩) keywords (parts.tail.drop args.length))
  | .functor g target => .functor g (parts.headD target)
  | .aggregate _ => .aggregate parts
  | .list _ => .list parts
  | .tuple _ => .tuple parts
  | .compare left op right => .compare (parts.headD left) op (parts.tail.headD right)
  | leaf => leaf

theorem map_value_zipWith (keywords : List (Keyword ι)) (values : List ι)
    (h : values.length = keywords.length) :
    (List.zipWith (fun k value => (⟨k.name, value⟩ : Keyword ι)) keywords values).map
      Keyword.value = values := by
  induction keywords generalizing values with
  | nil => cases values <;> simp_all
  | cons k keywords ih =>
    cases values with
    | nil => simp at h
    | cons value values => simp at h; simp [ih values h]

theorem Expr.children_refill {e : Expr ι} {parts : List ι}
    (h : parts.length = e.children.length) : (e.refill parts).children = parts := by
  cases e with
  | call func args keywords =>
    cases parts with
    | nil => simp [Expr.children] at h
    | cons part parts =>
      simp only [Expr.children, List.length_cons, List.length_append, List.length_map] at h
      have values := map_value_zipWith keywords (parts.drop args.length) (by simp; omega)
      simp only [Expr.refill, Expr.children, List.headD_cons, List.tail_cons, values,
        List.take_append_drop]
  | compare left op right =>
    obtain ⟨x, y, rfl⟩ := List.length_eq_two.1 h
    rfl
  | _ =>
    first
    | obtain ⟨part, rfl⟩ := List.length_eq_one_iff.1 h
      rfl
    | simp_all [Expr.refill, Expr.children]

theorem map_zipWith_keyword (f : ι → κ) (keywords : List (Keyword ι)) (values : List ι) :
    (List.zipWith (fun k value => (⟨k.name, value⟩ : Keyword ι)) keywords values).map
        (Keyword.map f) =
      List.zipWith (fun k value => (⟨k.name, value⟩ : Keyword κ)) (keywords.map (Keyword.map f))
        (values.map f) := by
  induction keywords generalizing values with
  | nil => simp
  | cons k keywords ih => cases values <;> simp [Keyword.map, ih]

theorem Expr.map_refill (f : ι → κ) {e : Expr ι} {parts : List ι}
    (h : parts.length = e.children.length) :
    (e.refill parts).map f = (e.map f).refill (parts.map f) := by
  cases e with
  | call func args keywords =>
    cases parts with
    | nil => simp [Expr.children] at h
    | cons part parts =>
      simp only [Expr.refill, Expr.map, map_zipWith_keyword, List.map_take, List.map_drop,
        List.headD_cons, List.tail_cons, List.map_cons, List.length_map]
  | compare left op right =>
    obtain ⟨x, y, rfl⟩ := List.length_eq_two.1 h
    rfl
  | _ =>
    first
    | obtain ⟨part, rfl⟩ := List.length_eq_one_iff.1 h
      rfl
    | simp_all [Expr.refill, Expr.map]

theorem zipWith_keyword_self (keywords : List (Keyword ι)) :
    List.zipWith (fun k value => (⟨k.name, value⟩ : Keyword ι)) keywords
      (keywords.map Keyword.value) = keywords := by
  induction keywords with
  | nil => rfl
  | cons k keywords ih => simp [ih]

@[simp]
theorem Expr.refill_children (e : Expr ι) : e.refill e.children = e := by
  cases e <;> simp [Expr.refill, Expr.children, zipWith_keyword_self]

/-- Refilling does not depend on the parts that were there. -/
theorem Expr.refill_map (f : ι → ι) {e : Expr ι} {parts : List ι}
    (h : parts.length = e.children.length) : (e.map f).refill parts = e.refill parts := by
  cases e with
  | call func args keywords =>
    cases parts with
    | nil => simp [Expr.children] at h
    | cons part parts =>
      simp only [Expr.map, Expr.refill, List.headD_cons, List.length_map, List.zipWith_map_left]
      rfl
  | compare left op right =>
    obtain ⟨x, y, rfl⟩ := List.length_eq_two.1 h
    rfl
  | _ =>
    first
    | rfl
    | obtain ⟨part, rfl⟩ := List.length_eq_one_iff.1 h
      rfl

theorem Expr.map_eq_refill (f : ι → ι) (e : Expr ι) : e.map f = e.refill (e.children.map f) := by
  rw [← Expr.refill_map f (List.length_map f), ← Expr.children_map, Expr.refill_children]

section Traverse

variable {m : Type → Type} [Monad m] [LawfulMonad m] {β : Type}

theorem mapM_bind_congr {f : ι → m κ} {xs : List ι} {k k' : List κ → m β}
    (h : ∀ ys, ys.length = xs.length → k ys = k' ys) :
    xs.mapM f >>= k = xs.mapM f >>= k' := by
  induction xs generalizing k k' with
  | nil => simpa using h [] rfl
  | cons x xs ih =>
    simp only [List.mapM_cons, bind_assoc, pure_bind]
    congr 1
    funext y
    exact ih fun ys len => h (y :: ys) (by simp [len])

theorem mapM_traverse_keyword (f : ι → m ι) (keywords : List (Keyword ι)) :
    keywords.mapM (Keyword.traverse f) =
      List.zipWith (fun k value => ⟨k.name, value⟩) keywords <$>
        (keywords.map Keyword.value).mapM f := by
  induction keywords with
  | nil => simp
  | cons k keywords ih =>
    simp [Keyword.traverse, ih]

theorem Expr.traverse_eq_refill (f : ι → m ι) (e : Expr ι) :
    e.traverse f = e.refill <$> e.children.mapM f := by
  cases e with
  | call func args keywords =>
    simp only [Expr.traverse, Expr.children, mapM_traverse_keyword, List.mapM_cons,
      List.mapM_append, map_eq_pure_bind, bind_assoc, pure_bind]
    congr 1
    funext a
    apply mapM_bind_congr
    intro args' len
    congr 1
    funext values
    simp [Expr.refill, ← len]
  | compare left op right => simp [Expr.traverse, Expr.refill, Expr.children]
  | _ =>
    first
    | simp [Expr.traverse, Expr.refill, Expr.children]; done
    | simp only [Expr.traverse, Expr.children, ← map_eq_pure_bind]; rfl
end Traverse
end QuantumLowering
