import QuantumLowering.Proofs.Json.Roundtrip
import QuantumLowering.Syntax.Document

namespace QuantumLowering

open Json

namespace Json

@[simp]
theorem plain_ofNat (n : Nat) : Plain (ofNat n) := .number fun _ mem => nomatch mem

@[simp]
theorem plain_ofInt (n : Int) : Plain (ofInt n) := .number fun _ mem => nomatch mem

@[simp]
theorem plain_ofFloat (x : FloatValue) : Plain (ofFloat x) :=
  match x with
  | .finite x => .number (NumeralStyle.plain_numeral _ x)
  | .infinite _ | .nan => .null

@[simp]
theorem plain_ofNats (ns : List Nat) : Plain (ofNats ns) := by simp [ofNats]

@[simp]
theorem plain_ofTexts (names : List String) : Plain (ofTexts names) := by simp [ofTexts]

theorem toInt?_ofInt (n : Int) : (ofInt n).toInt? = some n := by
  have sign : (decide (n < 0) && n.natAbs == 0) = false := by
    rw [Bool.and_eq_false_iff, decide_eq_false_iff_not, beq_eq_false_iff_ne]
    omega
  have value : (if decide (n < 0) then -(n.natAbs : Int) else n.natAbs) = n := by
    by_cases below : n < 0
    · rw [if_pos (decide_eq_true below)]
      omega
    · rw [if_neg (by simpa using below)]
      omega
  simp only [toInt?, ofInt, Numeral.toInt?, Numeral.isIntegral, Numeral.ofInt, sign, value]
  rfl

theorem toInt64?_ofInt (n : Int64) : (ofInt n.toInt).toInt64? = some n := by
  have range : Int64.minValue.toInt ≤ n.toInt ∧ n.toInt ≤ Int64.maxValue.toInt :=
    ⟨n.le_toInt, n.toInt_le⟩
  rw [toInt64?, toInt?_ofInt, Option.bind_eq_bind, Option.bind_some, if_pos range,
    Int64.ofInt_toInt]

theorem toBinary64?_ofBinary64 (x : Binary64) : (ofBinary64 x).toBinary64? = some x :=
  NumeralStyle.toBinary64?_numeral _ (by decide) x

theorem toList?_map {α : Type} {read : Json → Option α} {write : α → Json} {items : List α}
    (each : ∀ a ∈ items, read (write a) = some a) :
    toList? read (.array (items.map write)) = some items := by
  induction items with
  | nil => rfl
  | cons a items ih =>
    have first := each a List.mem_cons_self
    have later := ih fun b mem => each b (List.mem_cons_of_mem _ mem)
    simp only [toList?, toItems?, Option.bind_eq_bind, Option.bind_some, List.map_cons,
      List.mapM_cons, first] at later ⊢
    rw [later]
    rfl

theorem toList?_eq_none {α : Type} {read : Json → Option α} {items : List Json} {j : Json}
    (mem : j ∈ items) (fails : read j = none) : toList? read (.array items) = none := by
  simp only [toList?, toItems?, Option.bind_eq_bind, Option.bind_some]
  induction items with
  | nil => cases mem
  | cons item items ih =>
    rw [List.mapM_cons]
    rcases List.mem_cons.1 mem with rfl | later
    · rw [fails]
      rfl
    · rw [ih later]
      cases read item <;> rfl

theorem toList?_ofTexts (names : List String) : toList? toText? (ofTexts names) = some names :=
  toList?_map fun _ _ => rfl

end Json

theorem idOf?_ofNat {id : NodeId} (narrow : id < UInt32.size) : idOf? (ofNat id) = some id := by
  have integer : (ofNat id).toInt? = some (id : Int) := by
    simp [ofNat, toInt?, Numeral.ofNat, Numeral.toInt?, Numeral.isIntegral]
  have range : 0 ≤ (id : Int) ∧ (id : Int) < (UInt32.size : Nat) :=
    ⟨Int.natCast_nonneg id, Int.ofNat_lt.2 narrow⟩
  rw [idOf?, toNat?, integer, Option.bind_eq_bind, Option.bind_some, if_pos range,
    Int.toNat_natCast]

theorem idsOf?_ofNats {ids : List NodeId} (narrow : ∀ id ∈ ids, id < UInt32.size) :
    idsOf? (ofNats ids) = some ids :=
  toList?_map fun id mem => idOf?_ofNat (narrow id mem)

section Records

variable (a b c d : Json)

theorem Keyword.ofJson?_record : Keyword.ofJson? (.object [("name", a), ("value", b)]) =
    (do return ⟨← a.toText?, ← idOf? b⟩) := rfl

theorem Expr.ofVariant?_int :
    Expr.ofVariant? "Int" a = (do return .int (← a.toInt64?)) := rfl

theorem Expr.ofVariant?_float :
    Expr.ofVariant? "Float" a = (do return .float (.finite (← a.toBinary64?))) := rfl

theorem Expr.ofVariant?_attribute :
    Expr.ofVariant? "Attribute" (.object [("value", a), ("attr", b)]) =
      (do return .attribute (← idOf? a) (← b.toText?)) := rfl

theorem Expr.ofVariant?_call (keywords : List Json) :
    Expr.ofVariant? "Call" (.object ([("func", a), ("args", b)] ++
      nonEmptyField "keywords" keywords)) =
      (do return .call (← idOf? a) (← idsOf? b) (← toList? Keyword.ofJson? (.array keywords))) := by
  cases keywords <;> rfl

theorem Expr.ofVariant?_functor :
    Expr.ofVariant? "Functor" (.object [("functor", a), ("target", b)]) =
      (do return .functor (← GateFunctor.ofJson? a) (← idOf? b)) := rfl

theorem Expr.ofVariant?_aggregate :
    Expr.ofVariant? "ControlAggregate" (.object [("members", a)]) =
      (do return .aggregate (← idsOf? a)) := rfl

theorem Expr.ofVariant?_list :
    Expr.ofVariant? "List" a = (do return .list (← idsOf? a)) := rfl

theorem Expr.ofVariant?_tuple :
    Expr.ofVariant? "Tuple" a = (do return .tuple (← idsOf? a)) := rfl

theorem Expr.ofVariant?_compare :
    Expr.ofVariant? "Compare" (.object [("left", a), ("op", b), ("right", c)]) =
      (do return .compare (← idOf? a) (← Comparison.ofJson? b) (← idOf? c)) := rfl

theorem Definition.ofJson?_plain :
    Definition.ofJson? (.object [("name", a), ("params", b), ("body", c)]) =
      (do return ⟨← a.toText?, ← toList? toText? b, ← idsOf? c, none⟩) := rfl

theorem Definition.ofJson?_operation :
    Definition.ofJson? (.object [("name", a), ("params", b), ("body", c), ("operation", d)]) =
      (do return ⟨← a.toText?, ← toList? toText? b, ← idsOf? c, ← nullable Markers.ofJson? d⟩) :=
  rfl

theorem Stmt.ofVariant?_expr :
    Stmt.ofVariant? "Expr" a = (do return .expr (← idOf? a)) := rfl

theorem Stmt.ofVariant?_define :
    Stmt.ofVariant? "Def" a = (do return .define (← Definition.ofJson? a)) := rfl

theorem Stmt.ofVariant?_assign :
    Stmt.ofVariant? "Assign" (.object [("target", a), ("value", b)]) =
      (do return .assign (← idOf? a) (← idOf? b)) := rfl

theorem Stmt.ofVariant?_class :
    Stmt.ofVariant? "Class" (.object [("name", a), ("body", b)]) =
      (do return .classDef (← a.toText?) (← idsOf? b)) := rfl

theorem Stmt.ofVariant?_unbound :
    Stmt.ofVariant? "With" (.object [("context", a), ("body", b)]) =
      (do return .scoped (← idOf? a) none (← idsOf? b)) := rfl

theorem Stmt.ofVariant?_bound :
    Stmt.ofVariant? "With" (.object [("context", a), ("binding", b), ("body", c)]) =
      (do return .scoped (← idOf? a) (← nullable idOf? b) (← idsOf? c)) := rfl

theorem Stmt.ofVariant?_conditional (orelse : List Json) :
    Stmt.ofVariant? "If" (.object ([("test", a), ("body", b)] ++ nonEmptyField "orelse" orelse)) =
      (do return .conditional (← idOf? a) (← idsOf? b) (← idsOf? (.array orelse))) := by
  cases orelse <;> rfl

theorem Node.ofJson?_expr :
    Node.ofJson? (tagged "Expr" a) = (do return .expr (← Expr.ofJson? a)) := rfl

theorem Node.ofJson?_stmt :
    Node.ofJson? (tagged "Stmt" a) = (do return .stmt (← Stmt.ofJson? a)) := rfl

end Records

theorem GateFunctor.ofJson?_toJson (f : GateFunctor) : GateFunctor.ofJson? f.toJson = some f := by
  cases f <;> rfl

theorem Comparison.ofJson?_toJson (c : Comparison) : Comparison.ofJson? c.toJson = some c := by
  cases c <;> rfl

theorem Keyword.ofJson?_toJson {k : Keyword NodeId} (narrow : k.value < UInt32.size) :
    Keyword.ofJson? k.toJson = some k := by
  rw [Keyword.toJson, Keyword.ofJson?_record, idOf?_ofNat narrow]
  rfl

theorem Expr.ofJson?_tagged (kind : String) (payload : Json) :
    Expr.ofJson? (tagged kind payload) = Expr.ofVariant? kind payload := rfl

theorem Expr.ofJson?_toJson {e : Expr NodeId} (narrow : ∀ id ∈ e.children, id < UInt32.size)
    (finite : ∀ x ∈ (Node.expr e).floats, x.isFinite) : Expr.ofJson? e.toJson = some e := by
  cases e with
  | name x => rfl
  | bool value => rfl
  | str value => rfl
  | int value =>
    rw [toJson, ofJson?_tagged, ofVariant?_int, toInt64?_ofInt]
    rfl
  | float value =>
    cases value with
    | finite x =>
      rw [toJson, ofFloat, ofJson?_tagged, ofVariant?_float, toBinary64?_ofBinary64]
      rfl
    | infinite | nan => simp [Node.floats, FloatValue.isFinite] at finite
  | «attribute» value attr =>
    rw [children, List.forall_mem_singleton] at narrow
    rw [toJson, ofJson?_tagged, ofVariant?_attribute, idOf?_ofNat narrow]
    rfl
  | call func args keywords =>
    rw [children, List.forall_mem_cons, List.forall_mem_append, List.forall_mem_map] at narrow
    obtain ⟨first, second, third⟩ := narrow
    have read : toList? Keyword.ofJson? (.array (keywords.map Keyword.toJson)) = some keywords :=
      toList?_map fun k mem => Keyword.ofJson?_toJson (third k mem)
    rw [toJson, ofJson?_tagged, ofVariant?_call, idOf?_ofNat first, idsOf?_ofNats second, read]
    rfl
  | functor f target =>
    rw [children, List.forall_mem_singleton] at narrow
    rw [toJson, ofJson?_tagged, ofVariant?_functor, GateFunctor.ofJson?_toJson, idOf?_ofNat narrow]
    rfl
  | aggregate members =>
    rw [children] at narrow
    rw [toJson, ofJson?_tagged, ofVariant?_aggregate, idsOf?_ofNats narrow]
    rfl
  | list items =>
    rw [children] at narrow
    rw [toJson, ofJson?_tagged, ofVariant?_list, idsOf?_ofNats narrow]
    rfl
  | tuple items =>
    rw [children] at narrow
    rw [toJson, ofJson?_tagged, ofVariant?_tuple, idsOf?_ofNats narrow]
    rfl
  | compare left op right =>
    rw [children, List.forall_mem_cons, List.forall_mem_singleton] at narrow
    rw [toJson, ofJson?_tagged, ofVariant?_compare, idOf?_ofNat narrow.1,
      Comparison.ofJson?_toJson, idOf?_ofNat narrow.2]
    rfl

theorem Definition.ofJson?_toJson {d : Definition NodeId}
    (narrow : ∀ id ∈ d.body, id < UInt32.size) : Definition.ofJson? d.toJson = some d := by
  obtain ⟨name, params, body, operation⟩ := d
  cases operation with
  | none =>
    simp only [toJson, Option.map_none, Option.toList_none, List.append_nil]
    rw [ofJson?_plain, toList?_ofTexts, idsOf?_ofNats narrow]
    rfl
  | some markers =>
    simp only [toJson, Option.map_some, Option.toList_some, List.cons_append, List.nil_append]
    rw [ofJson?_operation, toList?_ofTexts, idsOf?_ofNats narrow]
    rfl

theorem Stmt.ofJson?_tagged (kind : String) (payload : Json) :
    Stmt.ofJson? (tagged kind payload) = Stmt.ofVariant? kind payload := by
  simp [Stmt.ofJson?, tagged, variant?]

theorem Stmt.ofJson?_toJson {s : Stmt NodeId} (narrow : ∀ id ∈ s.children, id < UInt32.size) :
    Stmt.ofJson? s.toJson = some s := by
  cases s with
  | importAs module name => rfl
  | pass => rfl
  | wire f operation variant =>
    cases f <;> rfl
  | expr value =>
    rw [children, List.forall_mem_singleton] at narrow
    rw [toJson, ofJson?_tagged, ofVariant?_expr, idOf?_ofNat narrow]
    rfl
  | assign target value =>
    rw [children, List.forall_mem_cons, List.forall_mem_singleton] at narrow
    rw [toJson, ofJson?_tagged, ofVariant?_assign, idOf?_ofNat narrow.1, idOf?_ofNat narrow.2]
    rfl
  | define d =>
    rw [children] at narrow
    rw [toJson, ofJson?_tagged, ofVariant?_define, Definition.ofJson?_toJson narrow]
    rfl
  | classDef name body =>
    rw [children] at narrow
    rw [toJson, ofJson?_tagged, ofVariant?_class, idsOf?_ofNats narrow]
    rfl
  | «scoped» context binding body =>
    rw [children, List.forall_mem_cons, List.forall_mem_append] at narrow
    obtain ⟨first, second, third⟩ := narrow
    cases binding with
    | none =>
      simp only [toJson, Option.map_none, Option.toList_none, List.nil_append]
      rw [ofJson?_tagged, ofVariant?_unbound, idOf?_ofNat first, idsOf?_ofNats third]
      rfl
    | some b =>
      have read : nullable idOf? (ofNat b) = (idOf? (ofNat b)).map some := rfl
      simp only [toJson, Option.map_some, Option.toList_some, List.cons_append, List.nil_append]
      rw [ofJson?_tagged, ofVariant?_bound, idOf?_ofNat first, read, idsOf?_ofNats third,
        idOf?_ofNat (second b (by simp))]
      rfl
  | conditional test body orelse =>
    rw [children, List.forall_mem_cons, List.forall_mem_append] at narrow
    obtain ⟨first, second, third⟩ := narrow
    have read : idsOf? (.array (orelse.map ofNat)) = some orelse := idsOf?_ofNats third
    rw [toJson, ofJson?_tagged, ofVariant?_conditional, idOf?_ofNat first, idsOf?_ofNats second,
      read]
    rfl

theorem Node.ofJson?_toJson {node : Node NodeId} (narrow : ∀ id ∈ node.children, id < UInt32.size)
    (finite : ∀ x ∈ node.floats, x.isFinite) : Node.ofJson? node.toJson = some node := by
  cases node with
  | expr e =>
    rw [toJson, ofJson?_expr, Expr.ofJson?_toJson narrow finite]
    rfl
  | stmt s =>
    rw [toJson, ofJson?_stmt, Stmt.ofJson?_toJson narrow]
    rfl

theorem Node.ofJson?_toJson_eq_none {node : Node NodeId} {x : FloatValue} (mem : x ∈ node.floats)
    (infinite : x.isFinite = false) : Node.ofJson? node.toJson = none := by
  match node with
  | .expr (.float value) =>
    obtain rfl := List.mem_singleton.1 mem
    cases x with
    | finite => cases infinite
    | infinite | nan => rfl

@[simp]
theorem plain_tagged (name : String) (payload : Json) :
    Plain (tagged name payload) ↔ Plain payload := by
  simp [tagged]

theorem plain_of_mem_nonEmptyField {name : String} {items : List Json}
    (plain : ∀ item ∈ items, Plain item) {field : String × Json}
    (mem : field ∈ nonEmptyField name items) : Plain field.2 := by
  unfold nonEmptyField at mem
  split at mem
  · cases mem
  · rw [List.mem_singleton.1 mem]
    exact .array plain

@[simp]
theorem GateFunctor.plain_toJson (f : GateFunctor) : Plain f.toJson := .text _

@[simp]
theorem Comparison.plain_toJson (c : Comparison) : Plain c.toJson := by
  cases c <;> exact .text _

@[simp]
theorem Keyword.plain_toJson (k : Keyword NodeId) : Plain k.toJson := by simp [toJson]

theorem Expr.plain_toJson (e : Expr NodeId) : Plain e.toJson := by
  cases e with
  | call func args keywords =>
    have fields : ∀ field ∈ nonEmptyField "keywords" (keywords.map Keyword.toJson),
        Plain field.2 := fun _ => plain_of_mem_nonEmptyField (by simp)
    simp only [toJson, plain_tagged, plain_object, List.forall_mem_append]
    exact ⟨by simp, fields⟩
  | _ => simp [toJson]

theorem Definition.plain_toJson (d : Definition NodeId) : Plain d.toJson := by
  cases operation : d.operation <;> simp [toJson, operation, Markers.toJson]

theorem Stmt.plain_toJson (s : Stmt NodeId) : Plain s.toJson := by
  cases s with
  | define d => simpa [toJson] using d.plain_toJson
  | «scoped» context binding body => cases binding <;> simp [toJson]
  | conditional test body orelse =>
    have fields : ∀ field ∈ nonEmptyField "orelse" (orelse.map ofNat), Plain field.2 :=
      fun _ => plain_of_mem_nonEmptyField (by simp)
    simp only [toJson, plain_tagged, plain_object, List.forall_mem_append]
    exact ⟨by simp, fields⟩
  | _ => simp [toJson]

namespace SyntaxTree

variable {t : SyntaxTree}

/-- Every reference in the tree, from a node or from the body, is a number of 32 bits. -/
def Narrow (t : SyntaxTree) : Prop :=
  (∀ node ∈ t.nodes.toList, ∀ id ∈ node.children, id < UInt32.size) ∧
    ∀ id ∈ t.body, id < UInt32.size

instance (t : SyntaxTree) : Decidable t.Narrow := inferInstanceAs (Decidable (_ ∧ _))

/-- No float literal in the tree is an infinity or a NaN. -/
def FiniteFloats (t : SyntaxTree) : Prop :=
  ∀ node ∈ t.nodes.toList, ∀ x ∈ node.floats, x.isFinite

instance (t : SyntaxTree) : Decidable t.FiniteFloats :=
  inferInstanceAs (Decidable (∀ node ∈ t.nodes.toList, ∀ x ∈ node.floats, x.isFinite))

theorem plain_toJson (t : SyntaxTree) : Plain t.toJson := by
  have nodes : ∀ node : Node NodeId, Plain node.toJson := by
    intro node
    cases node with
    | expr e => simpa [Node.toJson] using e.plain_toJson
    | stmt s => simpa [Node.toJson] using s.plain_toJson
  simp [toJson, nodes]

theorem ofJson?_record (a b : Json) : ofJson? (.object [("nodes", a), ("body", b)]) =
    (do return ⟨(← toList? Node.ofJson? a).toArray, ← idsOf? b⟩) := rfl

theorem ofJson?_toJson (narrow : t.Narrow) (finite : t.FiniteFloats) :
    ofJson? t.toJson = some t := by
  have nodes : toList? Node.ofJson? (.array (t.nodes.toList.map Node.toJson)) =
      some t.nodes.toList :=
    toList?_map fun node mem => Node.ofJson?_toJson (narrow.1 node mem) (finite node mem)
  rw [toJson, ofJson?_record, nodes, idsOf?_ofNats narrow.2]
  rfl

/-- Of a tree with an infinity or a NaN for a literal, a text is written that cannot be read. -/
theorem read_write_of_not_finite (style : Json.Style) (infinite : ¬ t.FiniteFloats) :
    read (t.write style) = .error .malformed := by
  simp only [FiniteFloats, not_forall, Bool.not_eq_true] at infinite
  obtain ⟨node, mem, x, literal, infinite⟩ := infinite
  have nodes : toList? Node.ofJson? (.array (t.nodes.toList.map Node.toJson)) = none :=
    toList?_eq_none (List.mem_map_of_mem mem) (Node.ofJson?_toJson_eq_none literal infinite)
  rw [read, write, parse?_render style t.plain_toJson, ofDocument, Option.bind_some, toJson,
    ofJson?_record, nodes]
  rfl

/-- The text of a tree with finite literals, in either style, reads as the tree if the tree is well
formed, and else fails as the tree does. -/
theorem read_write (narrow : t.Narrow) (finite : t.FiniteFloats) (style : Json.Style) :
    (t.validate = .ok () → read (t.write style) = .ok t) ∧
      ∀ e, t.validate = .error e → read (t.write style) = .error e := by
  have text : read (t.write style) = (do t.validate; return t) := by
    rw [read, write, parse?_render style t.plain_toJson, ofDocument, Option.bind_some,
      ofJson?_toJson narrow finite]
  rw [text]
  refine ⟨fun valid => ?_, fun e failed => ?_⟩
  · rw [valid]
    rfl
  · rw [failed]
    rfl

def labelledCall (body : List NodeId) : SyntaxTree :=
  ⟨#[.expr (.name "rx"), .expr (.float (.finite ⟨true, 0x3FB999999999999A, by decide⟩)),
    .expr (.str "a\\b\"\n\x01π"), .expr (.call 0 [1] [⟨"label", 2⟩]), .stmt (.expr 3),
    .stmt (.define ⟨"tilt", ["q"], [4], some ⟨true, false⟩⟩)], body⟩

theorem read_write_labelledCall :
    (labelledCall [5]).Narrow ∧ (labelledCall [5]).FiniteFloats ∧
      (labelledCall [5]).validate = .ok () ∧
      read ((labelledCall [5]).write .indented) = .ok (labelledCall [5]) ∧
      (labelledCall [5, 4]).Narrow ∧ (labelledCall [5, 4]).FiniteFloats ∧
      (labelledCall [5, 4]).validate = .error (.reachedTwice 4) ∧
      read ((labelledCall [5, 4]).write .compact) = .error (.reachedTwice 4) := by
  have narrow : (labelledCall [5]).Narrow := by decide
  have narrow' : (labelledCall [5, 4]).Narrow := by decide
  have finite : (labelledCall [5]).FiniteFloats := by decide
  have finite' : (labelledCall [5, 4]).FiniteFloats := by decide
  have valid : (labelledCall [5]).validate = .ok () := by
    simp [validate, validateFrom, children, node, labelledCall, Node.children, Stmt.children,
      Expr.children]
  have twice : (labelledCall [5, 4]).validate = .error (.reachedTwice 4) := by
    simp [validate, validateFrom, children, node, labelledCall, Node.children, Stmt.children,
      Expr.children]
  exact ⟨narrow, finite, valid, (read_write narrow finite .indented).1 valid, narrow', finite',
    twice, (read_write narrow' finite' .compact).2 _ twice⟩

end SyntaxTree

end QuantumLowering
