import QuantumLowering.Json.Reader
import QuantumLowering.Json.Record
import QuantumLowering.Json.Writer
import QuantumLowering.Syntax.Walk

namespace QuantumLowering

open Json

def GateFunctor.toJson (f : GateFunctor) : Json := .text f.name

def Comparison.toJson : Comparison → Json
  | .equal => .text "Eq"
  | .notEqual => .text "NotEq"

def Keyword.toJson (k : Keyword NodeId) : Json :=
  .object [("name", .text k.name), ("value", ofNat k.value)]

def tagged (name : String) (payload : Json) : Json := .object [(name, payload)]

def nonEmptyField (name : String) (items : List Json) : List (String × Json) :=
  if items.isEmpty then [] else [(name, .array items)]

def Expr.toJson : Expr NodeId → Json
  | .name x => tagged "Name" (.text x)
  | .int value => tagged "Int" (ofInt value.toInt)
  | .float value => tagged "Float" (ofFloat value)
  | .bool value => tagged "Bool" (.bool value)
  | .str value => tagged "Str" (.text value)
  | .attribute value attr =>
    tagged "Attribute" (.object [("value", ofNat value), ("attr", .text attr)])
  | .call func args keywords =>
    tagged "Call" (.object ([("func", ofNat func), ("args", ofNats args)] ++
      nonEmptyField "keywords" (keywords.map Keyword.toJson)))
  | .functor f target =>
    tagged "Functor" (.object [("functor", f.toJson), ("target", ofNat target)])
  | .aggregate members => tagged "ControlAggregate" (.object [("members", ofNats members)])
  | .list items => tagged "List" (ofNats items)
  | .tuple items => tagged "Tuple" (ofNats items)
  | .compare left op right =>
    tagged "Compare" (.object [("left", ofNat left), ("op", op.toJson), ("right", ofNat right)])

def Markers.toJson (m : Markers) : Json :=
  .object [("adjoint", .bool m.adjoint), ("controlled", .bool m.controlled)]

def Definition.toJson (d : Definition NodeId) : Json :=
  .object ([("name", .text d.name), ("params", ofTexts d.params), ("body", ofNats d.body)] ++
    (d.operation.map fun m => ("operation", m.toJson)).toList)

def Stmt.toJson : Stmt NodeId → Json
  | .importAs module name =>
    tagged "Import" (.object [("module", .text module), ("alias", .text name)])
  | .expr value => tagged "Expr" (ofNat value)
  | .assign target value =>
    tagged "Assign" (.object [("target", ofNat target), ("value", ofNat value)])
  | .define d => tagged "Def" d.toJson
  | .classDef name body => tagged "Class" (.object [("name", .text name), ("body", ofNats body)])
  | .scoped context binding body =>
    tagged "With" (.object (("context", ofNat context) ::
      ((binding.map fun b => ("binding", ofNat b)).toList ++ [("body", ofNats body)])))
  | .conditional test body orelse =>
    tagged "If" (.object ([("test", ofNat test), ("body", ofNats body)] ++
      nonEmptyField "orelse" (orelse.map ofNat)))
  | .wire f operation variant =>
    tagged "Wire" (.object
      [("functor", f.toJson), ("operation", .text operation), ("variant", .text variant)])
  | .pass => .text "Pass"

def Node.toJson : Node NodeId → Json
  | .expr e => tagged "Expr" e.toJson
  | .stmt s => tagged "Stmt" s.toJson

def SyntaxTree.toJson (t : SyntaxTree) : Json :=
  .object [("nodes", .array (t.nodes.toList.map Node.toJson)), ("body", ofNats t.body)]

def idOf? (j : Json) : Option NodeId := j.toNat? UInt32.size

def idsOf? (j : Json) : Option (List NodeId) := j.toList? idOf?

def GateFunctor.ofJson? (j : Json) : Option GateFunctor := do
  let (name, payload) ← j.variant?
  if carriesNothing payload then
    match name with
    | "Adjoint" => some .adjoint
    | "Controlled" => some .controlled
    | _ => none
  else none

def Comparison.ofJson? (j : Json) : Option Comparison := do
  let (name, payload) ← j.variant?
  if carriesNothing payload then
    match name with
    | "Eq" => some .equal
    | "NotEq" => some .notEqual
    | _ => none
  else none

def Keyword.ofJson? (j : Json) : Option (Keyword NodeId) := do
  match ← j.slots? ["name", "value"] with
  | [name, value] => return ⟨← required toText? name, ← required idOf? value⟩
  | _ => none

def Expr.ofVariant? (name : String) (payload : Json) : Option (Expr NodeId) := do
  match name with
  | "Name" => return .name (← payload.toText?)
  | "Int" => return .int (← payload.toInt64?)
  | "Float" => return .float (.finite (← payload.toBinary64?))
  | "Bool" => return .bool (← payload.toBool?)
  | "Str" => return .str (← payload.toText?)
  | "Attribute" =>
    match ← payload.slots? ["value", "attr"] with
    | [value, attr] => return .attribute (← required idOf? value) (← required toText? attr)
    | _ => none
  | "Call" =>
    match ← payload.slots? ["func", "args", "keywords"] with
    | [func, args, keywords] =>
      return .call (← required idOf? func) (← required idsOf? args)
        (← optional [] (toList? Keyword.ofJson?) keywords)
    | _ => none
  | "Functor" =>
    match ← payload.slots? ["functor", "target"] with
    | [f, target] => return .functor (← required GateFunctor.ofJson? f) (← required idOf? target)
    | _ => none
  | "ControlAggregate" =>
    match ← payload.slots? ["members"] with
    | [members] => return .aggregate (← required idsOf? members)
    | _ => none
  | "List" => return .list (← idsOf? payload)
  | "Tuple" => return .tuple (← idsOf? payload)
  | "Compare" =>
    match ← payload.slots? ["left", "op", "right"] with
    | [left, op, right] =>
      return .compare (← required idOf? left) (← required Comparison.ofJson? op)
        (← required idOf? right)
    | _ => none
  | _ => none

def Expr.ofJson? (j : Json) : Option (Expr NodeId) := do
  let (kind, payload) ← j.variant?
  Expr.ofVariant? kind (← payload)

def Markers.ofJson? (j : Json) : Option Markers := do
  match ← j.slots? ["adjoint", "controlled"] with
  | [adjoint, controlled] =>
    return ⟨← optional false toBool? adjoint, ← optional false toBool? controlled⟩
  | _ => none

def Definition.ofJson? (j : Json) : Option (Definition NodeId) := do
  match ← j.slots? ["name", "params", "body", "operation"] with
  | [name, params, body, operation] =>
    return ⟨← required toText? name, ← required (toList? toText?) params, ← required idsOf? body,
      ← optional none (nullable Markers.ofJson?) operation⟩
  | _ => none

def Stmt.ofVariant? (name : String) (payload : Json) : Option (Stmt NodeId) := do
  match name with
  | "Import" =>
    match ← payload.slots? ["module", "alias"] with
    | [module, name] => return .importAs (← required toText? module) (← required toText? name)
    | _ => none
  | "Expr" => return .expr (← idOf? payload)
  | "Assign" =>
    match ← payload.slots? ["target", "value"] with
    | [target, value] => return .assign (← required idOf? target) (← required idOf? value)
    | _ => none
  | "Def" => return .define (← Definition.ofJson? payload)
  | "Class" =>
    match ← payload.slots? ["name", "body"] with
    | [name, body] => return .classDef (← required toText? name) (← required idsOf? body)
    | _ => none
  | "With" =>
    match ← payload.slots? ["context", "binding", "body"] with
    | [context, binding, body] =>
      return .scoped (← required idOf? context) (← optional none (nullable idOf?) binding)
        (← required idsOf? body)
    | _ => none
  | "If" =>
    match ← payload.slots? ["test", "body", "orelse"] with
    | [test, body, orelse] =>
      return .conditional (← required idOf? test) (← required idsOf? body)
        (← optional [] idsOf? orelse)
    | _ => none
  | "Wire" =>
    match ← payload.slots? ["functor", "operation", "variant"] with
    | [f, operation, variant] =>
      return .wire (← required GateFunctor.ofJson? f) (← required toText? operation)
        (← required toText? variant)
    | _ => none
  | "Pass" => if carriesNothing (some payload) then some .pass else none
  | _ => none

def Stmt.ofJson? (j : Json) : Option (Stmt NodeId) := do
  match ← j.variant? with
  | ("Pass", none) => some .pass
  | (name, payload) => Stmt.ofVariant? name (← payload)

def Node.ofJson? (j : Json) : Option (Node NodeId) := do
  match ← j.variant? with
  | ("Expr", some payload) => return .expr (← Expr.ofJson? payload)
  | ("Stmt", some payload) => return .stmt (← Stmt.ofJson? payload)
  | _ => none

namespace SyntaxTree

def ofJson? (j : Json) : Option SyntaxTree := do
  match ← j.slots? ["nodes", "body"] with
  | [nodes, body] =>
    return ⟨(← required (toList? Node.ofJson?) nodes).toArray, ← required idsOf? body⟩
  | _ => none

def ofDocument (document : Option Json) : Except TreeError SyntaxTree :=
  match document.bind ofJson? with
  | none => .error .malformed
  | some t => do
    t.validate
    return t

def read (source : String) : Except TreeError SyntaxTree := ofDocument (Json.parse? source)

def write (style : Json.Style) (t : SyntaxTree) : String := t.toJson.render style

end SyntaxTree

end QuantumLowering
