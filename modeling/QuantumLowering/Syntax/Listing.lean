import QuantumLowering.Number.Numeral
import QuantumLowering.Syntax.Tree

namespace QuantumLowering

def truthText (b : Bool) : String := if b then "True" else "False"

def floatText : FloatValue → String
  | .finite x => (NumeralStyle.listing.numeral x).text false
  | .infinite negative => if negative then "-inf" else "inf"
  | .nan => "NaN"

namespace SyntaxTree

def commaSeparated (parts : List String) : String := ", ".intercalate parts

/-- Prints an expression down to the given depth. The arguments of a call are printed before its
callee, so that their failures come first. -/
def renderExprWithin (t : SyntaxTree) : Nat → NodeId → Except TreeError String
  | 0, id => .error (.cyclic id)
  | depth + 1, id => do
    let render := t.renderExprWithin depth
    match ← t.expr id with
    | .name name => return name
    | .int value => return toString value.toInt
    | .float value => return floatText value
    | .bool value => return truthText value
    | .str value => return "'" ++ value ++ "'"
    | .attribute value attr => return (← render value) ++ "." ++ attr
    | .call func args keywords =>
      let args ← args.mapM render
      let named ← keywords.mapM fun k => do return k.name ++ "=" ++ (← render k.value)
      return (← render func) ++ "(" ++ commaSeparated (args ++ named) ++ ")"
    | .functor functor target => return functor.name ++ "[" ++ (← render target) ++ "]"
    | .aggregate members => return "[" ++ commaSeparated (← members.mapM render) ++ "]"
    | .list items => return "[" ++ commaSeparated (← items.mapM render) ++ "]"
    | .tuple [item] => return "(" ++ (← render item) ++ ",)"
    | .tuple items => return "(" ++ commaSeparated (← items.mapM render) ++ ")"
    | .compare left op right =>
      let left ← render left
      let right ← render right
      return left ++ (match op with | .equal => " == " | .notEqual => " != ") ++ right

def renderExpr (t : SyntaxTree) (id : NodeId) : Except TreeError String :=
  t.renderExprWithin t.depthBound id

def indented (lines : List String) : List String := lines.map ("    " ++ ·)

def nestedLines (render : NodeId → Except TreeError (List String)) (ids : List NodeId) :
    Except TreeError (List String) := do
  if ids.isEmpty then return ["    pass"]
  let lines ← ids.mapM render
  return indented lines.flatten

def markerLines : Option Markers → List String
  | none => []
  | some m => ["@qdef(adj=" ++ truthText m.adjoint ++ ", ctl=" ++ truthText m.controlled ++ ")"]

def renderStmtWithin (t : SyntaxTree) : Nat → NodeId → Except TreeError (List String)
  | 0, id => .error (.cyclic id)
  | depth + 1, id => do
    let nested := nestedLines (t.renderStmtWithin depth)
    match ← t.stmt id with
    | .importAs module name => return ["import " ++ module ++ " as " ++ name]
    | .expr value => return [← t.renderExpr value]
    | .assign target value =>
      let target ← t.renderExpr target
      let value ← t.renderExpr value
      return [target ++ " = " ++ value]
    | .define d =>
      let head := "def " ++ d.name ++ "(" ++ commaSeparated d.params ++ "):"
      return markerLines d.operation ++ head :: (← nested d.body)
    | .classDef name body => return ("class " ++ name ++ ":") :: (← nested body)
    | .scoped context binding body =>
      let context ← t.renderExpr context
      let bound ← match binding with
        | none => pure ""
        | some b => do pure (" as " ++ (← t.renderExpr b))
      return ("with " ++ context ++ bound ++ ":") :: (← nested body)
    | .conditional test body orelse =>
      let test ← t.renderExpr test
      let body ← nested body
      let orelse ← if orelse.isEmpty then pure [] else do pure ("else:" :: (← nested orelse))
      return ("if " ++ test ++ ":") :: (body ++ orelse)
    | .wire functor operation variant =>
      return [functor.name ++ "[" ++ operation ++ "] := " ++ variant]
    | .pass => return ["pass"]

def renderBlock (t : SyntaxTree) (ids : List NodeId) : Except TreeError (List String) := do
  let lines ← ids.mapM (t.renderStmtWithin t.depthBound)
  return lines.flatten

def render (t : SyntaxTree) : Except TreeError String := do
  return "\n".intercalate (← t.renderBlock t.body)

end SyntaxTree

end QuantumLowering
