import QuantumLowering.Number.Binary64

namespace QuantumLowering

inductive GateFunctor where
  | adjoint
  | controlled
deriving DecidableEq, Repr, Inhabited

namespace GateFunctor

def name : GateFunctor → String
  | .adjoint => "Adjoint"
  | .controlled => "Controlled"

def suffix : GateFunctor → String
  | .adjoint => "adj"
  | .controlled => "ctl"

end GateFunctor

inductive Comparison where
  | equal
  | notEqual
deriving DecidableEq, Repr, Inhabited

structure Keyword (ι : Type) where
  name : String
  value : ι
deriving DecidableEq, Repr

inductive Expr (ι : Type) where
  | name (name : String)
  | int (value : Int64)
  | float (value : FloatValue)
  | bool (value : Bool)
  | str (value : String)
  | attribute (value : ι) (attr : String)
  | call (func : ι) (args : List ι) (keywords : List (Keyword ι))
  | functor (functor : GateFunctor) (target : ι)
  | aggregate (members : List ι)
  | list (items : List ι)
  | tuple (items : List ι)
  | compare (left : ι) (op : Comparison) (right : ι)
deriving DecidableEq, Repr

structure Markers where
  adjoint : Bool
  controlled : Bool
deriving DecidableEq, Repr, Inhabited

namespace Markers

def none : Markers := ⟨false, false⟩

def requests (m : Markers) : GateFunctor → Bool
  | .adjoint => m.adjoint
  | .controlled => m.controlled

end Markers

structure Definition (ι : Type) where
  name : String
  params : List String
  body : List ι
  operation : Option Markers
deriving DecidableEq, Repr

namespace Definition

variable {ι : Type}

def isOperation (d : Definition ι) : Bool := d.operation.isSome

def markers (d : Definition ι) : Markers := d.operation.getD .none

end Definition

inductive Stmt (ι : Type) where
  | importAs (module : String) (name : String)
  | expr (value : ι)
  | assign (target : ι) (value : ι)
  | define (definition : Definition ι)
  | classDef (name : String) (body : List ι)
  | scoped (context : ι) (binding : Option ι) (body : List ι)
  | conditional (test : ι) (body : List ι) (orelse : List ι)
  | wire (functor : GateFunctor) (operation : String) (variant : String)
  | pass
deriving DecidableEq, Repr

inductive Node (ι : Type) where
  | expr (value : Expr ι)
  | stmt (value : Stmt ι)
deriving DecidableEq, Repr

variable {ι κ : Type}

def Expr.kind : Expr ι → String
  | .name .. => "name"
  | .int .. => "integer literal"
  | .float .. => "float literal"
  | .bool .. => "boolean literal"
  | .str .. => "string literal"
  | .attribute .. => "attribute"
  | .call .. => "call"
  | .functor .. => "functor application"
  | .aggregate .. => "control aggregate"
  | .list .. => "list"
  | .tuple .. => "tuple"
  | .compare .. => "comparison"

def Stmt.kind : Stmt ι → String
  | .importAs .. => "import"
  | .expr .. => "expression statement"
  | .assign .. => "assignment"
  | .define .. => "definition"
  | .classDef .. => "class"
  | .scoped .. => "scoped block"
  | .conditional .. => "conditional"
  | .wire .. => "functor wiring"
  | .pass => "pass"

def Node.category : Node ι → String
  | .expr _ => "expression"
  | .stmt _ => "statement"

def Expr.children : Expr ι → List ι
  | .attribute value _ => [value]
  | .call func args keywords => func :: (args ++ keywords.map Keyword.value)
  | .functor _ target => [target]
  | .aggregate members => members
  | .list items => items
  | .tuple items => items
  | .compare left _ right => [left, right]
  | _ => []

/-- The parts of a statement: its expressions, then the statements in it. -/
def Stmt.children : Stmt ι → List ι
  | .expr value => [value]
  | .assign target value => [target, value]
  | .define definition => definition.body
  | .classDef _ body => body
  | .scoped context binding body => context :: (binding.toList ++ body)
  | .conditional test body orelse => test :: (body ++ orelse)
  | _ => []

def Node.children : Node ι → List ι
  | .expr e => e.children
  | .stmt s => s.children

def Node.floats : Node ι → List FloatValue
  | .expr (.float value) => [value]
  | _ => []

section Traverse

variable {m : Type → Type} [Monad m]

def Keyword.traverse (f : ι → m κ) (k : Keyword ι) : m (Keyword κ) := do
  return ⟨k.name, ← f k.value⟩

def Expr.traverse (f : ι → m κ) : Expr ι → m (Expr κ)
  | .name x => pure (.name x)
  | .int value => pure (.int value)
  | .float value => pure (.float value)
  | .bool value => pure (.bool value)
  | .str value => pure (.str value)
  | .attribute value attr => do return .attribute (← f value) attr
  | .call func args keywords => do
    let func ← f func
    let args ← args.mapM f
    let keywords ← keywords.mapM (Keyword.traverse f)
    return .call func args keywords
  | .functor g target => do return .functor g (← f target)
  | .aggregate members => do return .aggregate (← members.mapM f)
  | .list items => do return .list (← items.mapM f)
  | .tuple items => do return .tuple (← items.mapM f)
  | .compare left op right => do
    let left ← f left
    let right ← f right
    return .compare left op right

def Stmt.traverse (f : ι → m κ) : Stmt ι → m (Stmt κ)
  | .importAs module name => pure (.importAs module name)
  | .expr value => do return .expr (← f value)
  | .assign target value => do
    let target ← f target
    let value ← f value
    return .assign target value
  | .define d => do return .define ⟨d.name, d.params, ← d.body.mapM f, d.operation⟩
  | .classDef name body => do return .classDef name (← body.mapM f)
  | .scoped context binding body => do
    let context ← f context
    let binding ← match binding with
      | none => pure none
      | some b => some <$> f b
    let body ← body.mapM f
    return .scoped context binding body
  | .conditional test body orelse => do
    let test ← f test
    let body ← body.mapM f
    let orelse ← orelse.mapM f
    return .conditional test body orelse
  | .wire functor operation variant => pure (.wire functor operation variant)
  | .pass => pure .pass

def Node.traverse (f : ι → m κ) : Node ι → m (Node κ)
  | .expr e => do return .expr (← e.traverse f)
  | .stmt s => do return .stmt (← s.traverse f)

end Traverse

/-- Equal up to the parts, which agree in number between every two boundaries. Float literals are
compared as numbers. -/
def Expr.sameHead : Expr ι → Expr κ → Bool
  | .name x, .name y => x == y
  | .int x, .int y => x == y
  | .float x, .float y => x.agrees y
  | .bool x, .bool y => x == y
  | .str x, .str y => x == y
  | .attribute _ x, .attribute _ y => x == y
  | .call _ xs xk, .call _ ys yk =>
    xs.length == ys.length && xk.map Keyword.name == yk.map Keyword.name
  | .functor x _, .functor y _ => x == y
  | .aggregate xs, .aggregate ys => xs.length == ys.length
  | .list xs, .list ys => xs.length == ys.length
  | .tuple xs, .tuple ys => xs.length == ys.length
  | .compare _ x _, .compare _ y _ => x == y
  | _, _ => false

def Stmt.sameHead : Stmt ι → Stmt κ → Bool
  | .importAs xm xa, .importAs ym ya => xm == ym && xa == ya
  | .expr _, .expr _ => true
  | .assign _ _, .assign _ _ => true
  | .define x, .define y =>
    x.name == y.name && x.params == y.params && x.operation == y.operation &&
      x.body.length == y.body.length
  | .classDef x xs, .classDef y ys => x == y && xs.length == ys.length
  | .scoped _ xb xs, .scoped _ yb ys => xb.isSome == yb.isSome && xs.length == ys.length
  | .conditional _ xs xo, .conditional _ ys yo => xs.length == ys.length && xo.length == yo.length
  | .wire xf xo xv, .wire yf yo yv => xf == yf && xo == yo && xv == yv
  | .pass, .pass => true
  | _, _ => false

def Node.sameHead : Node ι → Node κ → Bool
  | .expr x, .expr y => x.sameHead y
  | .stmt x, .stmt y => x.sameHead y
  | _, _ => false

end QuantumLowering
