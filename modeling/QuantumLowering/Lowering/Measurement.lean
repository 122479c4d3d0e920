import QuantumLowering.Lowering.Chain
import QuantumLowering.Lowering.Context

/-!
Measurements of an allocation block are moved out of its statements and executed in one batch: each
is replaced by the name of its value, and the batch stands before the first statement that uses one.
-/

namespace QuantumLowering

namespace SyntaxTree

def isAllocation (t : SyntaxTree) (options : Options) (context : NodeId) :
    Except TreeError Bool :=
  t.isCallTo context options.allocateFn

/-- The outermost measurements in an expression, in evaluation order. -/
def measurementsWithin (t : SyntaxTree) (measureFn : String) :
    Nat → NodeId → Except TreeError (List NodeId)
  | 0, id => .error (.cyclic id)
  | depth + 1, id => do
    if ← t.isCallTo id measureFn then return [id]
    else
      let e ← t.expr id
      return (← e.children.mapM (t.measurementsWithin measureFn depth)).flatten

def measurements (t : SyntaxTree) (measureFn : String) (id : NodeId) :
    Except TreeError (List NodeId) :=
  t.measurementsWithin measureFn t.depthBound id

end SyntaxTree

namespace LowerM

open TreeM

def hoistMeasurement (site : NodeId) : LowerM Unit := do
  let call ← expr site
  let moved ← addExpr call
  match ← ContextM.recordMeasurement moved with
  | some placeholder => setExpr site (.name placeholder)
  | none => throw (.invariant .measurementOutsideAllocation)

def replaceMeasurements (expr : NodeId) : LowerM Unit := do
  unless (← context).frames.isEmpty do
    let sites ← (← tree).measurements (← options).measureFn expr
    sites.forM hoistMeasurement

/-- The assignments of the measurements to proxies, numbered from `ordinal` on, and the names of the
proxies. -/
def emitProxies : Nat → List HoistEntry → LowerM (List (NodeId × String))
  | _, [] => return []
  | ordinal, entry :: entries => do
    let proxy ← ContextM.freshName ((← options).proxyStem ++ Nat.repr ordinal)
    let target ← addName proxy
    let assign ← addAssign target entry.call
    return (assign, proxy) :: (← emitProxies (ordinal + 1) entries)

def emitExecution (proxies placeholders : List String) : LowerM NodeId := do
  let boilerplate ← addName (← options).boilerplateAlias
  let execute ← addAttribute boilerplate (← options).executeFn
  let args ← addNames proxies
  let call ← addCall execute args
  let targets ← addNames placeholders
  let target ← addTuple targets
  addAssign target call

/-- The body with its batch in front of the first statement with a measurement. -/
def emitBatch (entries : List HoistEntry) (body : List NodeId) : LowerM (List NodeId) := do
  match (entries.map HoistEntry.index).min? with
  | none => return body
  | some position =>
    let emitted ← emitProxies 1 entries
    let execution ← emitExecution (emitted.map Prod.snd) (entries.map HoistEntry.placeholder)
    ContextM.modifyStats fun s => { s with
      blocksHoisted := s.blocksHoisted + 1
      measurementsHoisted := s.measurementsHoisted + entries.length }
    return body.take position ++ emitted.map Prod.fst ++ [execution] ++ body.drop position

end LowerM

end QuantumLowering
