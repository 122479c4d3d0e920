import QuantumLowering.Operation.Table
import QuantumLowering.Syntax.Tree

namespace QuantumLowering

inductive Unsupported where
  | elseBranch
  | conditionArity (conditionFn : String)
  | inequality
  | noComparison (kind : String)
  | missingControl (operation : String)
deriving DecidableEq, Repr, Inhabited

namespace Unsupported

def construct : Unsupported → String
  | .missingControl _ => "controlled call"
  | _ => "quantum conditional"

def detail : Unsupported → String
  | .elseBranch => "only a single branch is supported, found an else branch"
  | .conditionArity conditionFn => s!"`{conditionFn}` takes exactly one comparison"
  | .inequality => "only equality comparisons can be lowered"
  | .noComparison kind => s!"expected a comparison, found {kind}"
  | .missingControl operation => s!"`{operation}` is controlled but has no control argument"

end Unsupported

inductive BrokenInvariant where
  | statementOutsideAllocation
  | measurementOutsideAllocation
  | unevenStacks (frames tables : Nat)
  | closingOuter (block innermost : NodeId)
  | closingNone (block : NodeId)
  | leftOpen (frames tables : Nat)
  | notConditional (id : NodeId)
  | reachedTwice (id : NodeId)
  | neverDerived (functor : GateFunctor) (operation : String)
deriving DecidableEq, Repr, Inhabited

def BrokenInvariant.detail : BrokenInvariant → String
  | .statementOutsideAllocation => "statement index set outside an allocation"
  | .measurementOutsideAllocation => "measurement recorded without an allocation frame"
  | .unevenStacks frames tables => s!"{frames} allocation frames but {tables} hoisting tables"
  | .closingOuter block innermost =>
    s!"closing allocation #{block} while #{innermost} is innermost"
  | .closingNone block => s!"closing allocation #{block} with no open frame"
  | .leftOpen frames tables =>
    s!"{frames} allocation frames and {tables} hoisting tables left open"
  | .notConditional id => s!"#{id} is not a conditional"
  | .reachedTwice id => s!"node #{id} is reachable from more than one place"
  | .neverDerived functor operation =>
    s!"{functor.name} variant of '{operation}' was requested but never derived"

inductive LoweringError where
  | unsupported (what : Unsupported)
  | undefinedVariant (what : UndefinedVariant)
  | invariant (what : BrokenInvariant)
  | tree (what : TreeError)
deriving DecidableEq, Repr, Inhabited

namespace LoweringError

def message : LoweringError → String
  | .unsupported what => "Unsupported construct '" ++ what.construct ++ "': " ++ what.detail
  | .undefinedVariant what => what.message
  | .invariant what => "Structural invariant violated: " ++ what.detail
  | .tree what => "Syntax tree error: " ++ what.message

end LoweringError

end QuantumLowering
