import QuantumLowering.Operation.Table

namespace QuantumLowering

structure Options where
  boilerplateModule : String
  boilerplateAlias : String
  measureFn : String
  allocateFn : String
  conditionFn : String
  scopeFn : String
  executeFn : String
  controlParam : String
  placeholderStem : String
  proxyStem : String
  operations : OperationTable
deriving DecidableEq, Repr

namespace Options

def default : Options where
  boilerplateModule := "quoll.boilerplate"
  boilerplateAlias := "bp"
  measureFn := "measure"
  allocateFn := "allocate"
  conditionFn := "superposition"
  scopeFn := "control_scope"
  executeFn := "execute"
  controlParam := "__control"
  placeholderStem := "_m"
  proxyStem := "_mp"
  operations := .preamble

instance : Inhabited Options := ⟨default⟩

end Options

end QuantumLowering
