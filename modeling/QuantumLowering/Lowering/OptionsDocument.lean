import QuantumLowering.Json.Reader
import QuantumLowering.Lowering.Options
import QuantumLowering.Operation.Document

namespace QuantumLowering.Options

open Json

def fieldNames : List String :=
  ["boilerplate_module", "boilerplate_alias", "measure_fn", "allocate_fn", "condition_fn",
    "scope_fn", "execute_fn", "control_param", "placeholder_prefix", "proxy_prefix", "operations"]

def toJson (o : Options) : Json :=
  .object [("boilerplate_module", .text o.boilerplateModule),
    ("boilerplate_alias", .text o.boilerplateAlias), ("measure_fn", .text o.measureFn),
    ("allocate_fn", .text o.allocateFn), ("condition_fn", .text o.conditionFn),
    ("scope_fn", .text o.scopeFn), ("execute_fn", .text o.executeFn),
    ("control_param", .text o.controlParam), ("placeholder_prefix", .text o.placeholderStem),
    ("proxy_prefix", .text o.proxyStem), ("operations", o.operations.toJson)]

def ofJson? (j : Json) : Option Options := do
  match ← j.slots? fieldNames with
  | [boilerplateModule, boilerplateAlias, measureFn, allocateFn, conditionFn, scopeFn, executeFn,
      controlParam, placeholderStem, proxyStem, operations] =>
    return {
      boilerplateModule := ← optional default.boilerplateModule toText? boilerplateModule
      boilerplateAlias := ← optional default.boilerplateAlias toText? boilerplateAlias
      measureFn := ← optional default.measureFn toText? measureFn
      allocateFn := ← optional default.allocateFn toText? allocateFn
      conditionFn := ← optional default.conditionFn toText? conditionFn
      scopeFn := ← optional default.scopeFn toText? scopeFn
      executeFn := ← optional default.executeFn toText? executeFn
      controlParam := ← optional default.controlParam toText? controlParam
      placeholderStem := ← optional default.placeholderStem toText? placeholderStem
      proxyStem := ← optional default.proxyStem toText? proxyStem
      operations := ← optional default.operations OperationTable.ofJson? operations }
  | _ => none

def read? (source : String) : Option Options := (Json.parse? source).bind ofJson?

end QuantumLowering.Options
