import QuantumLowering.Json.Record
import QuantumLowering.Operation.Table

namespace QuantumLowering

open Json

namespace Resolution

def toJson : Resolution → Json
  | .undefined => .text "undefined"
  | .pending => .text "pending"
  | .variant name => .object [("variant", .text name)]

def ofJson? (j : Json) : Option Resolution := do
  match ← j.variant? with
  | ("variant", payload) => return .variant (← (← payload).toText?)
  | (kind, payload) =>
    if carriesNothing payload then
      match kind with
      | "undefined" => some .undefined
      | "pending" => some .pending
      | _ => none
    else none

end Resolution

namespace OperationEntry

def toJson (e : OperationEntry) : Json :=
  .object [("adjoint", e.adjoint.toJson), ("controlled", e.controlled.toJson)]

def ofJson? (j : Json) : Option OperationEntry := do
  match ← j.slots? ["adjoint", "controlled"] with
  | [adjoint, controlled] =>
    return ⟨← optional .undefined Resolution.ofJson? adjoint,
      ← optional .undefined Resolution.ofJson? controlled⟩
  | _ => none

end OperationEntry

namespace OperationTable

def toJson (t : OperationTable) : Json :=
  .object (t.entries.map fun (name, entry) => (name, entry.toJson))

def ofJson? : Json → Option OperationTable
  | .object fields => do
    let entries ← fields.mapM fun (name, j) => do return (name, ← OperationEntry.ofJson? j)
    return .ofList entries
  | _ => none

end OperationTable

end QuantumLowering
