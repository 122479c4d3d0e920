import QuantumLowering.Json.Basic

/-!
Records and variants in JSON. A record is an object, with unknown fields passed over and no known
field given twice, or an array of its fields in order. A variant is its name, or an object whose one
key is its name.
-/

namespace QuantumLowering.Json

/-- The value given for one field of an object: none if it is absent, a failure if it is given
twice. -/
def onlyField? (fields : List (String × Json)) (key : String) : Option (Option Json) :=
  match fields.filter (fun field => field.1 == key) with
  | [] => some none
  | [(_, value)] => some (some value)
  | _ => none

def slots? (names : List String) : Json → Option (List (Option Json))
  | .object fields => names.mapM (onlyField? fields)
  | .array items =>
    if items.length ≤ names.length then
      some (items.map some ++ List.replicate (names.length - items.length) none)
    else none
  | _ => none

def required {α : Type} (read : Json → Option α) (slot : Option Json) : Option α := slot.bind read

def optional {α : Type} (default : α) (read : Json → Option α) : Option Json → Option α
  | none => some default
  | some j => read j

def nullable {α : Type} (read : Json → Option α) : Json → Option (Option α)
  | .null => some none
  | j => (read j).map some

def variant? : Json → Option (String × Option Json)
  | .text name => some (name, none)
  | .object [(name, payload)] => some (name, some payload)
  | _ => none

def carriesNothing : Option Json → Bool
  | none => true
  | some .null => true
  | some _ => false

end QuantumLowering.Json
