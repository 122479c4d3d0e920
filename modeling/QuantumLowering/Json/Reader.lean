import QuantumLowering.Json.Token

/-!
Reading JSON: a pushdown automaton over the tokens of the text. The fields of an object are `none`
from the first key on that denotes no text.
-/

namespace QuantumLowering.Json

inductive Frame where
  | array (items : List Json)
  | object (fields : Option (List (String × Json))) (key : Option String)
deriving Repr, Inhabited

inductive Reading where
  | value (stack : List Frame)
  | firstItem (stack : List Frame)
  | firstKey (stack : List Frame)
  | key (fields : Option (List (String × Json))) (stack : List Frame)
  | colon (fields : Option (List (String × Json))) (key : Option String) (stack : List Frame)
  | next (last : Json) (frame : Frame) (stack : List Frame)
  | done (value : Json)
deriving Repr, Inhabited

namespace Reading

def key? : Token → Option (Option String)
  | .text name => some (some name)
  | .unpaired => some none
  | _ => none

def consField : Option String → Json → Option (List (String × Json)) →
    Option (List (String × Json))
  | some name, last, some fields => some ((name, last) :: fields)
  | _, _, _ => none

def closeFields : Option (List (String × Json)) → Json
  | some fields => .object fields.reverse
  | none => .unpaired

def deliver (j : Json) : List Frame → Reading
  | [] => .done j
  | frame :: stack => .next j frame stack

def start (stack : List Frame) : Token → Option Reading
  | .openArray => some (.firstItem stack)
  | .openObject => some (.firstKey stack)
  | .null => some (deliver .null stack)
  | .bool b => some (deliver (.bool b) stack)
  | .number n => some (deliver (.number n) stack)
  | .text s => some (deliver (.text s) stack)
  | .unpaired => some (deliver .unpaired stack)
  | _ => none

def step : Reading → Token → Option Reading
  | .value stack, token => start stack token
  | .firstItem stack, .closeArray => some (deliver (.array []) stack)
  | .firstItem stack, token => start (.array [] :: stack) token
  | .firstKey stack, .closeObject => some (deliver (.object []) stack)
  | .firstKey stack, token => (key? token).map fun name => .colon (some []) name stack
  | .key fields stack, token => (key? token).map fun name => .colon fields name stack
  | .colon fields name stack, .colon => some (.value (.object fields name :: stack))
  | .next last (.array items) stack, .comma => some (.value (.array (last :: items) :: stack))
  | .next last (.array items) stack, .closeArray =>
    some (deliver (.array (last :: items).reverse) stack)
  | .next last (.object fields name) stack, .comma => some (.key (consField name last fields) stack)
  | .next last (.object fields name) stack, .closeObject =>
    some (deliver (closeFields (consField name last fields)) stack)
  | _, _ => none

def result? : Reading → Option Json
  | .done j => some j
  | _ => none

end Reading

def ofTokens? (tokens : List Token) : Option Json :=
  (tokens.foldlM Reading.step (.value [])).bind Reading.result?

def parse? (source : String) : Option Json := (scan source.toList).bind ofTokens?

end QuantumLowering.Json
