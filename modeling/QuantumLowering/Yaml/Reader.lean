import QuantumLowering.Yaml.Basic
import QuantumLowering.Yaml.Token

/-!
Reading YAML: a pushdown automaton over the tokens of the text. A value that is left out shows only
at the token behind it, which then has to suit what the value was to be part of.
-/

namespace QuantumLowering.Yaml

/-- What a value is part of. Parts that are already complete are in reverse. -/
inductive Frame where
  | tag (name : Option String)
  | item (items : List Yaml)
  | dashed (items : List Yaml)
  | key (entries : List (Yaml × Yaml))
  | value (entries : List (Yaml × Yaml)) (key : Yaml)
  | flowItem (items : List Yaml)
  | pairKey (items : List Yaml)
  | pairValue (items : List Yaml) (key : Yaml)
  | flowKey (entries : List (Yaml × Yaml))
  | loneKey (entries : List (Yaml × Yaml))
  | flowValue (entries : List (Yaml × Yaml)) (key : Yaml)
deriving Repr, Inhabited

inductive Reading where
  | optional (stack : List Frame)
  | nextItem (items : List Yaml) (stack : List Frame)
  | nextEntry (entries : List (Yaml × Yaml)) (stack : List Frame)
  | flowItem (items : List Yaml) (stack : List Frame)
  | pairKey (items : List Yaml) (stack : List Frame)
  | flowEntry (entries : List (Yaml × Yaml)) (stack : List Frame)
  | after (last : Yaml) (stack : List Frame)
deriving Repr, Inhabited

def setTag : Option String → Yaml → Yaml
  | some name, y => .tagged name y
  | none, y => y

namespace Reading

def takesDashes : List Frame → Bool
  | .tag _ :: stack => takesDashes stack
  | .key _ :: _ => true
  | .value _ _ :: _ => true
  | _ => false

def start? (stack : List Frame) : Token → Option Reading
  | .scalar plain text => some (.after (.scalar plain text) stack)
  | .openItems => some (.nextItem [] stack)
  | .openEntries => some (.nextEntry [] stack)
  | .openSequence => some (.flowItem [] stack)
  | .openMapping => some (.flowEntry [] stack)
  | .dash => if takesDashes stack then some (.optional (.dashed [] :: stack)) else none
  | _ => none

def begin? (stack : List Frame) : Token → Option Reading
  | .tag name => some (.optional (.tag name :: stack))
  | token => start? stack token

def resume? : List Frame → Token → Option Reading
  | .tag name :: stack, token => start? (.tag name :: stack) token
  | stack, token => begin? stack token

def stepItem (items : List Yaml) (stack : List Frame) : Token → Option Reading
  | .dash => some (.optional (.item items :: stack))
  | .closeBlock => some (.after (.sequence items.reverse) stack)
  | _ => none

def stepEntry (entries : List (Yaml × Yaml)) (stack : List Frame) : Token → Option Reading
  | .key => some (.optional (.key entries :: stack))
  | .closeBlock => some (.after (.mapping entries.reverse) stack)
  | _ => none

def stepFlowItem (items : List Yaml) (stack : List Frame) : Token → Option Reading
  | .comma => some (.flowItem items stack)
  | .closeSequence => some (.after (.sequence items.reverse) stack)
  | _ => none

def stepFlowEntry (entries : List (Yaml × Yaml)) (stack : List Frame) : Token → Option Reading
  | .comma => some (.flowEntry entries stack)
  | .closeMapping => some (.after (.mapping entries.reverse) stack)
  | _ => none

def follow (y : Yaml) : List Frame → Token → Option Reading
  | [], _ => none
  | .tag name :: stack, token => follow (setTag name y) stack token
  | .item items :: stack, token => stepItem (y :: items) stack token
  | .dashed items :: stack, token =>
    if token = .dash then some (.optional (.dashed (y :: items) :: stack))
    else follow (.sequence (y :: items).reverse) stack token
  | .key entries :: stack, token =>
    if token = .value then some (.optional (.value entries y :: stack))
    else stepEntry ((y, absent) :: entries) stack token
  | .value entries key :: stack, token => stepEntry ((key, y) :: entries) stack token
  | .flowItem items :: stack, token => stepFlowItem (y :: items) stack token
  | .pairKey items :: stack, token =>
    if token = .value then some (.optional (.pairValue items y :: stack))
    else stepFlowItem (.mapping [(y, absent)] :: items) stack token
  | .pairValue items key :: stack, token =>
    stepFlowItem (.mapping [(key, y)] :: items) stack token
  | .flowKey entries :: stack, token =>
    if token = .value then some (.optional (.flowValue entries y :: stack))
    else stepFlowEntry ((y, absent) :: entries) stack token
  | .loneKey entries :: stack, token => stepFlowEntry ((y, absent) :: entries) stack token
  | .flowValue entries key :: stack, token => stepFlowEntry ((key, y) :: entries) stack token

/-- A key that is left out of an entry between brackets takes the token behind it along. -/
def step : Reading → Token → Option Reading
  | .optional stack, token =>
    match resume? stack token with
    | some reading => some reading
    | none => follow absent stack token
  | .nextItem items stack, token => stepItem items stack token
  | .nextEntry entries stack, token => stepEntry entries stack token
  | .flowItem items stack, .closeSequence => some (.after (.sequence items.reverse) stack)
  | .flowItem items stack, .key => some (.pairKey items stack)
  | .flowItem items stack, token => begin? (.flowItem items :: stack) token
  | .pairKey items stack, token =>
    if token ∈ [.value, .comma, .closeSequence] then some (.after absent (.pairKey items :: stack))
    else begin? (.pairKey items :: stack) token
  | .flowEntry entries stack, .closeMapping => some (.after (.mapping entries.reverse) stack)
  | .flowEntry entries stack, .key => some (.optional (.flowKey entries :: stack))
  | .flowEntry entries stack, token => begin? (.loneKey entries :: stack) token
  | .after y stack, token => follow y stack token

def close? (y : Yaml) : List Frame → Option Yaml
  | [] => some y
  | .tag name :: stack => close? (setTag name y) stack
  | _ :: _ => none

def result? : Reading → Option Yaml
  | .optional stack => close? absent stack
  | .after y stack => close? y stack
  | _ => none

end Reading

def ofTokens? (tokens : List Token) : Option Yaml :=
  (tokens.foldlM Reading.step (.optional [])).bind Reading.result?

def isMarker (token : Token) : Bool := token = .documentStart || token = .documentEnd

/-- The value of the only document in a text. A document may be empty behind its mark, and a text
without a document leaves the value out. -/
def soleDocument? (tokens : List Token) : Option Yaml :=
  let inner (tokens : List Token) : Option Yaml :=
    if (tokens.dropWhile (!isMarker ·)).all (· = .documentEnd) then
      ofTokens? (tokens.takeWhile (!isMarker ·))
    else none
  match tokens with
  | [] => some absent
  | .documentStart :: rest => inner rest
  | .documentEnd :: _ => none
  | tokens => inner tokens

def parse? (source : String) : Option Yaml := (scan source.toList).bind soleDocument?

end QuantumLowering.Yaml
