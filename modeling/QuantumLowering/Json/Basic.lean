import QuantumLowering.Number.Numeral

/-!
JSON values as they are written: objects keep the order and the repetitions of their fields, and
numbers keep their numerals.
-/

namespace QuantumLowering

/-- A JSON value. `unpaired` is a string literal with a surrogate escape that has no partner, or an
object with such a literal as a key: both are grammatical, and they denote nothing. -/
inductive Json where
  | null
  | bool (value : Bool)
  | number (value : Numeral)
  | text (value : String)
  | unpaired
  | array (items : List Json)
  | object (fields : List (String × Json))
deriving Repr, Inhabited

namespace Json

def ofNat (n : Nat) : Json := .number (Numeral.ofNat n)

def ofInt (n : Int) : Json := .number (Numeral.ofInt n)

def ofBinary64 (x : Binary64) : Json := .number (NumeralStyle.document.numeral x)

def ofFloat : FloatValue → Json
  | .finite x => ofBinary64 x
  | _ => .null

def ofTexts (names : List String) : Json := .array (names.map .text)

def ofNats (ns : List Nat) : Json := .array (ns.map ofNat)

def toBool? : Json → Option Bool
  | .bool value => some value
  | _ => none

def toText? : Json → Option String
  | .text value => some value
  | _ => none

def toItems? : Json → Option (List Json)
  | .array items => some items
  | _ => none

def toInt? : Json → Option Int
  | .number n => n.toInt?
  | _ => none

def toNat? (bound : Nat) (j : Json) : Option Nat := do
  let n ← j.toInt?
  if 0 ≤ n ∧ n < bound then some n.toNat else none

def toInt64? (j : Json) : Option Int64 := do
  let n ← j.toInt?
  if Int64.minValue.toInt ≤ n ∧ n ≤ Int64.maxValue.toInt then some (Int64.ofInt n) else none

def toBinary64? : Json → Option Binary64
  | .number n => n.toBinary64?
  | _ => none

def toList? {α : Type} (read : Json → Option α) (j : Json) : Option (List α) := do
  let items ← j.toItems?
  items.mapM read

def field? (key : String) : Json → Option Json
  | .object fields => fields.lookup key
  | _ => none

end Json

end QuantumLowering
