namespace QuantumLowering

/-- A YAML value. Scalars are text: what a plain one stands for is up to the place where it is
used. -/
inductive Yaml where
  | scalar (plain : Bool) (text : String)
  | sequence (items : List Yaml)
  | mapping (entries : List (Yaml × Yaml))
  | tagged (name : String) (value : Yaml)
deriving Repr, Inhabited

namespace Yaml

def absent : Yaml := .scalar true ""

def untagged : Yaml → Yaml
  | .tagged _ value => value.untagged
  | value => value

def toText? (y : Yaml) : Option String :=
  match y.untagged with
  | .scalar _ text => some text
  | _ => none

/-- The entries of a mapping, under any tag. A value that is left out is a mapping without
entries. -/
def toEntries? (y : Yaml) : Option (List (Yaml × Yaml)) :=
  match y.untagged with
  | .mapping entries => some entries
  | .scalar true "" => some []
  | _ => none

def isNull (y : Yaml) : Bool :=
  match y.untagged with
  | .scalar true text => text ∈ ["", "~", "null", "Null", "NULL"]
  | _ => false

end Yaml

end QuantumLowering
