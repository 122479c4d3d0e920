import QuantumLowering.Lowering.Options

namespace QuantumLowering

def isIdentifierStart (c : Char) : Bool := c.isAlpha || c = '_'

def isIdentifierChar (c : Char) : Bool := c.isAlphanum || c = '_'

def isIdentifier : List Char → Bool
  | [] => false
  | c :: rest => isIdentifierStart c && rest.all isIdentifierChar

def isModulePath (cs : List Char) : Bool := (cs.splitOn '.').all isIdentifier

inductive ConfigError where
  | malformed
  | notIdentifier (field value : String)
  | notModulePath (value : String)
  | sameStems
deriving DecidableEq, Repr, Inhabited

namespace ConfigError

def detail? : ConfigError → Option String
  | .malformed => none
  | .notIdentifier field value => some s!"'{field}' must be an identifier, got '{value}'"
  | .notModulePath value =>
    some s!"'boilerplate_module' must be a dotted module path, got '{value}'"
  | .sameStems => some "'placeholder_prefix' and 'proxy_prefix' must differ"

end ConfigError

namespace Options

def identifiers (o : Options) : List (String × String) :=
  [("boilerplate_alias", o.boilerplateAlias), ("measure_fn", o.measureFn),
    ("allocate_fn", o.allocateFn), ("condition_fn", o.conditionFn), ("scope_fn", o.scopeFn),
    ("execute_fn", o.executeFn), ("control_param", o.controlParam),
    ("placeholder_prefix", o.placeholderStem), ("proxy_prefix", o.proxyStem)]

def check (o : Options) : Except ConfigError Unit :=
  match o.identifiers.find? fun field => !isIdentifier field.2.toList with
  | some (field, value) => .error (.notIdentifier field value)
  | none =>
    if !isModulePath o.boilerplateModule.toList then .error (.notModulePath o.boilerplateModule)
    else if o.placeholderStem = o.proxyStem then .error .sameStems
    else .ok ()

def Usable (o : Options) : Prop :=
  (∀ field ∈ o.identifiers, isIdentifier field.2.toList) ∧
    isModulePath o.boilerplateModule.toList ∧ o.placeholderStem ≠ o.proxyStem

theorem check_eq_ok_iff (o : Options) : o.check = .ok () ↔ o.Usable := by
  unfold check Usable
  split
  case h_1 field value found =>
    have mem := List.mem_of_find?_eq_some found
    have bad := List.find?_some found
    simp only [reduceCtorEq, false_iff, not_and]
    intro all
    have good := all _ mem
    simp_all
  case h_2 missing =>
    have valid : ∀ field ∈ o.identifiers, isIdentifier field.2.toList = true := by
      simpa using missing
    rw [and_iff_right valid]
    cases isModulePath o.boilerplateModule.toList <;>
      by_cases same : o.placeholderStem = o.proxyStem <;> simp [same]

end Options

end QuantumLowering
