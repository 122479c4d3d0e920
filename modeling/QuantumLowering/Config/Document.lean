import QuantumLowering.Config.Check
import QuantumLowering.Lowering.OptionsDocument
import QuantumLowering.Text.Blank
import QuantumLowering.Yaml.Reader

/-!
Configuration files: options as YAML. Fields that are left out keep their defaults and unknown ones
are ignored, but a known field may not be given twice.
-/

namespace QuantumLowering

namespace Yaml

/-- The value of a field of a record, if it is given; refused if it is given twice. -/
def slot? (entries : List (String × Yaml)) (name : String) : Option (Option Yaml) :=
  match entries.filter fun entry => entry.1 = name with
  | [] => some none
  | [(_, value)] => some (some value)
  | _ => none

def fields? (y : Yaml) : Option (List (String × Yaml)) := do
  (← y.toEntries?).mapM fun (key, value) => do return (← key.toText?, value)

def fieldD {α : Type} (entries : List (String × Yaml)) (name : String) (read : Yaml → Option α)
    (default : α) : Option α := do
  match ← slot? entries name with
  | none => return default
  | some value => read value

end Yaml

namespace Resolution

def ofWord? : String → Option Resolution
  | "undefined" => some .undefined
  | "pending" => some .pending
  | _ => none

/-- A variant is written under a tag; the other resolutions as a word or as a tag alone. -/
def ofYaml? : Yaml → Option Resolution
  | .tagged "variant" value => .variant <$> value.toText?
  | .tagged name value => if value.isNull then ofWord? name else none
  | .scalar _ word => ofWord? word
  | _ => none

end Resolution

namespace OperationEntry

def ofYaml? (y : Yaml) : Option OperationEntry := do
  let entries ← y.fields?
  return ⟨← Yaml.fieldD entries "adjoint" Resolution.ofYaml? .undefined,
    ← Yaml.fieldD entries "controlled" Resolution.ofYaml? .undefined⟩

end OperationEntry

/-- Of several entries for one name the last counts. -/
def OperationTable.ofYaml? (y : Yaml) : Option OperationTable := do
  let entries ← (← y.fields?).mapM fun (name, entry) => do
    return (name, ← OperationEntry.ofYaml? entry)
  return .ofList entries

namespace Options

def ofYaml? (y : Yaml) : Option Options := do
  let entries ← y.fields?
  let name (field : String) (default : String) : Option String :=
    Yaml.fieldD entries field Yaml.toText? default
  return {
    boilerplateModule := ← name "boilerplate_module" default.boilerplateModule
    boilerplateAlias := ← name "boilerplate_alias" default.boilerplateAlias
    measureFn := ← name "measure_fn" default.measureFn
    allocateFn := ← name "allocate_fn" default.allocateFn
    conditionFn := ← name "condition_fn" default.conditionFn
    scopeFn := ← name "scope_fn" default.scopeFn
    executeFn := ← name "execute_fn" default.executeFn
    controlParam := ← name "control_param" default.controlParam
    placeholderStem := ← name "placeholder_prefix" default.placeholderStem
    proxyStem := ← name "proxy_prefix" default.proxyStem
    operations := ←
      Yaml.fieldD entries "operations" OperationTable.ofYaml? default.operations }

/-- Reads a configuration and checks it. A blank text sets nothing. -/
def ofConfig (source : String) : Except ConfigError Options := do
  let options ←
    if isBlankText source then pure default
    else
      match (Yaml.parse? source).bind ofYaml? with
      | some options => pure options
      | none => throw .malformed
  options.check
  return options

end Options

end QuantumLowering
