import QuantumLowering.Lowering.OptionsDocument
import QuantumLowering.Proofs.Operation.Documents

namespace QuantumLowering

open Json

namespace Options

inductive TextField where
  | boilerplateModule
  | boilerplateAlias
  | measureFn
  | allocateFn
  | conditionFn
  | scopeFn
  | executeFn
  | controlParam
  | placeholderStem
  | proxyStem
deriving DecidableEq, Repr

namespace TextField

def name : TextField → String
  | .boilerplateModule => "boilerplate_module"
  | .boilerplateAlias => "boilerplate_alias"
  | .measureFn => "measure_fn"
  | .allocateFn => "allocate_fn"
  | .conditionFn => "condition_fn"
  | .scopeFn => "scope_fn"
  | .executeFn => "execute_fn"
  | .controlParam => "control_param"
  | .placeholderStem => "placeholder_prefix"
  | .proxyStem => "proxy_prefix"

def get (o : Options) : TextField → String
  | .boilerplateModule => o.boilerplateModule
  | .boilerplateAlias => o.boilerplateAlias
  | .measureFn => o.measureFn
  | .allocateFn => o.allocateFn
  | .conditionFn => o.conditionFn
  | .scopeFn => o.scopeFn
  | .executeFn => o.executeFn
  | .controlParam => o.controlParam
  | .placeholderStem => o.placeholderStem
  | .proxyStem => o.proxyStem

def set (o : Options) (value : String) : TextField → Options
  | .boilerplateModule => { o with boilerplateModule := value }
  | .boilerplateAlias => { o with boilerplateAlias := value }
  | .measureFn => { o with measureFn := value }
  | .allocateFn => { o with allocateFn := value }
  | .conditionFn => { o with conditionFn := value }
  | .scopeFn => { o with scopeFn := value }
  | .executeFn => { o with executeFn := value }
  | .controlParam => { o with controlParam := value }
  | .placeholderStem => { o with placeholderStem := value }
  | .proxyStem => { o with proxyStem := value }

theorem get_set (o : Options) (value : String) (f g : TextField) :
    g.get (f.set o value) = if g = f then value else g.get o := by
  cases f <;> cases g <;> rfl

theorem operations_set (o : Options) (value : String) (f : TextField) :
    (f.set o value).operations = o.operations := by
  cases f <;> rfl

theorem name_inj {f g : TextField} : f.name = g.name ↔ f = g := by
  cases f <;> cases g <;> simp [name]

theorem name_ne_operations (f : TextField) : f.name ≠ "operations" := by
  cases f <;> simp [name]

theorem name_mem (f : TextField) : f.name ∈ fieldNames := by
  cases f <;> simp [name, fieldNames]

end TextField

/-- A field with a value for it. -/
inductive Setting where
  | text (field : TextField) (value : String)
  | operations (table : OperationTable)

namespace Setting

def name : Setting → String
  | .text f _ => f.name
  | .operations _ => "operations"

def apply (o : Options) : Setting → Options
  | .text f value => f.set o value
  | .operations table => { o with operations := table }

inductive Spells : String × Json → Setting → Prop where
  | text (f : TextField) (value : String) : Spells (f.name, .text value) (.text f value)
  | operations {j : Json} {table : OperationTable} (spells : OperationTable.Spells j table) :
    Spells ("operations", j) (.operations table)

theorem Spells.name_eq {field : String × Json} {s : Setting} (spells : Spells field s) :
    field.1 = s.name := by
  cases spells <;> rfl

theorem Spells.exists_text {field : String × Json} {s : Setting} {f : TextField}
    (spells : Spells field s) (named : field.1 = f.name) :
    ∃ value, field.2 = .text value ∧ s = .text f value := by
  cases spells with
  | text g value =>
    obtain rfl := TextField.name_inj.1 named
    exact ⟨value, rfl, rfl⟩
  | operations _ => exact absurd named.symm f.name_ne_operations

theorem Spells.exists_table {field : String × Json} {s : Setting} (spells : Spells field s)
    (named : field.1 = "operations") :
    ∃ table, OperationTable.Spells field.2 table ∧ s = .operations table := by
  cases spells with
  | text g value => exact absurd named g.name_ne_operations
  | operations spells => exact ⟨_, spells, rfl⟩

end Setting

/-- The default options with the settings made one after the other. -/
def overlay (settings : List Setting) : Options := settings.foldl Setting.apply default

section Settings

variable {settings : List Setting}

theorem get_foldl_of_ne {f : TextField} (others : ∀ s ∈ settings, s.name ≠ f.name)
    (o : Options) : f.get (settings.foldl Setting.apply o) = f.get o := by
  induction settings generalizing o with
  | nil => rfl
  | cons s settings ih =>
    obtain ⟨other, others⟩ := List.forall_mem_cons.1 others
    rw [List.foldl_cons, ih others]
    cases s with
    | text g value =>
      have apart : f ≠ g := fun same => other (congrArg TextField.name same.symm)
      rw [Setting.apply, TextField.get_set, if_neg apart]
    | operations table => cases f <;> rfl

theorem operations_foldl_of_ne (others : ∀ s ∈ settings, s.name ≠ "operations") (o : Options) :
    (settings.foldl Setting.apply o).operations = o.operations := by
  induction settings generalizing o with
  | nil => rfl
  | cons s settings ih =>
    obtain ⟨other, others⟩ := List.forall_mem_cons.1 others
    rw [List.foldl_cons, ih others]
    cases s with
    | text g value => exact TextField.operations_set o value g
    | operations table => exact absurd rfl other

theorem get_overlay {before after : List Setting} {f : TextField} {value : String}
    (others : ∀ s ∈ after, s.name ≠ f.name) :
    f.get (overlay (before ++ .text f value :: after)) = value := by
  rw [overlay, List.foldl_append, List.foldl_cons, get_foldl_of_ne others, Setting.apply,
    TextField.get_set, if_pos rfl]

theorem operations_overlay {before after : List Setting} {table : OperationTable}
    (others : ∀ s ∈ after, s.name ≠ "operations") :
    (overlay (before ++ .operations table :: after)).operations = table := by
  rw [overlay, List.foldl_append, List.foldl_cons, operations_foldl_of_ne others]
  rfl

theorem filter_name_cases (once : (settings.map Setting.name).Nodup) (name : String) :
    (settings.filter (fun s => s.name == name) = [] ∧ ∀ s ∈ settings, s.name ≠ name) ∨
      ∃ before s after, settings = before ++ s :: after ∧ (∀ s ∈ after, s.name ≠ name) ∧
        settings.filter (fun s => s.name == name) = [s] := by
  by_cases listed : ∃ s ∈ settings, s.name = name
  · obtain ⟨s, inside, rfl⟩ := listed
    obtain ⟨before, after, rfl⟩ := List.append_of_mem inside
    rw [List.map_append, List.map_cons, List.nodup_middle, List.nodup_cons] at once
    have others : ∀ other ∈ before ++ after, other.name ≠ s.name := by
      intro other member same
      refine once.1 ?_
      rw [← List.map_append, ← same]
      exact List.mem_map_of_mem member
    obtain ⟨earlier, later⟩ := List.forall_mem_append.1 others
    refine .inr ⟨before, s, after, rfl, later, ?_⟩
    rw [List.filter_append, List.filter_cons_of_pos (by simp),
      List.filter_eq_nil_iff.2 (by simpa using earlier),
      List.filter_eq_nil_iff.2 (by simpa using later)]
    rfl
  · have others : ∀ s ∈ settings, s.name ≠ name := fun s inside same => listed ⟨s, inside, same⟩
    exact .inl ⟨List.filter_eq_nil_iff.2 (by simpa using others), others⟩

variable {fields : List (String × Json)}

theorem slot_cases (spelled : List.Forall₂ Setting.Spells
      (fields.filter fun field => field.1 ∈ fieldNames) settings)
    (once : (settings.map Setting.name).Nodup) {name : String} (known : name ∈ fieldNames) :
    (onlyField? fields name = some none ∧ ∀ s ∈ settings, s.name ≠ name) ∨
      ∃ before s after j, settings = before ++ s :: after ∧ (∀ s ∈ after, s.name ≠ name) ∧
        onlyField? fields name = some (some j) ∧ Setting.Spells (name, j) s := by
  have same : (fields.filter fun field => field.1 ∈ fieldNames).filter (·.1 == name) =
      fields.filter fun field => field.1 == name := by
    rw [List.filter_filter]
    refine List.filter_congr fun field _ => ?_
    by_cases named : field.1 = name
    · simp [named, known]
    · simp [named]
  have pairs := List.rel_filter (p := fun field => field.1 == name)
    (q := fun s => s.name == name) (fun field s spells => by simp [spells.name_eq]) spelled
  rw [same] at pairs
  rcases filter_name_cases once name with ⟨none, others⟩ | ⟨before, s, after, split, later, only⟩
  · rw [none, List.forall₂_nil_right_iff] at pairs
    exact .inl ⟨onlyField?_iff.2 pairs, others⟩
  · rw [only, List.forall₂_cons_right_iff] at pairs
    obtain ⟨⟨key, j⟩, rest, spells, none, listed⟩ := pairs
    rw [List.forall₂_nil_right_iff] at none
    have inside : (key, j) ∈ fields.filter fun field => field.1 == name := by simp [listed]
    obtain rfl : key = name := beq_iff_eq.1 (List.mem_filter.1 inside).2
    exact .inr ⟨before, s, after, j, split, later, onlyField?_iff.2 (by rw [listed, none]; rfl),
      spells⟩

end Settings

theorem ofJson?_object {fields : List (String × Json)} {o : Options}
    (texts : ∀ f : TextField,
      (onlyField? fields f.name).bind (Json.optional (f.get default) toText?) = some (f.get o))
    (operations : (onlyField? fields "operations").bind
      (Json.optional default.operations OperationTable.ofJson?) = some o.operations) :
    ofJson? (.object fields) = some o := by
  choose slot found read using fun f => Option.bind_eq_some_iff.1 (texts f)
  obtain ⟨table, found', read'⟩ := Option.bind_eq_some_iff.1 operations
  have slots : (Json.object fields).slots? fieldNames =
      some [slot .boilerplateModule, slot .boilerplateAlias, slot .measureFn, slot .allocateFn,
        slot .conditionFn, slot .scopeFn, slot .executeFn, slot .controlParam,
        slot .placeholderStem, slot .proxyStem, table] := by
    refine mapM_eq_some_iff.2 ?_
    exact .cons (found .boilerplateModule) <| .cons (found .boilerplateAlias) <|
      .cons (found .measureFn) <| .cons (found .allocateFn) <| .cons (found .conditionFn) <|
      .cons (found .scopeFn) <| .cons (found .executeFn) <| .cons (found .controlParam) <|
      .cons (found .placeholderStem) <| .cons (found .proxyStem) <| .cons found' .nil
  refine Option.bind_eq_some_iff.2 ⟨_, slots, ?_⟩
  refine Option.bind_eq_some_iff.2 ⟨_, read .boilerplateModule, ?_⟩
  refine Option.bind_eq_some_iff.2 ⟨_, read .boilerplateAlias, ?_⟩
  refine Option.bind_eq_some_iff.2 ⟨_, read .measureFn, ?_⟩
  refine Option.bind_eq_some_iff.2 ⟨_, read .allocateFn, ?_⟩
  refine Option.bind_eq_some_iff.2 ⟨_, read .conditionFn, ?_⟩
  refine Option.bind_eq_some_iff.2 ⟨_, read .scopeFn, ?_⟩
  refine Option.bind_eq_some_iff.2 ⟨_, read .executeFn, ?_⟩
  refine Option.bind_eq_some_iff.2 ⟨_, read .controlParam, ?_⟩
  refine Option.bind_eq_some_iff.2 ⟨_, read .placeholderStem, ?_⟩
  refine Option.bind_eq_some_iff.2 ⟨_, read .proxyStem, ?_⟩
  exact Option.bind_eq_some_iff.2 ⟨_, read', rfl⟩

theorem ofJson?_settings {fields : List (String × Json)} {settings : List Setting}
    (spelled : List.Forall₂ Setting.Spells
      (fields.filter fun field => field.1 ∈ fieldNames) settings)
    (once : (settings.map Setting.name).Nodup) :
    ofJson? (.object fields) = some (overlay settings) := by
  refine ofJson?_object (fun f => ?_) ?_
  · rcases slot_cases spelled once f.name_mem with
      ⟨absent, others⟩ | ⟨before, s, after, j, rfl, later, given, spells⟩
    · rw [absent]
      exact congrArg some (get_foldl_of_ne others default).symm
    · obtain ⟨value, rfl, rfl⟩ := spells.exists_text rfl
      rw [given, get_overlay later]
      rfl
  · have known : "operations" ∈ fieldNames := by simp [fieldNames]
    rcases slot_cases spelled once known with
      ⟨absent, others⟩ | ⟨before, s, after, j, rfl, later, given, spells⟩
    · rw [absent]
      exact congrArg some (operations_foldl_of_ne others default).symm
    · obtain ⟨table, entries, rfl⟩ := spells.exists_table rfl
      rw [given, operations_overlay later]
      exact (OperationTable.ofJson?_iff j table).2 entries

theorem plain_toJson (o : Options) : Plain o.toJson := by
  simp [toJson, OperationTable.plain_toJson]

theorem ofJson?_toJson (o : Options) : ofJson? o.toJson = some o := by
  refine ofJson?_object (fun f => ?_) ?_
  · cases f <;> rfl
  · exact (OperationTable.ofJson?_iff _ _).2 (OperationTable.spells_toJson o.operations)

theorem read?_render (o : Options) (style : Style) : read? (o.toJson.render style) = some o := by
  rw [read?, parse?_render style (plain_toJson o), Option.bind_some, ofJson?_toJson]

/-- Options are read from their text. A text of an object that gives some of the fields once each,
in any order and among fields of other names, is read as the default options with these fields set
and no others. -/
theorem read?_overlay :
    (∀ (o : Options) (style : Style), read? (o.toJson.render style) = some o) ∧
      ∀ (source : String) (fields : List (String × Json)) (settings : List Setting),
        Json.parse? source = some (.object fields) →
        List.Forall₂ Setting.Spells (fields.filter fun field => field.1 ∈ fieldNames) settings →
        (settings.map Setting.name).Nodup →
        read? source = some (overlay settings) := by
  refine ⟨read?_render, fun source fields settings parsed spelled once => ?_⟩
  rw [read?, parsed, Option.bind_some, ofJson?_settings spelled once]

/-- A table of one operation without an adjoint, between two texts and an unknown field. -/
theorem read?_overlay_partial :
    let table : Json := .object [("U", .object [("controlled", .object [("variant", .text "CU")])])]
    let document : Json := .object [("comment", .null), ("scope_fn", .text "cs"),
      ("operations", table), ("boilerplate_alias", .text "rt")]
    read? (document.render .compact) = some { default with
      scopeFn := "cs"
      operations := .ofList [("U", ⟨.undefined, .variant "CU"⟩)]
      boilerplateAlias := "rt" } := by
  intro table document
  have entry : OperationEntry.Spells (.object [("controlled", .object [("variant", .text "CU")])])
      ⟨.undefined, .variant "CU"⟩ := (OperationEntry.ofJson?_iff _ _).1 rfl
  have spelled : List.Forall₂ Setting.Spells
      [("scope_fn", .text "cs"), ("operations", table), ("boilerplate_alias", .text "rt")]
      [.text .scopeFn "cs", .operations (.ofList [("U", ⟨.undefined, .variant "CU"⟩)]),
        .text .boilerplateAlias "rt"] :=
    .cons (.text .scopeFn "cs") (.cons (.operations (.object (.cons ⟨rfl, entry⟩ .nil)))
      (.cons (.text .boilerplateAlias "rt") .nil))
  have plain : Plain document := by simp [document, table, Plain.null]
  exact read?_overlay.2 _ _ _ (parse?_render .compact plain) spelled (by decide)

end Options

end QuantumLowering
