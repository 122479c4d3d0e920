import Mathlib.Data.List.Forall2
import QuantumLowering.Operation.Document
import QuantumLowering.Proofs.Json.Roundtrip

namespace QuantumLowering

open Json

namespace Json

variable {α : Type} {Spells : Json → α → Prop} {default a : α} {fields : List (String × Json)}
  {name : String} {j : Json}

/-- What an object gives for one field: the default if it has no such field. No object has the field
more than once. -/
inductive Field (Spells : Json → α → Prop) (default : α) (fields : List (String × Json))
    (name : String) : α → Prop where
  | absent (none : ∀ field ∈ fields, field.1 ≠ name) : Field Spells default fields name default
  | once {a : α} {before after : List (String × Json)} {j : Json}
    (split : fields = before ++ (name, j) :: after)
    (only : ∀ field ∈ before ++ after, field.1 ≠ name) (spells : Spells j a) :
    Field Spells default fields name a

theorem onlyField?_iff {slot : Option Json} : onlyField? fields name = some slot ↔
    fields.filter (fun field => field.1 == name) = slot.toList.map (Prod.mk name) := by
  have named : ∀ field ∈ fields.filter (fun field => field.1 == name), field.1 = name :=
    fun field inside => beq_iff_eq.1 (List.mem_filter.1 inside).2
  rw [onlyField?]
  split
  · rename_i none
    rw [none]
    cases slot <;> simp
  · rename_i key value once
    rw [once] at named ⊢
    obtain rfl := named (key, value) List.mem_cons_self
    cases slot <;> simp
  · rename_i none once
    refine iff_of_false (by simp) fun listed => ?_
    cases slot with
    | none => exact none listed
    | some j => exact once name j listed

theorem onlyField?_absent_iff :
    onlyField? fields name = some none ↔ ∀ field ∈ fields, field.1 ≠ name := by
  rw [onlyField?_iff]
  simp [List.filter_eq_nil_iff]

theorem onlyField?_once_iff : onlyField? fields name = some (some j) ↔
    ∃ before after, fields = before ++ (name, j) :: after ∧
      ∀ field ∈ before ++ after, field.1 ≠ name := by
  rw [onlyField?_iff]
  simp [List.filter_eq_cons_iff, List.filter_eq_nil_iff, or_imp, forall_and]

theorem read_field_iff {read : Json → Option α} (reads : ∀ j a, read j = some a ↔ Spells j a) :
    (onlyField? fields name).bind (optional default read) = some a ↔
      Field Spells default fields name a := by
  rw [Option.bind_eq_some_iff]
  constructor
  · rintro ⟨slot, found, ended⟩
    cases slot with
    | none =>
      cases ended
      exact .absent (onlyField?_absent_iff.1 found)
    | some j =>
      obtain ⟨before, after, split, only⟩ := onlyField?_once_iff.1 found
      exact .once split only ((reads j a).1 ended)
  · intro field
    cases field with
    | absent none => exact ⟨_, onlyField?_absent_iff.2 none, rfl⟩
    | once split only spells =>
      exact ⟨_, onlyField?_once_iff.2 ⟨_, _, split, only⟩, (reads _ a).2 spells⟩

end Json

namespace Resolution

/-- The JSON values of a resolution. One that names no variant may carry `null`. -/
inductive Spells : Json → Resolution → Prop where
  | undefined : Spells (.text "undefined") .undefined
  | pending : Spells (.text "pending") .pending
  | variant (name : String) : Spells (.object [("variant", .text name)]) (.variant name)
  | undefinedNull : Spells (.object [("undefined", .null)]) .undefined
  | pendingNull : Spells (.object [("pending", .null)]) .pending

theorem ofJson?_text_iff {name : String} {r : Resolution} : ofJson? (.text name) = some r ↔
    name = "undefined" ∧ r = .undefined ∨ name = "pending" ∧ r = .pending := by
  rw [ofJson?, variant?, Option.bind_eq_bind, Option.bind_some]
  split
  · grind
  · grind [carriesNothing]

theorem ofJson?_single (name : String) (payload : Json) : ofJson? (.object [(name, payload)]) =
    if name = "variant" then payload.toText?.map .variant
    else if carriesNothing (some payload) then ofJson? (.text name) else none := by
  by_cases same : name = "variant"
  · subst same
    rw [if_pos rfl, Option.map_eq_bind]
    rfl
  · rw [if_neg same, ofJson?, ofJson?, variant?, variant?, Option.bind_eq_bind,
      Option.bind_some, Option.bind_some]
    grind [carriesNothing]

theorem ofJson?_iff (j : Json) (r : Resolution) : ofJson? j = some r ↔ Spells j r := by
  constructor
  · intro ended
    match j with
    | .text name =>
      rcases ofJson?_text_iff.1 ended with ⟨rfl, rfl⟩ | ⟨rfl, rfl⟩
      · exact .undefined
      · exact .pending
    | .object [(name, payload)] =>
      rw [ofJson?_single] at ended
      split at ended
      · subst name
        obtain ⟨variant, carried, rfl⟩ := Option.map_eq_some_iff.1 ended
        cases payload <;> cases carried
        exact .variant variant
      · split at ended
        · cases payload <;> rename_i carried <;> cases carried
          rcases ofJson?_text_iff.1 ended with ⟨rfl, rfl⟩ | ⟨rfl, rfl⟩
          · exact .undefinedNull
          · exact .pendingNull
        · cases ended
    | .object [] | .object (_ :: _ :: _) | .null | .bool _ | .number _ | .unpaired | .array _ =>
      cases ended
  · intro spells
    cases spells <;> rfl

theorem spells_toJson (r : Resolution) : Spells r.toJson r := by
  cases r with
  | undefined => exact .undefined
  | pending => exact .pending
  | variant name => exact .variant name

end Resolution

namespace OperationEntry

/-- The JSON values of an entry: an object that gives either resolution at most once, or an array
that gives them in order and may end early. What is missing is undefined. -/
inductive Spells : Json → OperationEntry → Prop where
  | object {fields : List (String × Json)} {e : OperationEntry}
    (adjoint : Field Resolution.Spells .undefined fields "adjoint" e.adjoint)
    (controlled : Field Resolution.Spells .undefined fields "controlled" e.controlled) :
    Spells (.object fields) e
  | empty : Spells (.array []) .none
  | first {j : Json} {r : Resolution} (adjoint : Resolution.Spells j r) :
    Spells (.array [j]) ⟨r, .undefined⟩
  | both {j j' : Json} {r r' : Resolution} (adjoint : Resolution.Spells j r)
    (controlled : Resolution.Spells j' r') : Spells (.array [j, j']) ⟨r, r'⟩

theorem ofJson?_of_slots {j : Json} {e : OperationEntry} {adjoint controlled : Option Json}
    (slots : j.slots? ["adjoint", "controlled"] = some [adjoint, controlled]) :
    ofJson? j = some e ↔ Json.optional .undefined Resolution.ofJson? adjoint = some e.adjoint ∧
      Json.optional .undefined Resolution.ofJson? controlled = some e.controlled := by
  simp only [ofJson?, slots, Option.bind_eq_bind, Option.bind_some, Option.pure_def,
    Option.bind_eq_some_iff, Option.some.injEq]
  constructor
  · rintro ⟨r, first, r', second, rfl⟩
    exact ⟨first, second⟩
  · rintro ⟨first, second⟩
    exact ⟨_, first, _, second, rfl⟩

theorem ofJson?_object {fields : List (String × Json)} {e : OperationEntry} :
    ofJson? (.object fields) = some e ↔
      (onlyField? fields "adjoint").bind (Json.optional .undefined Resolution.ofJson?) =
          some e.adjoint ∧
        (onlyField? fields "controlled").bind (Json.optional .undefined Resolution.ofJson?) =
          some e.controlled := by
  cases first : onlyField? fields "adjoint" with
  | none => simp [ofJson?, slots?, first]
  | some adjoint =>
    cases second : onlyField? fields "controlled" with
    | none => simp [ofJson?, slots?, first, second]
    | some controlled =>
      exact ofJson?_of_slots (by simp [slots?, first, second])

theorem ofJson?_iff (j : Json) (e : OperationEntry) : ofJson? j = some e ↔ Spells j e := by
  constructor
  · intro ended
    match j with
    | .object fields =>
      obtain ⟨adjoint, controlled⟩ := ofJson?_object.1 ended
      exact .object ((read_field_iff Resolution.ofJson?_iff).1 adjoint)
        ((read_field_iff Resolution.ofJson?_iff).1 controlled)
    | .array [] =>
      cases ended
      exact .empty
    | .array [j] =>
      obtain ⟨r, r'⟩ := e
      obtain ⟨adjoint, controlled⟩ := (ofJson?_of_slots rfl).1 ended
      cases controlled
      exact .first ((Resolution.ofJson?_iff j r).1 adjoint)
    | .array [j, j'] =>
      obtain ⟨adjoint, controlled⟩ := (ofJson?_of_slots rfl).1 ended
      exact .both ((Resolution.ofJson?_iff j _).1 adjoint)
        ((Resolution.ofJson?_iff j' _).1 controlled)
    | .array (_ :: _ :: _ :: items) => simp [ofJson?, slots?] at ended
    | .text _ | .null | .bool _ | .number _ | .unpaired => cases ended
  · intro spells
    cases spells with
    | object adjoint controlled =>
      exact ofJson?_object.2 ⟨(read_field_iff Resolution.ofJson?_iff).2 adjoint,
        (read_field_iff Resolution.ofJson?_iff).2 controlled⟩
    | empty => rfl
    | first adjoint =>
      refine (ofJson?_of_slots rfl).2 ⟨?_, rfl⟩
      exact (Resolution.ofJson?_iff _ _).2 adjoint
    | both adjoint controlled =>
      refine (ofJson?_of_slots rfl).2 ⟨?_, ?_⟩
      · exact (Resolution.ofJson?_iff _ _).2 adjoint
      · exact (Resolution.ofJson?_iff _ _).2 controlled

theorem spells_toJson (e : OperationEntry) : Spells e.toJson e := by
  have first : onlyField? [("adjoint", e.adjoint.toJson), ("controlled", e.controlled.toJson)]
      "adjoint" = some (some e.adjoint.toJson) := rfl
  have second : onlyField? [("adjoint", e.adjoint.toJson), ("controlled", e.controlled.toJson)]
      "controlled" = some (some e.controlled.toJson) := rfl
  refine (ofJson?_iff _ e).1 (ofJson?_object.2 ⟨?_, ?_⟩)
  · rw [first]
    exact (Resolution.ofJson?_iff _ _).2 (Resolution.spells_toJson _)
  · rw [second]
    exact (Resolution.ofJson?_iff _ _).2 (Resolution.spells_toJson _)

end OperationEntry

namespace Dictionary

variable {β : Type}

theorem insertEntry_last {name : String} {value : β} {entries : List (String × β)}
    (below : ∀ entry ∈ entries, entry.1 < name) :
    insertEntry name value entries = entries ++ [(name, value)] := by
  induction entries with
  | nil => rfl
  | cons entry rest ih =>
    obtain ⟨first, others⟩ := List.forall_mem_cons.1 below
    rw [insertEntry, if_neg (String.lt_asymm first), if_neg fun same => ?_, ih others]
    · rfl
    · exact String.lt_irrefl _ (same ▸ first)

theorem ofList_concat (entries : List (String × β)) (entry : String × β) :
    ofList (entries ++ [entry]) = (ofList entries).insert entry.1 entry.2 := by
  rw [ofList, List.foldl_append]
  rfl

theorem entries_ofList {entries : List (String × β)}
    (sorted : entries.Pairwise fun a b => a.1 < b.1) : (ofList entries).entries = entries := by
  induction entries using List.reverseRecOn with
  | nil => rfl
  | append_singleton entries entry ih =>
    obtain ⟨earlier, -, below⟩ := List.pairwise_append.1 sorted
    have last : insertEntry entry.1 entry.2 entries = entries ++ [entry] :=
      insertEntry_last fun other inside => below other inside entry (by simp)
    rw [ofList_concat, ← last]
    exact congrArg _ (ih earlier)

theorem ofList_entries (d : Dictionary β) : ofList d.entries = d := ext (entries_ofList d.sorted)

end Dictionary

theorem mapM_eq_some_iff {α β : Type} {f : α → Option β} {xs : List α} {ys : List β} :
    xs.mapM f = some ys ↔ List.Forall₂ (fun x y => f x = some y) xs ys := by
  induction xs generalizing ys with
  | nil => cases ys <;> simp
  | cons x xs ih =>
    simp only [List.mapM_cons, Option.bind_eq_bind, Option.bind_eq_some_iff, Option.pure_def,
      Option.some.injEq, ih]
    constructor
    · rintro ⟨y, here, ys, rest, rfl⟩
      exact .cons here rest
    · intro both
      cases both with
      | cons here rest => exact ⟨_, here, _, rest, rfl⟩

namespace OperationTable

/-- The JSON values of a table: an object with an entry under each name. Of several under one name
the last counts. -/
inductive Spells : Json → OperationTable → Prop where
  | object {fields : List (String × Json)} {entries : List (String × OperationEntry)}
    (each : List.Forall₂ (fun field entry => field.1 = entry.1 ∧
      OperationEntry.Spells field.2 entry.2) fields entries) :
    Spells (.object fields) (.ofList entries)

theorem ofJson?_iff (j : Json) (t : OperationTable) : ofJson? j = some t ↔ Spells j t := by
  constructor
  · intro ended
    cases j with
    | object fields =>
      obtain ⟨entries, read, ended⟩ := Option.bind_eq_some_iff.1 ended
      cases ended
      refine .object ((mapM_eq_some_iff.1 read).imp ?_)
      rintro ⟨name, j⟩ entry listed
      obtain ⟨e, ended, same⟩ := Option.bind_eq_some_iff.1 listed
      cases same
      exact ⟨rfl, (OperationEntry.ofJson?_iff j e).1 ended⟩
    | _ => cases ended
  · rintro ⟨each⟩
    refine Option.bind_eq_some_iff.2 ⟨_, mapM_eq_some_iff.2 (each.imp ?_), rfl⟩
    rintro ⟨name, j⟩ ⟨_, e⟩ ⟨rfl, spells⟩
    exact Option.bind_eq_some_iff.2 ⟨e, (OperationEntry.ofJson?_iff j e).2 spells, rfl⟩

theorem spells_toJson (t : OperationTable) : Spells t.toJson t := by
  have each : List.Forall₂ (fun field entry => field.1 = entry.1 ∧
      OperationEntry.Spells field.2 entry.2)
      (t.entries.map fun entry => (entry.1, entry.2.toJson)) t.entries := by
    rw [List.forall₂_map_left_iff, List.forall₂_same]
    exact fun entry _ => ⟨rfl, OperationEntry.spells_toJson entry.2⟩
  have spells := Spells.object each
  rwa [Dictionary.ofList_entries] at spells

theorem plain_toJson (t : OperationTable) : Plain t.toJson := by
  have resolution : ∀ r : Resolution, Plain r.toJson := by
    intro r
    cases r <;> simp [Resolution.toJson]
  refine .object fun field listed => ?_
  obtain ⟨⟨name, e⟩, -, rfl⟩ := List.mem_map.1 listed
  simp [OperationEntry.toJson, resolution]

end OperationTable

end QuantumLowering
