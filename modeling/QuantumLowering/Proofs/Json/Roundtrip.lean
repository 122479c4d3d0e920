import QuantumLowering.Json.Reader
import QuantumLowering.Proofs.Json.Scanning

namespace QuantumLowering.Json

open Reading

variable {style : Style} {depth : Nat}

@[simp]
theorem writtenTokens_lineBreak (style : Style) (depth : Nat) :
    writtenTokens (style.lineBreak depth) = [] := by
  cases style <;> rfl

@[simp]
theorem writtenTokens_afterColon (style : Style) : writtenTokens style.afterColon = [] := by
  cases style <;> rfl

def Runs (tokens : List Token) (r r' : Reading) : Prop := tokens.foldlM step r = some r'

namespace Runs

variable {r r' r'' : Reading} {t : Token} {ts us : List Token}

theorem nil : Runs [] r r := rfl

theorem cons (first : step r t = some r') (rest : Runs ts r' r'') : Runs (t :: ts) r r'' := by
  rw [Runs, List.foldlM_cons, first]
  exact rest

theorem append (front : Runs ts r r') (back : Runs us r' r'') : Runs (ts ++ us) r r'' := by
  rw [Runs, List.foldlM_append, front]
  exact back

end Runs

/-- Where a value may stand, the tokens lead to the value. -/
def Delivers (tokens : List Token) (j : Json) : Prop :=
  ∀ stack, Runs tokens (.value stack) (deliver j stack)

theorem step_firstItem {t : Token} (other : t ≠ .closeArray) (stack : List Frame) :
    step (.firstItem stack) t = step (.value (.array [] :: stack)) t := by
  cases t with
  | closeArray => exact absurd rfl other
  | _ => rfl

theorem exists_first_token (style : Style) (depth : Nat) (j : Json) :
    ∃ t ts, writtenTokens (pieces style depth j) = t :: ts ∧ t ≠ .closeArray := by
  cases j with
  | array items => cases items <;> exact ⟨_, _, rfl, nofun⟩
  | object fields => cases fields <;> exact ⟨_, _, rfl, nofun⟩
  | _ => exact ⟨_, _, rfl, nofun⟩

theorem runs_firstItem {j : Json} (value : Delivers (writtenTokens (pieces style depth j)) j)
    (stack : List Frame) :
    Runs (writtenTokens (pieces style depth j)) (.firstItem stack) (.next j (.array []) stack) := by
  obtain ⟨t, ts, written, other⟩ := exists_first_token style depth j
  have run := value (.array [] :: stack)
  rw [written, Runs, List.foldlM_cons] at run ⊢
  rw [step_firstItem other]
  exact run

theorem runs_itemPieces {items : List Json}
    (each : ∀ item ∈ items, Delivers (writtenTokens (pieces style depth item)) item)
    (last : Json) (done : List Json) (stack : List Frame) :
    Runs (writtenTokens (itemPieces style depth items) ++ [Token.closeArray])
      (.next last (.array done) stack)
      (deliver (.array (done.reverse ++ last :: items)) stack) := by
  induction items generalizing last done with
  | nil =>
    rw [← List.reverse_cons]
    exact .cons rfl .nil
  | cons item items ih =>
    have later := ih (fun other mem => each other (List.mem_cons_of_mem _ mem)) item (last :: done)
    rw [List.reverse_cons, List.append_assoc] at later
    simp only [itemPieces_cons, writtenTokens_cons, writtenTokens_append, writtenTokens_lineBreak,
      List.nil_append, List.cons_append, List.append_assoc]
    exact .cons rfl ((each item List.mem_cons_self _).append later)

theorem runs_fieldPiece {field : String × Json}
    (value : Delivers (writtenTokens (pieces style depth field.2)) field.2)
    {done : Option (List (String × Json))} {stack : List Frame} {r : Reading}
    (first : step r (.text field.1) = some (.colon done (some field.1) stack)) :
    Runs (writtenTokens (fieldPiece style depth field)) r
      (.next field.2 (.object done (some field.1)) stack) := by
  obtain ⟨name, j⟩ := field
  simp only [fieldPiece_mk, writtenTokens_cons, writtenTokens_append, writtenTokens_afterColon,
    List.nil_append]
  exact .cons first (.cons rfl (value _))

theorem runs_fieldPieces {fields : List (String × Json)}
    (each : ∀ field ∈ fields, Delivers (writtenTokens (pieces style depth field.2)) field.2)
    (last : String × Json) (done : List (String × Json)) (stack : List Frame) :
    Runs (writtenTokens (fieldPieces style depth fields) ++ [Token.closeObject])
      (.next last.2 (.object (some done) (some last.1)) stack)
      (deliver (.object (done.reverse ++ last :: fields)) stack) := by
  induction fields generalizing last done with
  | nil =>
    rw [← List.reverse_cons]
    exact .cons rfl .nil
  | cons field fields ih =>
    have later := ih (fun other mem => each other (List.mem_cons_of_mem _ mem)) field (last :: done)
    rw [List.reverse_cons, List.append_assoc] at later
    simp only [fieldPieces_cons, writtenTokens_cons, writtenTokens_append, writtenTokens_lineBreak,
      List.nil_append, List.cons_append, List.append_assoc]
    exact .cons rfl ((runs_fieldPiece (each field List.mem_cons_self) rfl).append later)

theorem delivers_pieces (style : Style) {j : Json} (plain : Plain j) (depth : Nat) :
    Delivers (writtenTokens (pieces style depth j)) j := by
  induction plain generalizing depth with
  | null | bool | number | text | unpaired => exact fun stack => .cons rfl .nil
  | @array items plain ih =>
    intro stack
    cases items with
    | nil => exact .cons rfl (.cons rfl .nil)
    | cons item items =>
      have first := runs_firstItem (ih item List.mem_cons_self (depth + 1)) stack
      have later := runs_itemPieces
        (fun other mem => ih other (List.mem_cons_of_mem _ mem) (depth + 1)) item [] stack
      simp only [pieces_array, writtenTokens_cons, writtenTokens_append, writtenTokens_lineBreak,
        writtenTokens_nil, List.nil_append, List.append_assoc]
      exact .cons rfl (first.append later)
  | @object fields plain ih =>
    intro stack
    cases fields with
    | nil => exact .cons rfl (.cons rfl .nil)
    | cons field fields =>
      have first := runs_fieldPiece (r := .firstKey stack)
        (ih field List.mem_cons_self (depth + 1)) rfl
      have later := runs_fieldPieces
        (fun other mem => ih other (List.mem_cons_of_mem _ mem) (depth + 1)) field [] stack
      simp only [pieces_object, writtenTokens_cons, writtenTokens_append, writtenTokens_lineBreak,
        writtenTokens_nil, List.nil_append, List.append_assoc]
      exact .cons rfl (first.append later)

/-- The text of a value reads as the value. -/
theorem parse?_render (style : Style) {j : Json} (plain : Plain j) :
    parse? (j.render style) = some j := by
  rw [parse?, scan_render style plain, Option.bind_some, ofTokens?,
    delivers_pieces style plain 0 []]
  rfl

end QuantumLowering.Json
