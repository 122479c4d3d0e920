import QuantumLowering.Json.Writer
import QuantumLowering.Proofs.Number.Layout

namespace QuantumLowering.Json

def extendsNumber (c : Char) : Bool := c.isDigit || c == '.' || c == 'e' || c == 'E'

/-- The text does not continue a number that ends before it. -/
def EndsNumber (cs : List Char) : Prop := ∀ c ∈ cs.head?, extendsNumber c = false

theorem EndsNumber.stops {cs : List Char} (ends : EndsNumber cs) (c : Char) (first : c ∈ cs.head?) :
    c.isDigit = false ∧ c ≠ '.' := by
  have other := ends c first
  simp_all [extendsNumber]

theorem digits_split {digits rest : List Char} (all : ∀ c ∈ digits, c.isDigit)
    (ends : ∀ c ∈ rest.head?, c.isDigit = false) :
    (digits ++ rest).takeWhile Char.isDigit = digits ∧
      (digits ++ rest).dropWhile Char.isDigit = rest := by
  have stop : rest.takeWhile Char.isDigit = [] ∧ rest.dropWhile Char.isDigit = rest := by
    cases rest with
    | nil => exact ⟨rfl, rfl⟩
    | cons c cs => simp [ends c rfl]
  rw [List.takeWhile_append_of_pos all, List.dropWhile_append_of_pos all, stop.1, stop.2]
  exact ⟨List.append_nil _, rfl⟩

def fractionChars (digits : List Char) : List Char := if digits.isEmpty then [] else '.' :: digits

def powerChars : Option Int → List Char
  | none => []
  | some e => 'e' :: (if e < 0 then '-' else '+') :: Nat.toDigits 10 e.natAbs

theorem toList_text (n : Numeral) :
    (n.text true).toList = (if n.negative then ['-'] else []) ++
      (Nat.toDigits 10 n.whole ++ (fractionChars n.fraction ++ powerChars n.exponent)) := by
  obtain ⟨negative, whole, fraction, exponent⟩ := n
  have sign : (if negative then "-" else "").toList = if negative then ['-'] else [] := by
    cases negative <;> rfl
  have point : (if fraction.isEmpty then "" else "." ++ String.ofList fraction).toList =
      fractionChars fraction := by
    unfold fractionChars
    split <;> simp
  cases exponent with
  | none =>
    simp only [Numeral.text, String.toList_append, sign, point, Nat.toList_repr, powerChars,
      String.toList_empty, List.append_nil, List.append_assoc]
  | some e =>
    have sign' : (if e < 0 then "-" else "+").toList = [if e < 0 then '-' else '+'] := by
      split <;> rfl
    simp only [Numeral.text, if_true, String.toList_append, sign, point, Nat.toList_repr, sign',
      powerChars, List.append_assoc]
    rfl

theorem scanPower_toDigits (negative : Bool) (n : Nat) {rest : List Char}
    (ends : ∀ c ∈ rest.head?, c.isDigit = false) :
    scanPower negative (Nat.toDigits 10 n ++ rest) =
      some (some (if negative then -(n : Int) else n), rest) := by
  have split := digits_split (fun _ => Numeral.isDigit_of_mem_toDigits (n := n)) ends
  simp [scanPower, split, Nat.toDigits_ne_nil]

theorem scanExponent_powerChars (e : Option Int) {rest : List Char} (ends : EndsNumber rest) :
    scanExponent (powerChars e ++ rest) = some (e, rest) := by
  have digits : ∀ c ∈ rest.head?, c.isDigit = false := fun c mem => (ends.stops c mem).1
  cases e with
  | none =>
    cases rest with
    | nil => rfl
    | cons c cs =>
      have stop := ends c rfl
      simp only [powerChars, List.nil_append]
      unfold scanExponent
      split <;> simp_all [extendsNumber]
  | some e =>
    by_cases sign : e < 0
    · have value : -(e.natAbs : Int) = e := by omega
      rw [powerChars, if_pos sign]
      exact (scanPower_toDigits true _ digits).trans (by rw [if_pos rfl, value])
    · have value : (e.natAbs : Int) = e := by omega
      rw [powerChars, if_neg sign]
      exact (scanPower_toDigits false _ digits).trans (by rw [if_neg (by decide), value])

theorem scanFraction_fractionChars {digits rest : List Char} (all : ∀ c ∈ digits, c.isDigit)
    (ends : ∀ c ∈ rest.head?, c.isDigit = false ∧ c ≠ '.') :
    scanFraction (fractionChars digits ++ rest) = some (digits, rest) := by
  cases digits with
  | nil =>
    cases rest with
    | nil => rfl
    | cons c cs =>
      have stop := (ends c rfl).2
      simp only [fractionChars, List.isEmpty_nil, if_true, List.nil_append]
      unfold scanFraction
      split <;> simp_all
  | cons d digits =>
    have split := digits_split all fun c mem => (ends c mem).1
    simp only [fractionChars, List.isEmpty_cons, Bool.false_eq_true, if_false, List.cons_append]
      at split ⊢
    simp only [scanFraction, split, List.isEmpty_cons, Bool.false_eq_true, if_false]

theorem head_toDigits {n : Nat} (pos : 0 < n) : (Nat.toDigits 10 n).head? ≠ some '0' := by
  induction n using Nat.strongRecOn with
  | ind n ih =>
    rw [Nat.toDigits_eq_if (by decide)]
    by_cases small : n < 10
    · have code := Nat.toNat_digitChar_of_lt_ten small
      intro zero
      simp only [if_pos small, List.head?_cons, Option.some.injEq] at zero
      rw [zero] at code
      simp at code
      omega
    · rw [if_neg small, List.head?_append_of_ne_nil _ Nat.toDigits_ne_nil]
      exact ih (n / 10) (by omega) (by omega)

theorem scanNumber_digits {n : Numeral} (plain : n.Plain) {rest : List Char}
    (ends : EndsNumber rest) :
    scanNumber n.negative (Nat.toDigits 10 n.whole ++
      (fractionChars n.fraction ++ powerChars n.exponent) ++ rest) = some (n, rest) := by
  obtain ⟨negative, whole, fraction, exponent⟩ := n
  have afterPoint : ∀ c ∈ (powerChars exponent ++ rest).head?, c.isDigit = false ∧ c ≠ '.' := by
    intro c mem
    cases exponent with
    | none => exact ends.stops c mem
    | some e =>
      obtain rfl : 'e' = c := by simpa [powerChars] using mem
      decide
  have afterWhole : ∀ c ∈ (fractionChars fraction ++ (powerChars exponent ++ rest)).head?,
      c.isDigit = false := by
    intro c mem
    cases fraction with
    | nil => exact (afterPoint c mem).1
    | cons d digits =>
      obtain rfl : '.' = c := by simpa [fractionChars] using mem
      decide
  have split := digits_split (fun _ => Numeral.isDigit_of_mem_toDigits (n := whole)) afterWhole
  have lead : ¬ ((Nat.toDigits 10 whole).isEmpty ∨
      (Nat.toDigits 10 whole).head? = some '0' ∧ 1 < (Nat.toDigits 10 whole).length) := by
    rcases Nat.eq_zero_or_pos whole with rfl | pos
    · simp
    · simp [Nat.toDigits_ne_nil, head_toDigits pos]
  simp only [scanNumber, List.append_assoc, split, if_neg lead,
    scanFraction_fractionChars plain afterPoint, scanExponent_powerChars exponent ends,
    Numeral.digitsValue_toDigits]

theorem scanToken_of_isDigit {c : Char} (digit : c.isDigit) (cs : List Char) :
    scanToken c cs = numberRest (scanNumber false (c :: cs)) := by
  unfold scanToken
  split
  case h_12 => rfl
  all_goals exact absurd digit (by decide)

theorem isGap_of_isDigit {c : Char} (digit : c.isDigit) : isGap c = false := by
  rw [← Bool.not_eq_true]
  intro gap
  simp only [isGap, Bool.or_eq_true, decide_eq_true_eq] at gap
  rcases gap with ((rfl | rfl) | rfl) | rfl <;> exact absurd digit (by decide)

theorem scanToken_text {n : Numeral} (plain : n.Plain) {rest : List Char} (ends : EndsNumber rest) :
    ∃ c cs, (n.text true).toList ++ rest = c :: cs ∧ isGap c = false ∧
      scanToken c cs = some (.number n, rest) := by
  have scanned := scanNumber_digits plain ends
  rw [toList_text]
  generalize fractionChars n.fraction ++ powerChars n.exponent = tail at *
  cases sign : n.negative with
  | true =>
    rw [sign] at scanned
    refine ⟨'-', Nat.toDigits 10 n.whole ++ tail ++ rest, rfl, rfl, ?_⟩
    exact congrArg numberRest scanned
  | false =>
    cases written : Nat.toDigits 10 n.whole with
    | nil => exact absurd written Nat.toDigits_ne_nil
    | cons c cs =>
      have digit : c.isDigit := Numeral.isDigit_of_mem_toDigits (n := n.whole) (by simp [written])
      rw [sign, written] at scanned
      refine ⟨c, cs ++ tail ++ rest, rfl, isGap_of_isDigit digit, ?_⟩
      rw [scanToken_of_isDigit digit]
      exact congrArg numberRest scanned

def Atom.Denotes (atom : Atom) (c : Char) : Prop :=
  ∀ rest, joinAtoms (atom :: rest) = (joinAtoms rest).map (c :: ·)

theorem denotes_char (c : Char) : (Atom.char c).Denotes c := fun _ => rfl

theorem denotes_unit {c : Char} (control : c.toNat < 0x20) : (Atom.unit c.toNat).Denotes c := by
  have high : isHighSurrogate c.toNat = false := by simp [isHighSurrogate]; omega
  have low : isLowSurrogate c.toNat = false := by simp [isLowSurrogate]; omega
  intro rest
  cases rest with
  | nil => simp [joinAtoms, high, low]
  | cons atom rest => cases atom <;> simp [joinAtoms, high, low]

theorem hexDigit?_hexChar : ∀ n < 16, hexDigit? (hexChar n) = some n := by
  decide

theorem hexUnit?_hexChar {n : Nat} (small : n < 0x20) :
    hexUnit? '0' '0' (hexChar (n / 16)) (hexChar (n % 16)) = some n := by
  have zero : hexDigit? '0' = some 0 := by decide
  have first := hexDigit?_hexChar (n / 16) (by omega)
  have second := hexDigit?_hexChar (n % 16) (by omega)
  simp only [hexUnit?, zero, first, second, Option.bind_eq_bind, Option.bind_some]
  congr 1
  omega

theorem escapeChar_cases (c : Char) :
    (∃ e, escapeChar c = ['\\', e] ∧ e ≠ 'u' ∧ escaped? e = some c) ∨
    (c.toNat < 0x20 ∧ escapeChar c =
      ['\\', 'u', '0', '0', hexChar (c.toNat / 16), hexChar (c.toNat % 16)]) ∨
    (escapeChar c = [c] ∧ c ≠ '\x22' ∧ c ≠ '\\' ∧ 0x20 ≤ c.toNat) := by
  by_cases lettered : c ∈ ['\x22', '\\', '\x08', '\t', '\n', '\x0c', '\r']
  · left
    simp only [List.mem_cons, List.not_mem_nil, or_false] at lettered
    rcases lettered with rfl | rfl | rfl | rfl | rfl | rfl | rfl <;>
      exact ⟨_, rfl, by decide, rfl⟩
  right
  simp only [List.mem_cons, List.not_mem_nil, or_false, not_or] at lettered
  obtain ⟨quote, slash, back, tab, line, feed, ret⟩ := lettered
  simp only [escapeChar, quote, slash, back, tab, line, feed, ret, if_false]
  by_cases control : c.toNat < 0x20
  · exact .inl ⟨control, if_pos control⟩
  · exact .inr ⟨if_neg control, quote, slash, Nat.le_of_not_lt control⟩

theorem scanAtoms_escapeChar (c : Char) (rest : List Char) :
    ∃ atom : Atom, atom.Denotes c ∧
      scanAtoms (escapeChar c ++ rest) = consAtom (some atom) (scanAtoms rest) := by
  rcases escapeChar_cases c with ⟨e, written, other, letter⟩ | ⟨control, written⟩ |
    ⟨written, quote, slash, printable⟩
  · refine ⟨.char c, denotes_char c, ?_⟩
    rw [written, List.cons_append, List.cons_append, List.nil_append, scanAtoms, letter]
    · rfl
    · simp [other]
  · refine ⟨.unit c.toNat, denotes_unit control, ?_⟩
    rw [written]
    simp only [List.cons_append, List.nil_append, scanAtoms, hexUnit?_hexChar control]
    rfl
  · refine ⟨.char c, denotes_char c, ?_⟩
    have plain : ¬ (c = '\\' ∨ c.toNat < 0x20) := by
      rw [not_or]
      exact ⟨slash, Nat.not_lt.2 printable⟩
    rw [written, List.cons_append, List.nil_append, scanAtoms, if_neg plain]
    all_goals simp [quote, slash]

theorem scanAtoms_flatMap (cs rest : List Char) :
    ∃ atoms, joinAtoms atoms = some cs ∧
      scanAtoms (cs.flatMap escapeChar ++ '\x22' :: rest) = some (atoms, rest) := by
  induction cs with
  | nil => exact ⟨[], rfl, by simp [scanAtoms]⟩
  | cons c cs ih =>
    obtain ⟨atoms, joined, scanned⟩ := ih
    obtain ⟨atom, denotes, first⟩ :=
      scanAtoms_escapeChar c (cs.flatMap escapeChar ++ '\x22' :: rest)
    refine ⟨atom :: atoms, ?_, ?_⟩
    · rw [denotes, joined]
      rfl
    · rw [List.flatMap_cons, List.append_assoc, first, scanned]
      rfl

theorem scanToken_quoted (s : String) (rest : List Char) :
    (quoted s).toList ++ rest = '\x22' :: (s.toList.flatMap escapeChar ++ '\x22' :: rest) ∧
      scanToken '\x22' (s.toList.flatMap escapeChar ++ '\x22' :: rest) = some (.text s, rest) := by
  obtain ⟨atoms, joined, scanned⟩ := scanAtoms_flatMap s.toList rest
  constructor
  · simp [quoted]
  · simp [scanToken, scanned, textRest, textToken, joined]

def Piece.isNumber : Piece → Bool
  | .token (.number _) => true
  | _ => false

def Piece.token? : Piece → Option Token
  | .token t => some t
  | _ => none

theorem scanOnto_gap (found : List Token) {c : Char} (gap : isGap c) (cs : List Char) :
    scanOnto found (c :: cs) = scanOnto found cs := by
  rw [scanOnto, if_pos gap]

theorem scanOnto_token (found : List Token) {c : Char} {cs rest : List Char} {t : Token}
    (gap : isGap c = false) (scanned : scanToken c cs = some (t, rest)) :
    scanOnto found (c :: cs) = scanOnto (t :: found) rest := by
  rw [scanOnto, if_neg (by simp [gap])]
  split <;> simp_all

theorem scanOnto_number (found : List Token) {n : Numeral} (plain : n.Plain) {rest : List Char}
    (ends : EndsNumber rest) :
    scanOnto found ((n.text true).toList ++ rest) = scanOnto (.number n :: found) rest := by
  obtain ⟨c, cs, written, gap, scanned⟩ := scanToken_text plain ends
  rw [written, scanOnto_token found gap scanned]

theorem scanOnto_spaces (found : List Token) (count : Nat) (rest : List Char) :
    scanOnto found (List.replicate count ' ' ++ rest) = scanOnto found rest := by
  induction count with
  | zero => rfl
  | succ count ih => rw [List.replicate_succ, List.cons_append, scanOnto_gap found (by decide), ih]

theorem scanOnto_piece (found : List Token) {p : Piece} (other : p.isNumber = false)
    (rest : List Char) :
    scanOnto found (p.written.toList ++ rest) = scanOnto (p.token?.toList ++ found) rest := by
  cases p with
  | space => exact scanOnto_gap found (by decide) rest
  | newline depth =>
    rw [Piece.written, String.toList_ofList, List.cons_append, scanOnto_gap found (by decide),
      scanOnto_spaces]
    rfl
  | token t =>
    cases t with
    | number n => cases other
    | text s =>
      obtain ⟨written, scanned⟩ := scanToken_quoted s rest
      exact (congrArg _ written).trans (scanOnto_token found (by decide) scanned)
    | bool b => cases b <;> exact scanOnto_token found (by decide) rfl
    | _ => exact scanOnto_token found (by decide) rfl

def writtenChars (ps : List Piece) : List Char := ps.flatMap fun p => p.written.toList

def writtenTokens (ps : List Piece) : List Token := ps.filterMap Piece.token?

@[simp]
theorem writtenTokens_nil : writtenTokens [] = [] := rfl

@[simp]
theorem writtenTokens_cons (t : Token) (ps : List Piece) :
    writtenTokens (.token t :: ps) = t :: writtenTokens ps := rfl

@[simp]
theorem writtenTokens_append (ps qs : List Piece) :
    writtenTokens (ps ++ qs) = writtenTokens ps ++ writtenTokens qs :=
  List.filterMap_append

/-- The scanner finds the tokens of the pieces, before anything that ends a number. -/
def Legible (ps : List Piece) : Prop :=
  ∀ found rest, EndsNumber rest →
    scanOnto found (writtenChars ps ++ rest) = scanOnto ((writtenTokens ps).reverse ++ found) rest

theorem Legible.nil : Legible [] := fun _ _ _ => rfl

theorem legible_number {n : Numeral} (plain : n.Plain) : Legible [.token (.number n)] := by
  intro found rest ends
  simpa [writtenChars, writtenTokens, Piece.written, Piece.token?, Token.written]
    using scanOnto_number found plain ends

theorem Legible.cons {p : Piece} (other : p.isNumber = false) {ps : List Piece}
    (legible : Legible ps) : Legible (p :: ps) := by
  intro found rest ends
  have tokens : writtenTokens (p :: ps) = p.token?.toList ++ writtenTokens ps := by
    unfold writtenTokens
    cases h : p.token? <;> simp [h]
  have single : p.token?.toList.reverse = p.token?.toList := by cases p.token? <;> rfl
  rw [writtenChars, List.flatMap_cons, List.append_assoc, scanOnto_piece found other, tokens,
    List.reverse_append, single, List.append_assoc]
  exact legible _ rest ends

theorem endsNumber_piece {p : Piece} (other : p.isNumber = false) (cs : List Char) :
    EndsNumber (p.written.toList ++ cs) := by
  intro c first
  cases p with
  | space => cases first; decide
  | newline depth =>
    rw [Piece.written, String.toList_ofList] at first
    cases first
    decide
  | token t =>
    cases t with
    | number n => cases other
    | text s =>
      rw [Piece.written, Token.written, quoted, String.toList_ofList] at first
      cases first
      decide
    | bool b => cases b <;> (cases first; decide)
    | _ => cases first; decide

/-- Pieces may follow each other where no number meets a number. -/
theorem Legible.append {ps qs : List Piece} (front : Legible ps) (back : Legible qs)
    (other : ∀ q ∈ qs.head?, q.isNumber = false) : Legible (ps ++ qs) := by
  intro found rest ends
  have between : EndsNumber (writtenChars qs ++ rest) := by
    cases qs with
    | nil => exact ends
    | cons q qs =>
      rw [writtenChars, List.flatMap_cons, List.append_assoc]
      exact endsNumber_piece (other q rfl) _
  have chars : writtenChars (ps ++ qs) = writtenChars ps ++ writtenChars qs := List.flatMap_append
  rw [chars, writtenTokens_append, List.append_assoc, front found _ between, back _ rest ends,
    List.reverse_append, List.append_assoc]

section Layout

variable (style : Style) (depth : Nat)

theorem pieces_array (item : Json) (items : List Json) :
    pieces style depth (.array (item :: items)) =
      .token .openArray :: (style.lineBreak (depth + 1) ++ pieces style (depth + 1) item ++
        itemPieces style (depth + 1) items ++ style.lineBreak depth ++ [.token .closeArray]) := rfl

theorem pieces_object (field : String × Json) (fields : List (String × Json)) :
    pieces style depth (.object (field :: fields)) =
      .token .openObject :: (style.lineBreak (depth + 1) ++ fieldPiece style (depth + 1) field ++
        fieldPieces style (depth + 1) fields ++ style.lineBreak depth ++ [.token .closeObject]) :=
  rfl

theorem itemPieces_cons (item : Json) (items : List Json) :
    itemPieces style depth (item :: items) =
      .token .comma :: (style.lineBreak depth ++ pieces style depth item ++
        itemPieces style depth items) := rfl

theorem fieldPiece_mk (name : String) (value : Json) :
    fieldPiece style depth (name, value) = .token (.text name) :: .token .colon ::
      (style.afterColon ++ pieces style depth value) := rfl

theorem fieldPieces_cons (field : String × Json) (fields : List (String × Json)) :
    fieldPieces style depth (field :: fields) =
      .token .comma :: (style.lineBreak depth ++ fieldPiece style depth field ++
        fieldPieces style depth fields) := rfl

end Layout

inductive Plain : Json → Prop
  | null : Plain .null
  | bool (b : Bool) : Plain (.bool b)
  | number {n : Numeral} (plain : n.Plain) : Plain (.number n)
  | text (s : String) : Plain (.text s)
  | unpaired : Plain .unpaired
  | array {items : List Json} (plain : ∀ item ∈ items, Plain item) : Plain (.array items)
  | object {fields : List (String × Json)} (plain : ∀ field ∈ fields, Plain field.2) :
    Plain (.object fields)

attribute [simp] Plain.bool Plain.text

@[simp]
theorem plain_array {items : List Json} : Plain (.array items) ↔ ∀ item ∈ items, Plain item :=
  ⟨fun | .array plain => plain, .array⟩

@[simp]
theorem plain_object {fields : List (String × Json)} :
    Plain (.object fields) ↔ ∀ field ∈ fields, Plain field.2 :=
  ⟨fun | .object plain => plain, .object⟩

variable {style : Style}

/-- Legible pieces that may stand after a number. -/
structure Trails (ps : List Piece) : Prop where
  legible : Legible ps
  other : ∀ p ∈ ps.head?, p.isNumber = false

theorem Trails.cons {p : Piece} (other : p.isNumber = false) {ps : List Piece}
    (legible : Legible ps) : Trails (p :: ps) := by
  refine ⟨.cons other legible, fun q first => ?_⟩
  cases first
  exact other

theorem legible_lineBreak (depth : Nat) {ps : List Piece} (legible : Legible ps) :
    Legible (style.lineBreak depth ++ ps) := by
  cases style with
  | compact => exact legible
  | indented => exact .cons rfl legible

theorem trails_close (style : Style) (depth : Nat) {t : Token}
    (other : (Piece.token t).isNumber = false) :
    Trails (style.lineBreak depth ++ [.token t]) := by
  cases style with
  | compact => exact .cons other .nil
  | indented => exact .cons rfl (.cons other .nil)

theorem trails_itemPieces {depth : Nat} {items : List Json} {rest : List Piece}
    (each : ∀ item ∈ items, Legible (pieces style depth item)) (trails : Trails rest) :
    Trails (itemPieces style depth items ++ rest) := by
  induction items with
  | nil => exact trails
  | cons item items ih =>
    have later := ih fun other mem => each other (List.mem_cons_of_mem _ mem)
    simp only [itemPieces_cons, List.cons_append, List.append_assoc]
    exact .cons rfl (legible_lineBreak _
      ((each item List.mem_cons_self).append later.legible later.other))

theorem legible_fieldPiece {depth : Nat} {field : String × Json} {rest : List Piece}
    (value : Legible (pieces style depth field.2)) (trails : Trails rest) :
    Legible (fieldPiece style depth field ++ rest) := by
  obtain ⟨name, j⟩ := field
  have inner := value.append trails.legible trails.other
  simp only [fieldPiece_mk, List.cons_append, List.append_assoc]
  cases style with
  | compact => exact .cons rfl (.cons rfl inner)
  | indented => exact .cons rfl (.cons rfl (.cons rfl inner))

theorem trails_fieldPieces {depth : Nat} {fields : List (String × Json)} {rest : List Piece}
    (each : ∀ field ∈ fields, Legible (pieces style depth field.2)) (trails : Trails rest) :
    Trails (fieldPieces style depth fields ++ rest) := by
  induction fields with
  | nil => exact trails
  | cons field fields ih =>
    have later := ih fun other mem => each other (List.mem_cons_of_mem _ mem)
    simp only [fieldPieces_cons, List.cons_append, List.append_assoc]
    exact .cons rfl (legible_lineBreak _ (legible_fieldPiece (each field List.mem_cons_self) later))

theorem legible_pieces (style : Style) {j : Json} (plain : Plain j) (depth : Nat) :
    Legible (pieces style depth j) := by
  induction plain generalizing depth with
  | null | bool | text | unpaired => exact .cons rfl .nil
  | number plain => exact legible_number plain
  | @array items plain ih =>
    cases items with
    | nil => exact .cons rfl (.cons rfl .nil)
    | cons item items =>
      have tail := trails_itemPieces
        (fun other mem => ih other (List.mem_cons_of_mem _ mem) (depth + 1))
        (trails_close style depth (t := .closeArray) rfl)
      simp only [pieces_array, List.append_assoc]
      exact .cons rfl (legible_lineBreak _
        ((ih item List.mem_cons_self (depth + 1)).append tail.legible tail.other))
  | @object fields plain ih =>
    cases fields with
    | nil => exact .cons rfl (.cons rfl .nil)
    | cons field fields =>
      have tail := trails_fieldPieces
        (fun other mem => ih other (List.mem_cons_of_mem _ mem) (depth + 1))
        (trails_close style depth (t := .closeObject) rfl)
      simp only [pieces_object, List.append_assoc]
      exact .cons rfl (legible_lineBreak _
        (legible_fieldPiece (ih field List.mem_cons_self (depth + 1)) tail))

theorem scan_render (style : Style) {j : Json} (plain : Plain j) :
    scan (j.render style).toList = some (writtenTokens (pieces style 0 j)) := by
  have chars : (j.render style).toList = writtenChars (pieces style 0 j) := by
    rw [render, String.toList_join, writtenChars, List.flatMap_map]
  have scanned := legible_pieces style plain 0 [] [] (fun c first => by cases first)
  rw [scan, chars]
  simpa [scanOnto] using scanned

end QuantumLowering.Json
