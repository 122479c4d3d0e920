import QuantumLowering.Json.Basic

namespace QuantumLowering.Json

inductive Token where
  | openArray
  | closeArray
  | openObject
  | closeObject
  | colon
  | comma
  | null
  | bool (value : Bool)
  | number (value : Numeral)
  | text (value : String)
  | unpaired
deriving Repr, DecidableEq, Inhabited

def isGap (c : Char) : Bool := c = ' ' || c = '\n' || c = '\t' || c = '\r'

/-- One element of a string literal: a character, or the code unit of a `\u` escape. -/
inductive Atom where
  | char (c : Char)
  | unit (code : Nat)
deriving Repr, DecidableEq

def hexDigit? (c : Char) : Option Nat :=
  if c.isDigit then some (c.toNat - '0'.toNat)
  else if 'a' ≤ c ∧ c ≤ 'f' then some (c.toNat - 'a'.toNat + 10)
  else if 'A' ≤ c ∧ c ≤ 'F' then some (c.toNat - 'A'.toNat + 10)
  else none

def hexUnit? (a b c d : Char) : Option Nat := do
  let a ← hexDigit? a
  let b ← hexDigit? b
  let c ← hexDigit? c
  let d ← hexDigit? d
  return ((a * 16 + b) * 16 + c) * 16 + d

def escaped? : Char → Option Char
  | '\x22' => some '\x22'
  | '\\' => some '\\'
  | '/' => some '/'
  | 'b' => some '\x08'
  | 'f' => some '\x0c'
  | 'n' => some '\n'
  | 'r' => some '\r'
  | 't' => some '\t'
  | _ => none

def consAtom : Option Atom → Option (List Atom × List Char) → Option (List Atom × List Char)
  | some atom, some (atoms, after) => some (atom :: atoms, after)
  | _, _ => none

def scanAtoms : List Char → Option (List Atom × List Char)
  | [] => none
  | '\x22' :: rest => some ([], rest)
  | '\\' :: 'u' :: a :: b :: c :: d :: rest =>
    consAtom ((hexUnit? a b c d).map .unit) (scanAtoms rest)
  | '\\' :: e :: rest => consAtom ((escaped? e).map .char) (scanAtoms rest)
  | c :: rest =>
    if c = '\\' ∨ c.toNat < 0x20 then none else consAtom (some (.char c)) (scanAtoms rest)

def isHighSurrogate (code : Nat) : Bool := 0xD800 ≤ code && code < 0xDC00

def isLowSurrogate (code : Nat) : Bool := 0xDC00 ≤ code && code < 0xE000

def joinAtoms : List Atom → Option (List Char)
  | [] => some []
  | .char c :: rest => (joinAtoms rest).map (c :: ·)
  | .unit high :: .unit low :: rest =>
    if isHighSurrogate high then
      if isLowSurrogate low then
        let code := 0x10000 + (high - 0xD800) * 0x400 + (low - 0xDC00)
        (joinAtoms rest).map (Char.ofNat code :: ·)
      else none
    else if isLowSurrogate high then none
    else (joinAtoms (.unit low :: rest)).map (Char.ofNat high :: ·)
  | .unit code :: rest =>
    if isHighSurrogate code || isLowSurrogate code then none
    else (joinAtoms rest).map (Char.ofNat code :: ·)

def textToken (atoms : List Atom) : Token :=
  match joinAtoms atoms with
  | some chars => .text (String.ofList chars)
  | none => .unpaired

def scanFraction : List Char → Option (List Char × List Char)
  | '.' :: cs =>
    if (cs.takeWhile Char.isDigit).isEmpty then none
    else some (cs.takeWhile Char.isDigit, cs.dropWhile Char.isDigit)
  | cs => some ([], cs)

def scanPower (negative : Bool) (cs : List Char) : Option (Option Int × List Char) :=
  if (cs.takeWhile Char.isDigit).isEmpty then none
  else
    let n : Int := Numeral.digitsValue 0 (cs.takeWhile Char.isDigit)
    some (some (if negative then -n else n), cs.dropWhile Char.isDigit)

def scanSignedPower : List Char → Option (Option Int × List Char)
  | '+' :: rest => scanPower false rest
  | '-' :: rest => scanPower true rest
  | rest => scanPower false rest

def scanExponent : List Char → Option (Option Int × List Char)
  | 'e' :: rest => scanSignedPower rest
  | 'E' :: rest => scanSignedPower rest
  | rest => some (none, rest)

/-- A number after its sign. Only a lone zero may start with a zero. -/
def scanNumber (negative : Bool) (cs : List Char) : Option (Numeral × List Char) :=
  let digits := cs.takeWhile Char.isDigit
  if digits.isEmpty ∨ digits.head? = some '0' ∧ 1 < digits.length then none
  else
    match scanFraction (cs.dropWhile Char.isDigit) with
    | none => none
    | some (fraction, rest) =>
      match scanExponent rest with
      | none => none
      | some (exponent, rest) =>
        some (⟨negative, Numeral.digitsValue 0 digits, fraction, exponent⟩, rest)

def textRest : Option (List Atom × List Char) → Option (Token × List Char)
  | some (atoms, after) => some (textToken atoms, after)
  | none => none

def numberRest : Option (Numeral × List Char) → Option (Token × List Char)
  | some (n, after) => some (.number n, after)
  | none => none

def scanToken (c : Char) (cs : List Char) : Option (Token × List Char) :=
  match c, cs with
  | '[', rest => some (.openArray, rest)
  | ']', rest => some (.closeArray, rest)
  | '\x7b', rest => some (.openObject, rest)
  | '\x7d', rest => some (.closeObject, rest)
  | ':', rest => some (.colon, rest)
  | ',', rest => some (.comma, rest)
  | 'n', 'u' :: 'l' :: 'l' :: rest => some (.null, rest)
  | 't', 'r' :: 'u' :: 'e' :: rest => some (.bool true, rest)
  | 'f', 'a' :: 'l' :: 's' :: 'e' :: rest => some (.bool false, rest)
  | '\x22', rest => textRest (scanAtoms rest)
  | '-', rest => numberRest (scanNumber true rest)
  | c, rest => numberRest (scanNumber false (c :: rest))

theorem consAtom_eq_some {atom : Option Atom} {found : Option (List Atom × List Char)}
    {atoms : List Atom} {after : List Char} (h : consAtom atom found = some (atoms, after)) :
    ∃ inner, found = some (inner, after) := by
  unfold consAtom at h
  split at h <;> simp_all

theorem length_scanAtoms {cs : List Char} {atoms : List Atom} {after : List Char}
    (h : scanAtoms cs = some (atoms, after)) : after.length ≤ cs.length := by
  fun_induction scanAtoms cs generalizing atoms after <;>
    grind [consAtom_eq_some, List.length_cons]

theorem length_dropWhile_le (p : Char → Bool) (cs : List Char) :
    (cs.dropWhile p).length ≤ cs.length :=
  (List.dropWhile_sublist p).length_le

theorem length_scanFraction {cs fraction after : List Char}
    (h : scanFraction cs = some (fraction, after)) : after.length ≤ cs.length := by
  unfold scanFraction at h
  grind [length_dropWhile_le]

theorem length_scanPower {negative : Bool} {cs after : List Char} {power : Option Int}
    (h : scanPower negative cs = some (power, after)) : after.length ≤ cs.length := by
  unfold scanPower at h
  grind [length_dropWhile_le]

theorem length_scanSignedPower {cs after : List Char} {power : Option Int}
    (h : scanSignedPower cs = some (power, after)) : after.length ≤ cs.length := by
  unfold scanSignedPower at h
  split at h <;> have bound := length_scanPower h <;> simp <;> omega

theorem length_scanExponent {cs after : List Char} {power : Option Int}
    (h : scanExponent cs = some (power, after)) : after.length ≤ cs.length := by
  unfold scanExponent at h
  split at h
  · have bound := length_scanSignedPower h
    simp only [List.length_cons]
    omega
  · have bound := length_scanSignedPower h
    simp only [List.length_cons]
    omega
  · simp_all

theorem length_dropWhile_lt (p : Char → Bool) (cs : List Char)
    (taken : (cs.takeWhile p).isEmpty = false) : (cs.dropWhile p).length < cs.length := by
  have split := congrArg List.length (List.takeWhile_append_dropWhile (p := p) (l := cs))
  cases h : cs.takeWhile p with
  | nil => simp [h] at taken
  | cons c rest => simp [h] at split; omega

theorem length_scanNumber {negative : Bool} {cs after : List Char} {n : Numeral}
    (h : scanNumber negative cs = some (n, after)) : after.length < cs.length := by
  unfold scanNumber at h
  simp only at h
  split at h
  · simp at h
  next digits =>
    split at h
    · simp at h
    next fraction rest scanned =>
      split at h
      · simp at h
      next exponent rest' read =>
        simp only [Option.some.injEq, Prod.mk.injEq] at h
        have first := length_dropWhile_lt Char.isDigit cs (by simp_all)
        have second := length_scanFraction scanned
        have third := length_scanExponent read
        rw [← h.2]
        omega

theorem length_textRest {found : Option (List Atom × List Char)} {bound : Nat}
    (short : ∀ atoms after, found = some (atoms, after) → after.length ≤ bound)
    {token : Token} {after : List Char} (h : textRest found = some (token, after)) :
    after.length ≤ bound := by
  unfold textRest at h
  split at h <;> grind

theorem length_numberRest {found : Option (Numeral × List Char)} {bound : Nat}
    (short : ∀ n after, found = some (n, after) → after.length ≤ bound)
    {token : Token} {after : List Char} (h : numberRest found = some (token, after)) :
    after.length ≤ bound := by
  unfold numberRest at h
  split at h <;> grind

theorem length_scanToken {c : Char} {cs after : List Char} {token : Token}
    (h : scanToken c cs = some (token, after)) : after.length ≤ cs.length := by
  unfold scanToken at h
  split at h
  case h_10 => exact length_textRest (fun _ _ read => length_scanAtoms read) h
  case h_11 => exact length_numberRest (fun _ _ read => Nat.le_of_lt (length_scanNumber read)) h
  case h_12 =>
    refine length_numberRest (fun _ _ read => ?_) h
    have bound := length_scanNumber read
    simp at bound
    omega
  all_goals grind

def scanOnto (found : List Token) : List Char → Option (List Token)
  | [] => some found.reverse
  | c :: cs =>
    if isGap c then scanOnto found cs
    else
      match _scanned : scanToken c cs with
      | none => none
      | some (token, rest) => scanOnto (token :: found) rest
termination_by cs => cs.length
decreasing_by
  · simp
  · have bound := length_scanToken _scanned
    simp
    omega

def scan (cs : List Char) : Option (List Token) := scanOnto [] cs

end QuantumLowering.Json
