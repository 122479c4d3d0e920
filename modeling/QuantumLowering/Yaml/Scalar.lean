import QuantumLowering.Json.Token
import QuantumLowering.Yaml.Glyph

namespace QuantumLowering.Yaml

inductive Fold where
  | blanks (chars : List Char)
  | breaks (first : Option Char) (others : List Char)
deriving Repr, Inhabited

namespace Fold

def none : Fold := .blanks []

def blank (c : Char) : Fold → Fold
  | .blanks chars => .blanks (c :: chars)
  | fold => fold

def lineBreak (c : Char) : Fold → Fold
  | .blanks _ => .breaks (some c) []
  | .breaks first others => .breaks first (c :: others)

def isBroken : Fold → Bool
  | .blanks _ => false
  | .breaks _ _ => true

def isEmpty : Fold → Bool
  | .blanks chars => chars.isEmpty
  | .breaks _ _ => false

/-- The text, in reverse, with the white space after it. A line break is a space; of several the
first is dropped. A separator is kept wherever it stands. -/
def onto (taken : List Char) : Fold → List Char
  | .blanks chars => chars ++ taken
  | .breaks (some '\n') [] => ' ' :: taken
  | .breaks (some '\n') others => others ++ taken
  | .breaks (some c) others => others ++ c :: taken
  | .breaks Option.none others => others ++ taken

end Fold

structure Draft where
  taken : List Char
  fold : Fold
deriving Repr, Inhabited

namespace Draft

def empty : Draft := ⟨[], .none⟩

def push (d : Draft) (c : Char) : Draft := ⟨c :: d.fold.onto d.taken, .none⟩

def read (d : Draft) (c : Char) : Draft :=
  if isBreak c then { d with fold := d.fold.lineBreak c }
  else if isBlank c then { d with fold := d.fold.blank c }
  else d.push c

def join (d : Draft) : Draft := ⟨d.fold.onto d.taken, .breaks none []⟩

def quoted (d : Draft) : String := String.ofList (d.fold.onto d.taken).reverse

def plain (d : Draft) : String := String.ofList d.taken.reverse

end Draft

def scanSingle (d : Draft) : List Glyph → Option (String × List Glyph)
  | [] => none
  | [g] => if g.char = '\x27' then some (d.quoted, []) else none
  | g :: g' :: rest =>
    if startsMarker (g :: g' :: rest) then none
    else if g.char = '\x27' then
      if g'.char = '\x27' then scanSingle (d.push '\x27') rest else some (d.quoted, g' :: rest)
    else scanSingle (d.read g.char) (g' :: rest)

def escape? : Char → Option Char
  | '0' => some '\x00'
  | 'a' => some '\x07'
  | 'b' => some '\x08'
  | 't' => some '\t'
  | '\t' => some '\t'
  | 'n' => some '\n'
  | 'v' => some '\x0b'
  | 'f' => some '\x0c'
  | 'r' => some '\r'
  | 'e' => some '\x1b'
  | ' ' => some ' '
  | '\x22' => some '\x22'
  | '/' => some '/'
  | '\\' => some '\\'
  | 'N' => some '\u0085'
  | '_' => some '\u00a0'
  | 'L' => some '\u2028'
  | 'P' => some '\u2029'
  | _ => none

def codeLength? : Char → Option Nat
  | 'x' => some 2
  | 'u' => some 4
  | 'U' => some 8
  | _ => none

def codeValue? (digits : List Char) : Option Nat :=
  digits.foldlM (fun code c => (code * 16 + ·) <$> Json.hexDigit? c) 0

def codeChar? (code : Nat) : Option Char :=
  if code.isValidChar then some (Char.ofNat code) else none

/-- The character that an escape stands for, of which the backslash has been read, and how many
characters are left of it. -/
def scanEscape? (c : Char) (rest : List Glyph) : Option (Char × Nat) :=
  match codeLength? c with
  | some n => do
    let digits := (rest.take n).map Glyph.char
    if digits.length = n then return (← codeChar? (← codeValue? digits), n) else none
  | none => (escape? c).map fun c => (c, 0)

/-- A scalar after its opening quote. The first argument counts the characters to pass over that
belong to an escape already read. -/
def scanDouble : (passed : Nat) → Draft → List Glyph → Option (String × List Glyph)
  | _, _, [] => none
  | passed + 1, d, _ :: rest => scanDouble passed d rest
  | 0, d, [g] => if g.char = '\x22' then some (d.quoted, []) else none
  | 0, d, g :: g' :: rest =>
    if startsMarker (g :: g' :: rest) then none
    else if g.char = '\x22' then some (d.quoted, g' :: rest)
    else if g.char = '\\' then
      if isBreak g'.char then scanDouble 1 d.join (g' :: rest)
      else
        match scanEscape? g'.char rest with
        | none => none
        | some (c, n) => scanDouble (n + 1) (d.push c) (g' :: rest)
    else scanDouble 0 (d.read g.char) (g' :: rest)

def isFlowMark (c : Char) : Bool := c ∈ [',', '[', ']', '\x7b', '\x7d']

def indicators : List Char :=
  ['-', '?', ':', ',', '[', ']', '\x7b', '\x7d', '#', '&', '*', '!', '|', '>', '\x27', '\x22', '%',
    '@', '\x60']

def startsPlain (flow : Bool) (c : Char) (rest : List Glyph) : Bool :=
  if c = '-' then !endsToken rest
  else if c = '?' || c = ':' then !flow && !endsToken rest
  else !isBlank c && !isBreak c && c ∉ indicators

inductive Meeting where
  | goes
  | ends
  | refused
deriving Repr, DecidableEq

/-- Outside brackets a later line belongs to the scalar only from column `floor` on. -/
def meet (flow : Bool) (floor : Nat) (fold : Fold) (g : Glyph) (rest : List Glyph) : Meeting :=
  if startsMarker (g :: rest) then .ends
  else if g.char = '#' && !fold.isEmpty then .ends
  else if !flow && fold.isBroken && g.column < floor then .ends
  else if flow && isFlowMark g.char then .ends
  else if g.char = ':' then
    if endsToken rest then .ends
    else if flow && rest.head?.any (fun g => isFlowMark g.char || g.char = '?') then .refused
    else .goes
  else .goes

def scanPlain (flow : Bool) (floor : Nat) (d : Draft) : List Glyph → Option (Draft × List Glyph)
  | [] => some (d, [])
  | g :: rest =>
    if g.char = '\t' && d.fold.isBroken && g.column < floor then none
    else if isBlank g.char || isBreak g.char then scanPlain flow floor (d.read g.char) rest
    else
      match meet flow floor d.fold g rest with
      | .goes => scanPlain flow floor (d.push g.char) rest
      | .ends => some (d, g :: rest)
      | .refused => none

theorem suffix_scanSingle {d : Draft} {gs after : List Glyph} {text : String}
    (h : scanSingle d gs = some (text, after)) : after <:+ gs := by
  fun_induction scanSingle d gs <;> grind [List.suffix_cons_iff]

theorem suffix_scanDouble {passed : Nat} {d : Draft} {gs after : List Glyph} {text : String}
    (h : scanDouble passed d gs = some (text, after)) : after <:+ gs := by
  fun_induction scanDouble passed d gs <;> grind

theorem suffix_scanPlain {flow : Bool} {floor : Nat} {d draft : Draft} {gs after : List Glyph}
    (h : scanPlain flow floor d gs = some (draft, after)) : after <:+ gs := by
  fun_induction scanPlain flow floor d gs <;> grind

end QuantumLowering.Yaml
