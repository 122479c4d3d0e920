import QuantumLowering.Yaml.Scalar
import QuantumLowering.Yaml.Tag

/-!
The tokens of YAML text and the scanner that splits text into them. Collections by indentation are
opened and closed by tokens of their own. That something is a key shows only at the colon behind it,
so the scanner keeps the place where a key may have started.

Anchors, aliases, block scalars and directives are refused.
-/

namespace QuantumLowering.Yaml

inductive Token where
  | documentStart
  | documentEnd
  | openItems
  | openEntries
  | closeBlock
  | openSequence
  | closeSequence
  | openMapping
  | closeMapping
  | dash
  | comma
  | key
  | value
  | tag (name : Option String)
  | scalar (plain : Bool) (text : String)
deriving DecidableEq, Repr, Inhabited

structure KeyStart extends Position where
  before : Nat
  required : Bool
deriving DecidableEq, Repr, Inhabited

namespace KeyStart

def maxLength : Nat := 1024

/-- What starts at `start` is no key if its colon comes only at `p`: it has to be on the same line
and not too far. -/
def isOver (start : KeyStart) (p : Position) : Bool :=
  start.line < p.line || start.offset + maxLength < p.offset

def refresh (p : Position) : Option KeyStart → Option (Option KeyStart)
  | none => some none
  | some start =>
    if !start.isOver p then some (some start)
    else if start.required then none
    else some none

end KeyStart

structure Scanner where
  found : List Token := []
  count : Nat := 0
  indents : List Nat := []
  start? : Option KeyStart := none
  outer : List (Option KeyStart) := []
  keyAllowed : Bool := true
deriving Repr, Inhabited

namespace Scanner

def flow (s : Scanner) : Bool := !s.outer.isEmpty

def floor (s : Scanner) : Nat :=
  match s.indents with
  | [] => 0
  | column :: _ => column + 1

def emit (s : Scanner) (token : Token) : Scanner :=
  { s with found := token :: s.found, count := s.count + 1 }

def allow (s : Scanner) (keyAllowed : Bool) : Scanner := { s with keyAllowed := keyAllowed }

def refresh (s : Scanner) (p : Position) : Option Scanner := do
  return { s with
    start? := ← KeyStart.refresh p s.start?
    outer := ← s.outer.mapM (KeyStart.refresh p) }

def dropStart (s : Scanner) : Option Scanner :=
  if s.start?.any (·.required) then none else some { s with start? := none }

/-- A key may start at `p`. It has to if the columns of a mapping say so. -/
def saveStart (s : Scanner) (p : Position) : Option Scanner :=
  if s.keyAllowed then do
    let s ← s.dropStart
    let required := !s.flow && s.indents.head? = some p.column
    return { s with start? := some ⟨p, s.count, required⟩ }
  else some s

def nests (s : Scanner) (column : Nat) : Bool := !s.flow && s.floor ≤ column

def roll (s : Scanner) (column : Nat) (opening : Token) : Scanner :=
  if s.nests column then { s.emit opening with indents := column :: s.indents } else s

def close (s : Scanner) (n : Nat) : Scanner :=
  { s with
    found := List.replicate n .closeBlock ++ s.found
    count := s.count + n
    indents := s.indents.drop n }

def unroll (s : Scanner) (column : Nat) : Scanner :=
  if s.flow then s else s.close (s.indents.takeWhile (column < ·)).length

def unrollAll (s : Scanner) : Scanner := if s.flow then s else s.close s.indents.length

def marker (s : Scanner) (token : Token) : Option Scanner := do
  return ((← s.unrollAll.dropStart).allow false).emit token

def openBracket (s : Scanner) (p : Position) (token : Token) : Option Scanner := do
  let s ← s.saveStart p
  return { s.emit token with start? := none, outer := s.start? :: s.outer, keyAllowed := true }

def closeBracket (s : Scanner) (token : Token) : Option Scanner := do
  let s ← s.dropStart
  let s := (s.allow false).emit token
  match s.outer with
  | [] => return s
  | start? :: outer => return { s with start? := start?, outer := outer }

def comma (s : Scanner) : Option Scanner := do
  return ((← s.dropStart).allow true).emit .comma

def dash (s : Scanner) (p : Position) : Option Scanner := do
  if s.flow || s.keyAllowed then
    return ((← (s.roll p.column .openItems).dropStart).allow true).emit .dash
  else none

def key (s : Scanner) (p : Position) : Option Scanner := do
  if s.flow || s.keyAllowed then
    return ((← (s.roll p.column .openEntries).dropStart).allow (!s.flow)).emit .key
  else none

def value (s : Scanner) (p : Position) : Option Scanner :=
  match s.start? with
  | some start =>
    let since := s.count - start.before
    let upTo : Scanner := { s with found := s.found.drop since, count := start.before }
    let keyed := (upTo.roll start.column .openEntries).emit .key
    some { keyed with
      found := .value :: (s.found.take since ++ keyed.found)
      count := keyed.count + since + 1
      start? := none
      keyAllowed := false }
  | none =>
    if s.flow || s.keyAllowed then
      some (((s.roll p.column .openEntries).allow (!s.flow)).emit .value)
    else none

def content (s : Scanner) (p : Position) (token : Token) : Option Scanner := do
  return ((← s.saveStart p).allow false).emit token

def tag (s : Scanner) (p : Position) (rest : List Glyph) : Option (Scanner × List Glyph) := do
  let (name, after) ← scanTag? s.flow rest
  return (← s.content p (.tag name), after)

def single (s : Scanner) (p : Position) (rest : List Glyph) : Option (Scanner × List Glyph) := do
  let (text, after) ← scanSingle .empty rest
  return (← s.content p (.scalar false text), after)

def double (s : Scanner) (p : Position) (rest : List Glyph) : Option (Scanner × List Glyph) := do
  let (text, after) ← scanDouble 0 .empty rest
  return (← s.content p (.scalar false text), after)

def plain (s : Scanner) (g : Glyph) (rest : List Glyph) : Option (Scanner × List Glyph) := do
  let (draft, after) ← scanPlain s.flow s.floor (Draft.empty.push g.char) rest
  let s ← s.content g.toPosition (.scalar true draft.plain)
  return (s.allow draft.fold.isBroken, after)

def leaving (rest : List Glyph) : Option Scanner → Option (Scanner × List Glyph)
  | some s => some (s, rest)
  | none => none

/-- A token of one character stands before the rest of the text. Behind a dash, and outside
brackets behind a key's mark and a colon, there has to be white space. -/
def isMark (flow : Bool) (c : Char) (rest : List Glyph) : Bool :=
  isFlowMark c || c = '-' && endsToken rest || (c = '?' || c = ':') && (flow || endsToken rest)

def mark (s : Scanner) (p : Position) : Char → Option Scanner
  | '[' => s.openBracket p .openSequence
  | ']' => s.closeBracket .closeSequence
  | '\x7b' => s.openBracket p .openMapping
  | '\x7d' => s.closeBracket .closeMapping
  | ',' => s.comma
  | '-' => s.dash p
  | '?' => s.key p
  | ':' => s.value p
  | _ => none

def token (s : Scanner) (g : Glyph) (rest : List Glyph) : Option (Scanner × List Glyph) :=
  let p := g.toPosition
  if startsTriple '-' (g :: rest) then leaving (rest.drop 2) (s.marker .documentStart)
  else if startsTriple '.' (g :: rest) then leaving (rest.drop 2) (s.marker .documentEnd)
  else if isMark s.flow g.char rest then leaving rest (s.mark p g.char)
  else if g.char = '!' then s.tag p rest
  else if g.char = '\x27' then s.single p rest
  else if g.char = '\x22' then s.double p rest
  else if startsPlain s.flow g.char rest then s.plain g rest
  else none

def next (s : Scanner) (g : Glyph) (rest : List Glyph) : Option (Scanner × List Glyph) := do
  let s ← s.refresh g.toPosition
  (s.unroll g.column).token g rest

def finish (s : Scanner) : Option (List Token) := do
  return (← s.unrollAll.dropStart).found.reverse

end Scanner

/-- Where blanks, comments and line breaks end, and whether a key may start there. Outside brackets
one may behind every line break, and where one may there are no tabs. -/
def skipGap (flow : Bool) : (comment keyAllowed : Bool) → List Glyph → Bool × List Glyph
  | _, keyAllowed, [] => (keyAllowed, [])
  | comment, keyAllowed, g :: rest =>
    if isBreak g.char then skipGap flow false (keyAllowed || !flow) rest
    else if comment || g.char = '#' then skipGap flow true keyAllowed rest
    else if g.char = ' ' || isByteOrderMark g || g.char = '\t' && (flow || !keyAllowed) then
      skipGap flow false keyAllowed rest
    else (keyAllowed, g :: rest)

theorem suffix_skipGap {flow comment keyAllowed : Bool} {gs : List Glyph} :
    (skipGap flow comment keyAllowed gs).2 <:+ gs := by
  fun_induction skipGap flow comment keyAllowed gs <;> grind

namespace Scanner

theorem suffix_tag {s t : Scanner} {p : Position} {rest after : List Glyph}
    (h : s.tag p rest = some (t, after)) : after <:+ rest := by
  simp only [tag, Option.bind_eq_bind, Option.bind_eq_some_iff] at h
  obtain ⟨⟨name, left⟩, scanned, _, _, same⟩ := h
  have bound := suffix_scanTag scanned
  grind

theorem suffix_single {s t : Scanner} {p : Position} {rest after : List Glyph}
    (h : s.single p rest = some (t, after)) : after <:+ rest := by
  simp only [single, Option.bind_eq_bind, Option.bind_eq_some_iff] at h
  obtain ⟨⟨text, left⟩, scanned, _, _, same⟩ := h
  have bound := suffix_scanSingle scanned
  grind

theorem suffix_double {s t : Scanner} {p : Position} {rest after : List Glyph}
    (h : s.double p rest = some (t, after)) : after <:+ rest := by
  simp only [double, Option.bind_eq_bind, Option.bind_eq_some_iff] at h
  obtain ⟨⟨text, left⟩, scanned, _, _, same⟩ := h
  have bound := suffix_scanDouble scanned
  grind

theorem suffix_plain {s t : Scanner} {g : Glyph} {rest after : List Glyph}
    (h : s.plain g rest = some (t, after)) : after <:+ rest := by
  simp only [plain, Option.bind_eq_bind, Option.bind_eq_some_iff] at h
  obtain ⟨⟨draft, left⟩, scanned, _, _, same⟩ := h
  have bound := suffix_scanPlain scanned
  grind

theorem eq_of_leaving {o : Option Scanner} {t : Scanner} {rest after : List Glyph}
    (h : leaving rest o = some (t, after)) : after = rest := by
  cases o <;> simp_all [leaving]

theorem suffix_token {s t : Scanner} {g : Glyph} {rest after : List Glyph}
    (h : s.token g rest = some (t, after)) : after <:+ rest := by
  have behind : rest.drop 2 <:+ rest := List.drop_suffix 2 rest
  simp only [token] at h
  grind [eq_of_leaving, suffix_tag, suffix_single, suffix_double, suffix_plain]

theorem suffix_next {s t : Scanner} {g : Glyph} {rest after : List Glyph}
    (h : s.next g rest = some (t, after)) : after <:+ rest := by
  simp only [next, Option.bind_eq_bind, Option.bind_eq_some_iff] at h
  obtain ⟨_, _, read⟩ := h
  exact suffix_token read

end Scanner

def scanFrom (s : Scanner) (gs : List Glyph) : Option (List Token) :=
  match _skipped : skipGap s.flow false s.keyAllowed gs with
  | (_, []) => s.finish
  | (keyAllowed, g :: rest) =>
    match _read : (s.allow keyAllowed).next g rest with
    | none => none
    | some (t, after) => scanFrom t after
termination_by gs.length
decreasing_by
  have gap := (@suffix_skipGap s.flow false s.keyAllowed gs).length_le
  have left := (Scanner.suffix_next _read).length_le
  rw [_skipped] at gap
  simp only [List.length_cons] at gap
  omega

def scan (cs : List Char) : Option (List Token) := (glyphs? cs).bind (scanFrom {})

end QuantumLowering.Yaml
