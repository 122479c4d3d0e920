namespace QuantumLowering.Yaml

structure Position where
  line : Nat
  column : Nat
  offset : Nat
deriving DecidableEq, Repr, Inhabited

structure Glyph extends Position where
  char : Char
deriving DecidableEq, Repr, Inhabited

def isPrintable (c : Char) : Bool :=
  let n := c.toNat
  n == 0x09 || n == 0x0A || n == 0x0D || (0x20 ≤ n && n ≤ 0x7E) || n == 0x85 ||
    (0xA0 ≤ n && n ≤ 0xFFFD) || 0x10000 ≤ n

/-- The character that a line break is read as, if the given one is a line break. The two separators
stand for themselves. -/
def lineBreak? : Char → Option Char
  | '\n' => some '\n'
  | '\r' => some '\n'
  | '\u0085' => some '\n'
  | '\u2028' => some '\u2028'
  | '\u2029' => some '\u2029'
  | _ => none

def isBlank (c : Char) : Bool := c = ' ' || c = '\t'

def isBreak (c : Char) : Bool := c = '\n' || c = '\u2028' || c = '\u2029'

def isByteOrderMark (g : Glyph) : Bool := g.column == 0 && g.char = '\uFEFF'

def glyphsOnto (found : List Glyph) : Position → List Char → List Glyph
  | _, [] => found.reverse
  | p, '\r' :: '\n' :: rest =>
    glyphsOnto (⟨p, '\n'⟩ :: found) ⟨p.line + 1, 0, p.offset + 2⟩ rest
  | p, c :: rest =>
    match lineBreak? c with
    | some b => glyphsOnto (⟨p, b⟩ :: found) ⟨p.line + 1, 0, p.offset + c.utf8Size⟩ rest
    | none => glyphsOnto (⟨p, c⟩ :: found) ⟨p.line, p.column + 1, p.offset + c.utf8Size⟩ rest

def glyphs? (cs : List Char) : Option (List Glyph) :=
  if cs.all isPrintable then some (glyphsOnto [] ⟨0, 0, 0⟩ cs) else none

def startsWith (c : Char) : List Glyph → Bool
  | [] => false
  | g :: _ => g.char = c

def endsToken : List Glyph → Bool
  | [] => true
  | g :: _ => isBlank g.char || isBreak g.char

def startsTriple (c : Char) : List Glyph → Bool
  | g₁ :: g₂ :: g₃ :: rest =>
    g₁.column == 0 && g₁.char = c && g₂.char = c && g₃.char = c && endsToken rest
  | _ => false

def startsMarker (gs : List Glyph) : Bool := startsTriple '-' gs || startsTriple '.' gs

end QuantumLowering.Yaml
