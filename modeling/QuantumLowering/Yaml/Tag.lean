import QuantumLowering.Json.Token
import QuantumLowering.Yaml.Glyph

namespace QuantumLowering.Yaml

def isWordChar (c : Char) : Bool := c.isAlphanum || c = '-' || c = '_'

def isTagChar (c : Char) : Bool :=
  isWordChar c || c ∈ [';', '/', '?', ':', '@', '&', '=', '+', '$', '.', '%', '!', '~', '*', '\x27',
    '(', ')']

def isVerbatimChar (c : Char) : Bool := isTagChar c || c ∈ [',', '[', ']']

def trailingBytes? (first : UInt8) : Option Nat :=
  if first &&& 0x80 = 0 then some 0
  else if first &&& 0xE0 = 0xC0 then some 1
  else if first &&& 0xF0 = 0xE0 then some 2
  else if first &&& 0xF8 = 0xF0 then some 3
  else none

def escapedByte? (high low : Char) : Option UInt8 := do
  return ((← Json.hexDigit? high) * 16 + (← Json.hexDigit? low)).toUInt8

/-- The bytes of a tag. Behind a percent sign a byte is written in two digits; the first argument
counts those that the last character still lacks. -/
def tagBytes? : (due : Nat) → List Char → Option (List UInt8)
  | 0, [] => some []
  | _ + 1, [] => none
  | 0, '%' :: high :: low :: rest => do
    let byte ← escapedByte? high low
    return byte :: (← tagBytes? (← trailingBytes? byte) rest)
  | due + 1, '%' :: high :: low :: rest => do
    let byte ← escapedByte? high low
    if byte &&& 0xC0 = 0x80 then return byte :: (← tagBytes? due rest) else none
  | 0, c :: rest => if c = '%' then none else do return c.toNat.toUInt8 :: (← tagBytes? 0 rest)
  | _ + 1, _ :: _ => none

def tagText? (gs : List Glyph) : Option (Option String) :=
  (tagBytes? 0 (gs.map Glyph.char)).map fun bytes =>
    String.fromUTF8? ⟨(bytes.takeWhile (· ≠ 0)).toArray⟩

def nameOfText? (text : String) : Option String :=
  match text.toList with
  | '!' :: name => some (String.ofList name)
  | _ => none

def scanVerbatim? (gs : List Glyph) : Option (Option String × List Glyph) := do
  let taken := gs.takeWhile (isVerbatimChar ·.char)
  let text ← tagText? taken
  match gs.dropWhile (isVerbatimChar ·.char) with
  | g :: rest => if g.char = '>' && !taken.isEmpty then some (text.bind nameOfText?, rest) else none
  | [] => none

def scanLanguage? (gs : List Glyph) : Option (Option String × List Glyph) := do
  let taken := gs.takeWhile (isTagChar ·.char)
  let _ ← tagText? taken
  if taken.isEmpty then none else some (none, gs.dropWhile (isTagChar ·.char))

/-- A local tag behind its exclamation mark. A word with a further mark behind it would be a handle,
and there are none. -/
def scanLocal? (gs : List Glyph) : Option (Option String × List Glyph) := do
  let name ← tagText? (gs.takeWhile (isTagChar ·.char))
  if startsWith '!' (gs.dropWhile (isWordChar ·.char)) then none
  else some (name, gs.dropWhile (isTagChar ·.char))

def scanTagBody? : List Glyph → Option (Option String × List Glyph)
  | [] => scanLocal? []
  | g :: rest =>
    if g.char = '<' then scanVerbatim? rest
    else if g.char = '!' then scanLanguage? rest
    else scanLocal? (g :: rest)

def scanTag? (flow : Bool) (gs : List Glyph) : Option (Option String × List Glyph) := do
  let (name, rest) ← scanTagBody? gs
  if endsToken rest || flow && startsWith ',' rest then some (name, rest) else none

theorem suffix_scanVerbatim {gs after : List Glyph} {name : Option String}
    (h : scanVerbatim? gs = some (name, after)) : after <:+ gs := by
  have left : gs.dropWhile (isVerbatimChar ·.char) <:+ gs := List.dropWhile_suffix _
  simp only [scanVerbatim?, Option.bind_eq_bind, Option.bind_eq_some_iff] at h
  obtain ⟨text, _, h⟩ := h
  split at h
  case h_1 g rest dropped =>
    have inner : rest <:+ gs := (List.suffix_cons g rest).trans (dropped ▸ left)
    grind
  case h_2 => simp at h

theorem suffix_scanLanguage {gs after : List Glyph} {name : Option String}
    (h : scanLanguage? gs = some (name, after)) : after <:+ gs := by
  have left : gs.dropWhile (isTagChar ·.char) <:+ gs := List.dropWhile_suffix _
  simp only [scanLanguage?, Option.bind_eq_bind, Option.bind_eq_some_iff] at h
  obtain ⟨text, _, h⟩ := h
  split at h <;> grind

theorem suffix_scanLocal {gs after : List Glyph} {name : Option String}
    (h : scanLocal? gs = some (name, after)) : after <:+ gs := by
  have left : gs.dropWhile (isTagChar ·.char) <:+ gs := List.dropWhile_suffix _
  simp only [scanLocal?, Option.bind_eq_bind, Option.bind_eq_some_iff] at h
  obtain ⟨text, _, h⟩ := h
  split at h <;> grind

theorem suffix_scanTagBody {gs after : List Glyph} {name : Option String}
    (h : scanTagBody? gs = some (name, after)) : after <:+ gs := by
  unfold scanTagBody? at h
  grind [suffix_scanVerbatim, suffix_scanLanguage, suffix_scanLocal, List.suffix_cons_iff]

theorem suffix_scanTag {flow : Bool} {gs after : List Glyph} {name : Option String}
    (h : scanTag? flow gs = some (name, after)) : after <:+ gs := by
  simp only [scanTag?, Option.bind_eq_bind, Option.bind_eq_some_iff] at h
  obtain ⟨⟨_, rest⟩, body, h⟩ := h
  have left := suffix_scanTagBody body
  split at h <;> grind

end QuantumLowering.Yaml
