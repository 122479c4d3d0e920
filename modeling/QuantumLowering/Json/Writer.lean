import QuantumLowering.Json.Token

namespace QuantumLowering.Json

def hexChar (n : Nat) : Char := if n < 10 then Char.ofNat (48 + n) else Char.ofNat (87 + n)

def escapeChar (c : Char) : List Char :=
  if c = '\x22' then ['\\', '\x22']
  else if c = '\\' then ['\\', '\\']
  else if c = '\x08' then ['\\', 'b']
  else if c = '\t' then ['\\', 't']
  else if c = '\n' then ['\\', 'n']
  else if c = '\x0c' then ['\\', 'f']
  else if c = '\r' then ['\\', 'r']
  else if c.toNat < 0x20 then
    ['\\', 'u', '0', '0', hexChar (c.toNat / 16), hexChar (c.toNat % 16)]
  else [c]

def quoted (s : String) : String :=
  String.ofList ('\x22' :: (s.toList.flatMap escapeChar ++ ['\x22']))

def Token.written : Token → String
  | .openArray => "["
  | .closeArray => "]"
  | .openObject => "\x7b"
  | .closeObject => "\x7d"
  | .colon => ":"
  | .comma => ","
  | .null => "null"
  | .bool true => "true"
  | .bool false => "false"
  | .number n => n.text true
  | .text s => quoted s
  | .unpaired => "\"\\ud800\""

inductive Piece where
  | token (t : Token)
  | space
  | newline (depth : Nat)
deriving Repr, Inhabited

def Piece.written : Piece → String
  | .token t => t.written
  | .space => " "
  | .newline depth => String.ofList ('\n' :: List.replicate (2 * depth) ' ')

inductive Style where
  | compact
  | indented
deriving Repr, DecidableEq

namespace Style

def afterColon : Style → List Piece
  | .compact => []
  | .indented => [.space]

def lineBreak (depth : Nat) : Style → List Piece
  | .compact => []
  | .indented => [.newline depth]

end Style

mutual

def pieces (style : Style) (depth : Nat) : Json → List Piece
  | .null => [.token .null]
  | .bool b => [.token (.bool b)]
  | .number n => [.token (.number n)]
  | .text s => [.token (.text s)]
  | .unpaired => [.token .unpaired]
  | .array [] => [.token .openArray, .token .closeArray]
  | .array (item :: items) =>
    .token .openArray :: (style.lineBreak (depth + 1) ++ pieces style (depth + 1) item ++
      itemPieces style (depth + 1) items ++ style.lineBreak depth ++ [.token .closeArray])
  | .object [] => [.token .openObject, .token .closeObject]
  | .object (field :: fields) =>
    .token .openObject :: (style.lineBreak (depth + 1) ++ fieldPiece style (depth + 1) field ++
      fieldPieces style (depth + 1) fields ++ style.lineBreak depth ++ [.token .closeObject])

def itemPieces (style : Style) (depth : Nat) : List Json → List Piece
  | [] => []
  | item :: items =>
    .token .comma :: (style.lineBreak depth ++ pieces style depth item ++
      itemPieces style depth items)

def fieldPiece (style : Style) (depth : Nat) : String × Json → List Piece
  | (key, value) =>
    .token (.text key) :: .token .colon :: (style.afterColon ++ pieces style depth value)

def fieldPieces (style : Style) (depth : Nat) : List (String × Json) → List Piece
  | [] => []
  | field :: fields =>
    .token .comma :: (style.lineBreak depth ++ fieldPiece style depth field ++
      fieldPieces style depth fields)

end

def render (style : Style) (j : Json) : String :=
  String.join ((pieces style 0 j).map Piece.written)

end QuantumLowering.Json
