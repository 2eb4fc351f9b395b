import EntityQuery.Text.Formless

/-!
# Quoted text

Texts as messages quote them: between double quotes, with the usual short escapes, and with every
character that has no form of its own written as its number. Bytes that are no text are quoted
piecewise, each stray byte by its two hexadecimal digits.
-/

namespace EntityQuery.Text

/-- A character by its number. -/
def numbered (c : Char) : List Char :=
  "\\u\x7b".toList ++ Nat.toDigits 16 c.toNat ++ ['\x7d']

def quotedChar (c : Char) : List Char :=
  if c = '"' then ['\\', '"']
  else if c = '\\' then ['\\', '\\']
  else if c = '\n' then ['\\', 'n']
  else if c = '\r' then ['\\', 'r']
  else if c = '\t' then ['\\', 't']
  else if c.toNat = 0 then ['\\', '0']
  else if isFormless c then numbered c
  else [c]

/-- A text between quotes. -/
def quoted (s : String) : String := "\"" ++ String.ofList (s.toList.flatMap quotedChar) ++ "\""

/-- A piece of a byte sequence: a character, or a byte that is not part of one. -/
inductive Piece where
  | char (c : Char)
  | stray (byte : Nat)
  deriving DecidableEq, Repr

def isTail (b : Nat) : Bool := 0x80 ≤ b && b < 0xC0

/-- Whether `b` may follow the first byte of a character: after some first bytes only part of the
tail bytes may, which rules out overlong forms, surrogates and numbers that are too large. -/
def maySecond (first b : Nat) : Bool :=
  if first = 0xE0 then 0xA0 ≤ b && b < 0xC0
  else if first = 0xED then 0x80 ≤ b && b < 0xA0
  else if first = 0xF0 then 0x90 ≤ b && b < 0xC0
  else if first = 0xF4 then 0x80 ≤ b && b < 0x90
  else isTail b

/-- The character at the front of a byte sequence, read as UTF-8, with the number of bytes that
follow its first one. -/
def charAt? : List Nat → Option (Char × Nat)
  | [] => none
  | a :: rest =>
    if a < 0x80 then some (Char.ofNat a, 0)
    else if 0xC2 ≤ a ∧ a < 0xE0 then
      match rest with
      | b :: _ => if isTail b then some (Char.ofNat ((a - 0xC0) * 64 + (b - 0x80)), 1) else none
      | _ => none
    else if 0xE0 ≤ a ∧ a < 0xF0 then
      match rest with
      | b :: c :: _ =>
        if maySecond a b && isTail c then
          some (Char.ofNat ((a - 0xE0) * 4096 + (b - 0x80) * 64 + (c - 0x80)), 2)
        else none
      | _ => none
    else if 0xF0 ≤ a ∧ a < 0xF5 then
      match rest with
      | b :: c :: d :: _ =>
        if maySecond a b && isTail c && isTail d then
          some (Char.ofNat ((a - 0xF0) * 262144 + (b - 0x80) * 4096 + (c - 0x80) * 64 +
            (d - 0x80)), 3)
        else none
      | _ => none
    else none

/-- The pieces of a byte sequence after `skip` more bytes of the last one. The start of a
character that breaks off is made up of stray bytes. -/
def piecesFrom (skip : Nat) : List Nat → List Piece
  | [] => []
  | a :: rest =>
    match skip with
    | n + 1 => piecesFrom n rest
    | 0 =>
      match charAt? (a :: rest) with
      | some (c, n) => .char c :: piecesFrom n rest
      | none => .stray a :: piecesFrom 0 rest

/-- The pieces of a byte sequence, read as UTF-8. -/
def pieces (bytes : List Nat) : List Piece := piecesFrom 0 bytes

/-- The character of a piece, if it is one. -/
def Piece.char? : Piece → Option Char
  | .char c => some c
  | .stray _ => none

/-- The text that bytes encode, if they encode one. -/
def decode? (bytes : List Nat) : Option String :=
  ((pieces bytes).mapM Piece.char?).map String.ofList

/-- A byte as two hexadecimal digits in upper case. -/
def strayByte (b : Nat) : List Char :=
  let digits := (Nat.toDigits 16 b).map Char.toUpper
  '\\' :: 'x' :: List.replicate (2 - digits.length) '0' ++ digits

/-- A piece as it stands between quotes. -/
def Piece.quoted : Piece → List Char
  | .char c => if c.toNat = 39 then ['\\', c] else quotedChar c
  | .stray b => strayByte b

/-- Bytes between quotes; here the single quote is escaped as well. -/
def quotedBytes (bytes : List Nat) : String :=
  "\"" ++ String.ofList ((pieces bytes).flatMap Piece.quoted) ++ "\""

end EntityQuery.Text
