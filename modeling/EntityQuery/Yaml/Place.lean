/-!
# Places in a document

Where a reader of a document stands: the text that is left, and the line and the column that it
starts in. Columns matter because indentation says what belongs together. Besides a line feed, a
line separator and a paragraph separator end a line.
-/

namespace EntityQuery.Yaml

def isBlank (c : Char) : Bool := c = ' ' || c = '\t'

/-- Whether a character ends a line. -/
def isBreak (c : Char) : Bool := c = '\n' || c.toNat = 0x2028 || c.toNat = 0x2029

/-- Whether the text ends here or goes on with a blank or a line break. -/
def endsWord : List Char → Bool
  | [] => true
  | c :: _ => isBlank c || isBreak c

/-- Whether three characters of a kind and nothing else stand here: dashes start a document and dots
end it. -/
def isMarker (mark : Char) : List Char → Bool
  | a :: b :: c :: cs => a = mark && b = mark && c = mark && endsWord cs
  | _ => false

/-- Whether a line that starts here marks the start or the end of a document. -/
def isDocumentMark (cs : List Char) : Bool := isMarker '-' cs || isMarker '.' cs

structure Place where
  rest : List Char
  line : Nat
  column : Nat
  deriving Repr

namespace Place

/-- The place behind the next character. -/
def next (p : Place) : Place :=
  match p.rest with
  | [] => p
  | c :: cs => if isBreak c then ⟨cs, p.line + 1, 0⟩ else ⟨cs, p.line, p.column + 1⟩

/-- The place behind the next characters. -/
def advance (p : Place) : Nat → Place
  | 0 => p
  | n + 1 => p.next.advance n

/-- The characters up to the first one that fails a test, and the place of that one. -/
def span (p : Place) (test : Char → Bool) : List Char × Place :=
  let cs := p.rest.takeWhile test
  (cs, p.advance cs.length)

/-- The place behind the blanks and a comment, if there is nothing else on the line, and behind the
line break. -/
def nextLine? (p : Place) : Option Place :=
  let p := (p.span isBlank).2
  let p := if p.rest.head? = some '#' then (p.span (!isBreak ·)).2 else p
  if p.rest.head?.all isBreak then some p.next else none

/-- Whether a mark of a document's start or end stands here. -/
def isAtMarker (p : Place) (mark : Char) : Bool := p.column = 0 && isMarker mark p.rest

end Place

/-- Goes over blanks, line breaks and comments, and tells whether a key may stand behind them: a
line break in block style allows it. Where a key may stand in block style, a tab is no blank, as it
would indent. -/
def nextToken (inFlow keyAllowed comment : Bool) (line column : Nat) :
    List Char → Place × Bool
  | [] => (⟨[], line, column⟩, keyAllowed)
  | c :: cs =>
    if isBreak c then nextToken inFlow (keyAllowed || !inFlow) false (line + 1) 0 cs
    else if comment then nextToken inFlow keyAllowed true line (column + 1) cs
    else if c = ' ' || (c = '\t' && (inFlow || !keyAllowed)) then
      nextToken inFlow keyAllowed false line (column + 1) cs
    else if c = '#' then nextToken inFlow keyAllowed true line (column + 1) cs
    else (⟨c :: cs, line, column⟩, keyAllowed)

end EntityQuery.Yaml
