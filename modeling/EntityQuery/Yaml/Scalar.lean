import EntityQuery.Json.Reader
import EntityQuery.Yaml.Place

/-!
# Scanning scalars

Scalars may go on over several lines. Where they do, the blanks around the line breaks are dropped.
A line feed becomes a blank if it stands alone and is dropped if other breaks follow it; the other
breaks are kept. What is scanned is gathered last character first.
-/

namespace EntityQuery.Yaml

def isFlowIndicator (c : Char) : Bool :=
  c = ',' || c = '[' || c = ']' || c = '\x7b' || c = '\x7d'

/-- What stands for the blanks and line breaks between two words; all of it is last one first. -/
def fold (blanks breaks : List Char) : List Char :=
  match breaks.getLast? with
  | none => blanks
  | some first =>
    if first ≠ '\n' then breaks
    else if breaks.length = 1 then [' ']
    else breaks.dropLast

/-! ## Plain scalars -/

/-- Scans a plain scalar with the blanks and line breaks behind it, and tells whether there are line
breaks among these. In a block it ends before a line that does not reach the column `indent`, and a
tab may not stand in front of that column. -/
def plainFrom (inFlow : Bool) (indent : Nat) (acc blanks breaks : List Char)
    (line column : Nat) : List Char → Option (List Char × Place × Bool)
  | [] => some (acc, ⟨[], line, column⟩, !breaks.isEmpty)
  | c :: cs =>
    let stop := some (acc, ⟨c :: cs, line, column⟩, !breaks.isEmpty)
    let apart := !breaks.isEmpty || !blanks.isEmpty
    if isBreak c then plainFrom inFlow indent acc [] (c :: breaks) (line + 1) 0 cs
    else if c = '\t' && !breaks.isEmpty && column < indent then none
    else if isBlank c then
      let blanks := if breaks.isEmpty then c :: blanks else []
      plainFrom inFlow indent acc blanks breaks line (column + 1) cs
    else if !breaks.isEmpty && !inFlow && column < indent then stop
    else if (column = 0 && isDocumentMark (c :: cs)) || (c = '#' && apart) then stop
    else if inFlow && c = ':' && cs.head?.any (fun d => isFlowIndicator d || d = '?') then none
    else if (c = ':' && endsWord cs) || (inFlow && isFlowIndicator c) then stop
    else plainFrom inFlow indent (c :: (fold blanks breaks ++ acc)) [] [] line (column + 1) cs

/-- Whether a plain scalar may begin here. -/
def startsPlain (inFlow : Bool) : List Char → Bool
  | [] => false
  | c :: cs =>
    if c = '-' then !endsWord cs
    else if c = '?' ∨ c = ':' then !inFlow && !endsWord cs
    else
      !(isBlank c || isBreak c || isFlowIndicator c ||
        ['#', '&', '*', '!', '|', '>', '"', '%', '@'].contains c || c.toNat = 39 || c.toNat = 96)

/-- A plain scalar, the place behind it, and whether that place is on a line of its own. -/
def plain? (inFlow : Bool) (indent : Nat) (p : Place) : Option (String × Place × Bool) := do
  let (acc, next) ← plainFrom inFlow indent [] [] [] p.line p.column p.rest
  return (String.ofList acc.reverse, next)

/-! ## Scalars in quotes -/

/-- Scans a single-quoted scalar behind its opening quote. Two quotes stand for one. -/
def singleFrom (acc blanks breaks : List Char) (line column : Nat) :
    List Char → Option (List Char × Place)
  | [] => none
  | c :: cs =>
    let joined := fold blanks breaks ++ acc
    if column = 0 && isDocumentMark (c :: cs) then none
    else if isBreak c then singleFrom acc [] (c :: breaks) (line + 1) 0 cs
    else if isBlank c then
      singleFrom acc (if breaks.isEmpty then c :: blanks else []) breaks line (column + 1) cs
    else if c.toNat = 39 then
      match cs with
      | d :: ds =>
        if d.toNat = 39 then singleFrom (c :: joined) [] [] line (column + 2) ds
        else some (joined, ⟨cs, line, column + 1⟩)
      | [] => some (joined, ⟨cs, line, column + 1⟩)
    else singleFrom (c :: joined) [] [] line (column + 1) cs

/-- The character that a short escape stands for. -/
def shortEscape? (c : Char) : Option Char :=
  let table : List (Char × Nat) :=
    [('0', 0), ('a', 7), ('b', 8), ('t', 9), ('n', 10), ('v', 11), ('f', 12), ('r', 13),
      ('e', 27), (' ', 32), ('"', 34), ('/', 47), ('\\', 92), ('N', 0x85), ('_', 0xA0),
      ('L', 0x2028), ('P', 0x2029), ('\t', 9)]
  (table.lookup c).map Char.ofNat

/-- The character of a number, unless the number is that of a surrogate or too large. -/
def charOfHex? (cs : List Char) : Option Char := do
  let n ← Json.hexNumber? cs
  if h : n.isValidChar then some (Char.ofNatAux n h) else none

/-- Scans a double-quoted scalar behind its opening quote. A break after a backslash is dropped with
the blanks that follow it; `escaped` tells that one was, and further breaks are kept then. -/
def doubleFrom (acc blanks breaks : List Char) (escaped : Bool) (line column : Nat)
    (cs : List Char) : Option (List Char × Place) :=
  let joined := (if escaped then breaks else fold blanks breaks) ++ acc
  match cs with
  | [] => none
  | '\\' :: 'x' :: a :: b :: cs => do
    doubleFrom ((← charOfHex? [a, b]) :: joined) [] [] false line (column + 4) cs
  | '\\' :: 'u' :: a :: b :: c :: d :: cs => do
    doubleFrom ((← charOfHex? [a, b, c, d]) :: joined) [] [] false line (column + 6) cs
  | '\\' :: 'U' :: a :: b :: c :: d :: e :: f :: g :: h :: cs => do
    let x ← charOfHex? [a, b, c, d, e, f, g, h]
    doubleFrom (x :: joined) [] [] false line (column + 10) cs
  | '\\' :: c :: cs =>
    if isBreak c then doubleFrom joined [] [] true (line + 1) 0 cs
    else do doubleFrom ((← shortEscape? c) :: joined) [] [] false line (column + 2) cs
  | c :: cs =>
    if column = 0 && isDocumentMark (c :: cs) then none
    else if isBreak c then doubleFrom acc [] (c :: breaks) escaped (line + 1) 0 cs
    else if isBlank c then
      let blanks := if breaks.isEmpty then c :: blanks else []
      doubleFrom acc blanks breaks escaped line (column + 1) cs
    else if c = '"' then some (joined, ⟨cs, line, column + 1⟩)
    else doubleFrom (c :: joined) [] [] false line (column + 1) cs

/-- A scalar in quotes, at its opening quote. -/
def quoted? (double : Bool) (p : Place) : Option (String × Place) := do
  let start := p.next
  let (acc, next) ←
    if double then doubleFrom [] [] [] false start.line start.column start.rest
    else singleFrom [] [] [] start.line start.column start.rest
  return (String.ofList acc.reverse, next)

/-! ## Block scalars -/

/-- How a block scalar ends: with one line break, with none, or with all that are written. -/
inductive Chomping where
  | clip
  | strip
  | keep
  deriving DecidableEq, Repr

/-- How a block scalar ends, if it says so, and the place behind that. -/
def chompingAt (p : Place) : Option Chomping × Place :=
  match p.rest.head? with
  | some '+' => (some .keep, p.next)
  | some '-' => (some .strip, p.next)
  | _ => (none, p)

/-- How far a block scalar is indented, if it says so, and the place behind that. -/
def indentAt (p : Place) : Option Nat × Place :=
  match p.rest.head? with
  | some c => if '1' ≤ c ∧ c ≤ '9' then (some (c.toNat - '0'.toNat), p.next) else (none, p)
  | none => (none, p)

/-- The indicators behind `|` or `>`, in any order, and the start of the lines below them. -/
def blockHeader? (p : Place) : Option (Chomping × Option Nat × Place) := do
  let (early, p) := chompingAt p
  let (indent, p) := indentAt p
  let (late, p) := if early.isSome then (none, p) else chompingAt p
  return ((early <|> late).getD .clip, indent, ← p.nextLine?)

/-- The indentation of a block scalar that does not give it: that of its first line with a text, or
of an empty line before it that is longer. Tabs do not indent. -/
def foundIndent? (widest column : Nat) : List Char → Option Nat
  | [] => some (widest.max column)
  | c :: cs =>
    if c = ' ' then foundIndent? widest (column + 1) cs
    else if c = '\t' then none
    else if isBreak c then foundIndent? (widest.max column) 0 cs
    else some (widest.max column)

/-- A line of a block scalar: its text without the indentation, the break that ends it, and those of
the empty lines below it. Breaks that stand above all text belong to a line without text. -/
structure BlockLine where
  text : List Char := []
  ending : List Char := []
  below : List Char := []
  deriving Repr

/-- Scans the lines of a block scalar up to a text that does not start in the column `indent`. Text
and breaks of the current line are last one first. -/
def blockLines? (indent : Nat) (inText : Bool) (current : BlockLine) (line column : Nat) :
    List Char → Option (List BlockLine × Place)
  | [] => some ([current], ⟨[], line, column⟩)
  | c :: cs =>
    if isBreak c then
      let current :=
        if inText then { current with ending := [c] }
        else { current with below := c :: current.below }
      blockLines? indent false current (line + 1) 0 cs
    else if inText then
      blockLines? indent true { current with text := c :: current.text } line (column + 1) cs
    else if column < indent && isBlank c then
      if c = ' ' then blockLines? indent false current line (column + 1) cs else none
    else if column = indent then do
      let (lines, next) ← blockLines? indent true { text := [c] } line (column + 1) cs
      return (current :: lines, next)
    else some ([current], ⟨c :: cs, line, column⟩)

/-- A line whose text begins with a blank, which is not folded. -/
def BlockLine.isDeeper (l : BlockLine) : Bool := l.text.getLast?.any isBlank

/-- The breaks between a line and the next one, last one first. -/
def BlockLine.gap (folded : Bool) (l next : BlockLine) : List Char :=
  if folded && l.ending = ['\n'] && !l.isDeeper && !next.isDeeper then
    if l.below.isEmpty then [' '] else l.below
  else l.below ++ l.ending

/-- The breaks that are left behind the last line, last one first. -/
def BlockLine.tail (chomping : Chomping) (l : BlockLine) : List Char :=
  match chomping with
  | .strip => []
  | .clip => l.ending
  | .keep => l.below ++ l.ending

/-- The text of a block scalar. -/
def blockText (folded : Bool) (chomping : Chomping) : List BlockLine → List Char
  | [] => []
  | [l] => (l.tail chomping ++ l.text).reverse
  | l :: next :: lines =>
    (l.gap folded next ++ l.text).reverse ++ blockText folded chomping (next :: lines)

/-- A block scalar, at its `|` or `>`, in a collection whose entries reach the column `inner` at
least. -/
def blockScalar? (folded : Bool) (inner : Nat) (p : Place) : Option (String × Place) := do
  let (chomping, given, p) ← blockHeader? p.next
  let indent ← match given with
    | some n => some (inner - 1 + n)
    | none => (foundIndent? 0 p.column p.rest).map fun n => (n.max inner).max 1
  let (lines, next) ← blockLines? indent false {} p.line p.column p.rest
  return (String.ofList (blockText folded chomping lines), next)

end EntityQuery.Yaml
