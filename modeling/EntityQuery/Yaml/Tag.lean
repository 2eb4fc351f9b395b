import EntityQuery.Json.Reader
import EntityQuery.Yaml.Place

/-!
# Names, tags and directives

What may stand in front of nodes and documents. A node can be named, so that it can be used again,
and tagged. A tag is a handle and a suffix; directives in front of a document choose what handles
stand for. Tags are written like addresses: characters out of place are escaped as the octets of
their encoding.
-/

namespace EntityQuery.Yaml

def isNameChar (c : Char) : Bool := c.isAlphanum || c = '-' || c = '_'

/-- The name behind `&` or `*`. -/
def name? (p : Place) : Option (String × Place) :=
  let (name, next) := p.next.span isNameChar
  let apart := endsWord next.rest || next.rest.head?.any fun c =>
    ['?', ':', ',', ']', '\x7d', '%', '@'].contains c || c.toNat = 96
  if !name.isEmpty && apart then some (String.ofList name, next) else none

/-! ## Tags -/

def isTagChar (c : Char) : Bool :=
  isNameChar c || ";/?:@&=+$.%!~*()".toList.contains c || c.toNat = 39

/-- Between angle brackets and in directives, three more characters may stand in a tag. -/
def isWideTagChar (c : Char) : Bool := isTagChar c || c = ',' || c = '[' || c = ']'

/-- How many octets follow the first octet of an encoded character, and what the first one adds to
its number. -/
def leadingOctet? (n : Nat) : Option (Nat × Nat) :=
  if n < 0x80 then some (0, n)
  else if n < 0xC0 then none
  else if n < 0xE0 then some (1, n - 0xC0)
  else if n < 0xF0 then some (2, n - 0xE0)
  else if n < 0xF8 then some (3, n - 0xF0)
  else none

/-- Puts escaped octets together, where `missing` octets of a character are still to come and
`number` is what the others make. -/
def unescapeFrom (missing number : Nat) : List Char → Option (List Char)
  | '%' :: a :: b :: cs => do
    let octet ← Json.hexNumber? [a, b]
    let (missing, number) ←
      if missing = 0 then leadingOctet? octet
      else if 0x80 ≤ octet && octet < 0xC0 then some (missing - 1, 64 * number + (octet - 0x80))
      else none
    let rest ← unescapeFrom missing number cs
    return if missing = 0 then Char.ofNat number :: rest else rest
  | c :: cs =>
    if missing = 0 && c ≠ '%' then (unescapeFrom 0 0 cs).map (c :: ·) else none
  | [] => if missing = 0 then some [] else none

/-- What the characters of a tag stand for. A character with the number zero ends it. -/
def unescape? (cs : List Char) : Option String :=
  (unescapeFrom 0 0 cs).map fun cs => String.ofList (cs.takeWhile (·.toNat ≠ 0))

/-- The handle and the suffix of a tag. A tag that is written in full has an empty handle, and so
has the tag that is nothing but its mark. -/
def tagParts? (p : Place) : Option ((String × String) × Place) :=
  let (word, next) := p.next.span isNameChar
  if next.rest.head? = some '<' && word.isEmpty then do
    let (cs, last) := next.next.span isWideTagChar
    if cs.isEmpty || last.rest.head? ≠ some '>' then none
    else return (("", ← unescape? cs), last.next)
  else if next.rest.head? = some '!' then do
    let (cs, last) := next.next.span isTagChar
    if cs.isEmpty then none
    else return ((String.ofList ('!' :: word ++ ['!']), ← unescape? cs), last)
  else do
    let (cs, last) := next.span isTagChar
    let suffix ← unescape? (word ++ cs)
    return (if suffix.isEmpty then ("", "!") else ("!", suffix), last)

/-- A tag, which blanks or, in flow style, a comma must follow. -/
def tag? (inFlow : Bool) (p : Place) : Option ((String × String) × Place) := do
  let (tag, next) ← tagParts? p
  if endsWord next.rest || (inFlow && next.rest.head? = some ',') then return (tag, next) else none

/-! ## Directives -/

inductive Directive where
  | version
  | handle (name target : String)
  deriving DecidableEq, Repr

/-- A number of at most nine digits. -/
def shortNumber? (p : Place) : Option (Nat × Place) :=
  let (digits, next) := p.span Char.isDigit
  if digits.isEmpty || 9 < digits.length then none else some (Json.decimalNumber digits, next)

/-- The version of the format, which must be 1.1 or 1.2. -/
def version? (p : Place) : Option (Directive × Place) := do
  let (major, p) ← shortNumber? p
  if p.rest.head? ≠ some '.' then none
  let (minor, p) ← shortNumber? p.next
  if major = 1 && (minor = 1 || minor = 2) then return (.version, p) else none

/-- A handle and what it stands for. -/
def handle? (p : Place) : Option (Directive × Place) := do
  if p.rest.head? ≠ some '!' then none
  let (word, p) := p.next.span isNameChar
  let (mark, p) := if p.rest.head? = some '!' then (['!'], p.next) else ([], p)
  if mark.isEmpty && !word.isEmpty then none
  let (blanks, p) := p.span isBlank
  let (cs, p) := p.span isWideTagChar
  if blanks.isEmpty || cs.isEmpty || !endsWord p.rest then none
  return (.handle (String.ofList ('!' :: word ++ mark)) (← unescape? cs), p)

/-- A directive, which has a line of its own, and the start of the next line. -/
def directive? (p : Place) : Option (Directive × Place) := do
  let (name, next) := p.next.span isNameChar
  let start := (next.span isBlank).2
  let (directive, next) ←
    if !endsWord next.rest then none
    else if name = "YAML".toList then version? start
    else if name = "TAG".toList then handle? start
    else none
  return (directive, ← next.nextLine?)

end EntityQuery.Yaml
