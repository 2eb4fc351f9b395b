import EntityQuery.Yaml.Tree

/-!
# Reading YAML

The value of a document. Names are replaced by the nodes that they stand for. A node may use its own
name, so that there is no end to this; it is done to a fixed depth, and no reader of this library
looks through that many names in a row.
-/

namespace EntityQuery.Yaml

namespace Tree

mutual

/-- The nodes that have numbers, in the order in which they begin. -/
def numbered : Tree → List (Nat × Tree)
  | .named n t => (n, t) :: t.numbered
  | .tagged _ t => t.numbered
  | .seq items => numberedItems items
  | .map entries => numberedEntries entries
  | .scalar _ _ => []
  | .alias _ => []

def numberedItems : List Tree → List (Nat × Tree)
  | [] => []
  | t :: ts => t.numbered ++ numberedItems ts

def numberedEntries : List (Tree × Tree) → List (Nat × Tree)
  | [] => []
  | (key, value) :: entries => key.numbered ++ value.numbered ++ numberedEntries entries

end

mutual

/-- The value of a node, given those that its names stand for. -/
def value (named : Nat → Yaml) : Tree → Yaml
  | .scalar style text => .scalar style text
  | .seq items => .seq (itemValues named items)
  | .map entries => .map (entryValues named entries)
  | .tagged tag t => .tagged tag (t.value named)
  | .named _ t => t.value named
  | .alias n => named n

def itemValues (named : Nat → Yaml) : List Tree → List Yaml
  | [] => []
  | t :: ts => t.value named :: itemValues named ts

def entryValues (named : Nat → Yaml) : List (Tree × Tree) → List (Yaml × Yaml)
  | [] => []
  | (key, value) :: entries =>
    (Tree.value named key, Tree.value named value) :: entryValues named entries

end

/-- What numbers stand for, where names are replaced so many times in a row. Of two nodes with the
same number the later one is found first. -/
def targets (nodes : List (Nat × Tree)) : Nat → List (Nat × Yaml)
  | 0 => []
  | depth + 1 =>
    let inner := targets nodes depth
    nodes.reverse.map fun (n, t) => (n, t.value fun m => (inner.lookup m).getD Yaml.empty)

/-- How many names are replaced in a row. -/
def depth : Nat := 8

/-- The value of a document's root. -/
def rootValue (root : Tree) : Yaml :=
  let named := targets root.numbered depth
  root.value fun n => (named.lookup n).getD Yaml.empty

end Tree

/-- Whether a character may stand in a document. -/
def isAllowed (c : Char) : Bool :=
  let n := c.toNat
  n = 9 || n = 10 || n = 13 || (0x20 ≤ n && n ≤ 0x7e) || n = 0x85 ||
    (0xA0 ≤ n && n ≠ 0xFFFE && n ≠ 0xFFFF)

/-- Writes line breaks as line feeds, except for line and paragraph separators. -/
def normalize : List Char → List Char
  | '\r' :: '\n' :: cs => '\n' :: normalize cs
  | '\r' :: cs => '\n' :: normalize cs
  | c :: cs => (if c.toNat = 0x85 then '\n' else c) :: normalize cs
  | [] => []

/-- Where a document starts: behind a byte order mark, which takes a column. -/
def start (cs : List Char) : Place :=
  if cs.head? = some (Char.ofNat 0xFEFF) then ⟨cs.tail, 0, 1⟩ else ⟨cs, 0, 0⟩

/-- The document of a text. -/
def ofText? (text : String) : Option Yaml := do
  let cs := text.toList
  if !cs.all isAllowed then none
  let tokens ← tokens? (start (normalize cs))
  return (← Tree.ofTokens? tokens).rootValue

end EntityQuery.Yaml
