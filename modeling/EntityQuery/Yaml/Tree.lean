import EntityQuery.Yaml.Token

/-!
# Trees of nodes

The nodes of a document as its tokens group them. A named node can be used again behind it, and a
name can be given again to another node. Names become numbers here: each time that a name is given,
its number is the count of the names so far. A name that is given twice may thus share its number
with a later name, and a number stands for the last node that has it.

The readers take a bound on nested calls. Of four calls in a row at least one uses up a token, so
four times the number of tokens is enough.
-/

namespace EntityQuery.Yaml

inductive Tree where
  | scalar (style : ScalarStyle) (text : String)
  | seq (items : List Tree)
  | map (entries : List (Tree × Tree))
  | tagged (tag : String) (node : Tree)
  | named (number : Nat) (node : Tree)
  | alias (number : Nat)
  deriving Repr, Inhabited

/-- What stands where nothing is written. -/
def Tree.empty : Tree := .scalar .plain ""

/-- What is left to read, the numbers of the names so far, and what handles of tags stand for. -/
structure Source where
  tokens : List Token
  names : List (String × Nat) := []
  handles : List (String × String) := []
  deriving Repr

abbrev Parse := StateT Source Option

namespace Parse

def peek : Parse (Option Token) := do return (← get).tokens.head?

def skip : Parse Unit := modify fun s => { s with tokens := s.tokens.tail }

/-- Skips a token that must be there. -/
def expect (t : Token) : Parse Unit := do
  if (← peek) = some t then skip else failure

/-- Gives a name to the next node. -/
def register (name : String) : Parse Nat := do
  let s ← get
  let number := s.names.length
  set { s with names := (name, number) :: s.names.filter (·.1 ≠ name) }
  return number

/-- The number of a name, which a node in front of this place must have. -/
def number (name : String) : Parse Nat := do
  match (← get).names.lookup name with
  | some n => return n
  | none => failure

/-- The tag that a handle and a suffix stand for. -/
def resolveTag (handle suffix : String) : Parse String := do
  if handle.isEmpty then return suffix
  match (← get).handles.lookup handle with
  | some start => return start ++ suffix
  | none => failure

/-! ## Properties -/

/-- What may stand in front of a node: a name for it, as a number, and a tag. -/
structure Properties where
  number : Option Nat := none
  tag : Option String := none
  deriving Repr

/-- Adds the property that stands here, if there is one that the node does not have yet. -/
def addProperty (p : Properties) : Parse Properties := do
  match ← peek, p with
  | some (.anchor name), { number := none, tag } =>
    skip
    return { number := some (← register name), tag }
  | some (.tag handle suffix), { number, tag := none } =>
    skip
    return { number, tag := some (← resolveTag handle suffix) }
  | _, p => return p

/-- The properties of the next node, in any order. -/
def properties : Parse Properties := do addProperty (← addProperty {})

def Properties.attach (p : Properties) (t : Tree) : Tree :=
  let t := p.tag.elim t (.tagged · t)
  p.number.elim t (.named · t)

/-- A scalar with properties; the tag that is nothing but its mark has no meaning there. -/
def Properties.attachScalar (p : Properties) (style : ScalarStyle) (text : String) : Tree :=
  { p with tag := p.tag.filter (· ≠ "!") }.attach (.scalar style text)

/-- A node without content, which must have properties. -/
def Properties.attachEmpty (p : Properties) : Parse Tree :=
  if p.number.isSome || p.tag.isSome then return p.attach .empty else failure

/-! ## Nodes -/

mutual

/-- A node. Block collections stand only inside of blocks (`inBlock`), and dashes in the column of a
block mapping only where an entry of it has its key or value (`inEntry`). -/
def node (fuel : Nat) (inBlock inEntry : Bool) : Parse Tree := do
  match fuel with
  | 0 => failure
  | fuel + 1 =>
    if let some (.alias name) ← peek then
      skip
      return .alias (← number name)
    let p ← properties
    match ← peek with
    | some (.scalar style text) =>
      skip
      return p.attachScalar style text
    | some .openList =>
      skip
      return p.attach (.seq (← flowItems fuel true))
    | some .openMap =>
      skip
      return p.attach (.map (← flowEntries fuel true))
    | some .listStart =>
      if !inBlock then return ← p.attachEmpty
      skip
      return p.attach (.seq (← blockItems fuel))
    | some .mapStart =>
      if !inBlock then return ← p.attachEmpty
      skip
      return p.attach (.map (← blockEntries fuel))
    | some .dash =>
      if !inEntry then return ← p.attachEmpty
      return p.attach (.seq (← dashes fuel))
    | _ => p.attachEmpty

/-- A node, or nothing in front of one of these tokens. -/
def nodeUnless (fuel : Nat) (ends : List Token) (inBlock inEntry : Bool) : Parse Tree := do
  match fuel with
  | 0 => failure
  | fuel + 1 =>
    if (← peek).any ends.contains then return .empty
    node fuel inBlock inEntry

/-- The value of an entry, if it has one. -/
def valueUnless (fuel : Nat) (ends : List Token) (inBlock : Bool) : Parse Tree := do
  match fuel with
  | 0 => failure
  | fuel + 1 =>
    if (← peek) = some .value then
      skip
      nodeUnless fuel ends inBlock inBlock
    else return .empty

/-- The items of a block list. -/
def blockItems (fuel : Nat) : Parse (List Tree) := do
  match fuel with
  | 0 => failure
  | fuel + 1 =>
    match ← peek with
    | some .dash =>
      skip
      let item ← nodeUnless fuel [.dash, .blockEnd] true false
      return item :: (← blockItems fuel)
    | some .blockEnd =>
      skip
      return []
    | _ => failure

/-- The items of a list whose dashes stand below the key of the entry that it is in. -/
def dashes (fuel : Nat) : Parse (List Tree) := do
  match fuel with
  | 0 => failure
  | fuel + 1 =>
    if (← peek) = some .dash then
      skip
      let item ← nodeUnless fuel [.dash, .key, .value, .blockEnd] true false
      return item :: (← dashes fuel)
    else return []

/-- The entries of a block mapping. -/
def blockEntries (fuel : Nat) : Parse (List (Tree × Tree)) := do
  match fuel with
  | 0 => failure
  | fuel + 1 =>
    match ← peek with
    | some .key =>
      skip
      let ends : List Token := [.key, .value, .blockEnd]
      let key ← nodeUnless fuel ends true true
      let value ← valueUnless fuel ends true
      return (key, value) :: (← blockEntries fuel)
    | some .blockEnd =>
      skip
      return []
    | _ => failure

/-- The items of a flow list from the first one or a later one on. A pair is a mapping of its own.
Where nothing stands between its question mark and the next token, that token stands for the
key. -/
def flowItems (fuel : Nat) (first : Bool) : Parse (List Tree) := do
  match fuel with
  | 0 => failure
  | fuel + 1 =>
    if (← peek) = some .closeList then
      skip
      return []
    if !first then expect .comma
    match ← peek with
    | some .key =>
      skip
      let isEmpty := (← peek).any [Token.value, .comma, .closeList].contains
      let key ← if isEmpty then do skip; pure .empty else node fuel false false
      let value ← valueUnless fuel [.comma, .closeList] false
      return .map [(key, value)] :: (← flowItems fuel false)
    | some .closeList =>
      skip
      return []
    | _ =>
      let item ← node fuel false false
      return item :: (← flowItems fuel false)

/-- The entries of a flow mapping from the first one or a later one on. -/
def flowEntries (fuel : Nat) (first : Bool) : Parse (List (Tree × Tree)) := do
  match fuel with
  | 0 => failure
  | fuel + 1 =>
    if (← peek) = some .closeMap then
      skip
      return []
    if !first then expect .comma
    match ← peek with
    | some .key =>
      skip
      let key ← nodeUnless fuel [.value, .comma, .closeMap] false false
      let value ← valueUnless fuel [.comma, .closeMap] false
      return (key, value) :: (← flowEntries fuel false)
    | some .closeMap =>
      skip
      return []
    | _ =>
      let key ← node fuel false false
      return (key, .empty) :: (← flowEntries fuel false)

end

end Parse

/-! ## Documents -/

/-- What handles stand for behind these directives, which may not contradict each other. Two handles
have a meaning of their own. -/
def handlesOf? (directives : List Directive) : Option (List (String × String)) :=
  let given := directives.filterMap fun
    | .version => none
    | .handle name target => some (name, target)
  if directives.count .version ≤ 1 && given.Pairwise (·.1 ≠ ·.1) then
    some (given ++ [("!", "!"), ("!!", coreTag "")])
  else none

def Token.directive? : Token → Option Directive
  | .directive d => some d
  | _ => none

/-- The root of the only document. Directives need a mark of the document's start behind them. No
token at all is an empty document, and behind one there may be any number of marks of its end. -/
def Tree.ofTokens? (tokens : List Token) : Option Tree := do
  let front := tokens.takeWhile (·.directive?.isSome)
  let handles ← handlesOf? (front.filterMap Token.directive?)
  let (isMarked, content) ← match tokens.drop front.length with
    | .documentStart :: content => some (true, content)
    | content => if front.isEmpty then some (false, content) else none
  let isEmpty := content.isEmpty || (isMarked && content.head? = some .documentEnd)
  let (root, last) ←
    if isEmpty then some (.empty, content)
    else do
      let source : Source := { tokens := content, handles }
      let (root, last) ← Parse.node (4 * tokens.length + 8) true false source
      pure (root, last.tokens)
  if last.all (· = .documentEnd) then return root else none

end EntityQuery.Yaml
