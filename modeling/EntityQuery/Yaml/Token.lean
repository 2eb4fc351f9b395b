import EntityQuery.Yaml.Basic
import EntityQuery.Yaml.Scalar
import EntityQuery.Yaml.Tag

/-!
# Tokens

A document as a list of tokens, where the start and the end of every collection in block style is a
token too. A block collection starts where a dash, a question mark or a key stands in a column
further in than that of the innermost open one, and ends before a token that stands further out.

Whether a node is a key shows only at the colon behind it, so a node that can be one is kept in mind
together with the place in the list where its token is, and the tokens that make it a key are put
in there. It must end on the line that it begins on and within 1024 characters. Where a block
mapping needs a key, a node that turns out to be none is an error.
-/

namespace EntityQuery.Yaml

inductive Token where
  | directive (d : Directive)
  | documentStart
  | documentEnd
  | listStart
  | mapStart
  | blockEnd
  | openList
  | closeList
  | openMap
  | closeMap
  | dash
  | comma
  | key
  | value
  | alias (name : String)
  | anchor (name : String)
  | tag (handle suffix : String)
  | scalar (style : ScalarStyle) (text : String)
  deriving DecidableEq, Repr

/-- A node that is a key if a colon follows it. -/
structure PendingKey where
  /-- How many tokens stand in front of it. -/
  index : Nat
  line : Nat
  column : Nat
  /-- Whether it must be a key. -/
  required : Bool
  deriving Repr

/-- Whether a node that begins where the pending key does is too long for a key at a place. -/
def PendingKey.isStale (k : PendingKey) (p : Place) : Bool :=
  k.line < p.line || k.column + 1024 < p.column

structure Lexer where
  place : Place
  tokens : Array Token := #[]
  /-- The columns of the open block collections, the innermost one first. -/
  columns : List Nat := []
  /-- The pending key of the innermost flow collection, or of the block around all of them. -/
  pending : Option PendingKey := none
  /-- The pending keys around the open flow collections, the innermost one first. -/
  outer : List (Option PendingKey) := []
  /-- Whether a key may begin here. -/
  keyAllowed : Bool := true
  deriving Repr

namespace Lexer

def inFlow (l : Lexer) : Bool := !l.outer.isEmpty

/-- The least column of what is inside the innermost block collection. -/
def inner (l : Lexer) : Nat := l.columns.head?.elim 0 (· + 1)

/-- Goes on at a place behind a token. -/
def push (l : Lexer) (t : Token) (p : Place) : Lexer :=
  { l with tokens := l.tokens.push t, place := p }

/-! ## Pending keys -/

/-- Forgets the pending key. -/
def dropKey? (l : Lexer) : Option Lexer :=
  if l.pending.any (·.required) then none else some { l with pending := none }

/-- Keeps in mind that the next token may begin a key. -/
def noteKey? (l : Lexer) : Option Lexer := do
  if l.keyAllowed then
    let l ← l.dropKey?
    let required := !l.inFlow && l.columns.head? = some l.place.column
    return { l with pending := some ⟨l.tokens.size, l.place.line, l.place.column, required⟩ }
  else return l

/-- Forgets the pending keys that have become too long. -/
def dropStaleKeys? (l : Lexer) : Option Lexer := do
  let live (key : Option PendingKey) : Option (Option PendingKey) :=
    match key.filter (·.isStale l.place) with
    | none => some key
    | some k => if k.required then none else some none
  return { l with pending := ← live l.pending, outer := ← l.outer.mapM live }

/-! ## Block collections -/

/-- Opens a block collection in a column if that is further in. Its start becomes the token with a
given index. -/
def openBlock (l : Lexer) (start : Token) (column index : Nat) : Lexer :=
  if !l.inFlow && l.inner ≤ column then
    { l with columns := column :: l.columns, tokens := l.tokens.insertIdxIfInBounds index start }
  else l

/-- Closes the innermost block collections whose columns pass a test. -/
def closeBlocks (l : Lexer) (test : Nat → Bool) : Lexer :=
  if l.inFlow then l
  else
    let closed := (l.columns.takeWhile test).length
    { l with
      columns := l.columns.drop closed
      tokens := l.tokens ++ Array.replicate closed Token.blockEnd }

/-! ## Tokens one by one -/

/-- A token that stands outside of all collections. -/
def pushOuter? (l : Lexer) (t : Token) (p : Place) : Option Lexer := do
  let l ← (l.closeBlocks fun _ => true).dropKey?
  return { l.push t p with keyAllowed := false }

def pushOpening? (l : Lexer) (t : Token) : Option Lexer := do
  let l ← l.noteKey?
  let inside := { l with pending := none, outer := l.pending :: l.outer, keyAllowed := true }
  return inside.push t l.place.next

def pushClosing? (l : Lexer) (t : Token) : Option Lexer := do
  let l ← l.dropKey?
  let outside := match l.outer with
    | [] => l
    | key :: outer => { l with pending := key, outer }
  return { outside.push t l.place.next with keyAllowed := false }

def pushComma? (l : Lexer) : Option Lexer := do
  let l ← l.dropKey?
  return { l.push .comma l.place.next with keyAllowed := true }

/-- A dash or a question mark, which in block style opens a collection if need be. -/
def pushMark? (l : Lexer) (start mark : Token) (keyAllowed : Bool) : Option Lexer := do
  if !l.inFlow && !l.keyAllowed then none
  let l ← (l.openBlock start l.place.column l.tokens.size).dropKey?
  return { l.push mark l.place.next with keyAllowed }

/-- The colon in front of a value. A pending key becomes its key; else the key is empty or has its
question mark. -/
def pushValue? (l : Lexer) : Option Lexer :=
  match l.pending with
  | some k =>
    let marked := { l with tokens := l.tokens.insertIdxIfInBounds k.index .key, pending := none }
    let l := marked.openBlock .mapStart k.column k.index
    some { l.push .value l.place.next with keyAllowed := false }
  | none =>
    if l.inFlow then some { l.push .value l.place.next with keyAllowed := false }
    else if l.keyAllowed then
      let l := l.openBlock .mapStart l.place.column l.tokens.size
      some { l.push .value l.place.next with keyAllowed := true }
    else none

/-- A token that a key may begin with and no key may follow at once. -/
def pushNode? (l : Lexer) (scanned : Option (Token × Place)) : Option Lexer := do
  let l ← l.noteKey?
  let (t, p) ← scanned
  return { l.push t p with keyAllowed := false }

def pushPlain? (l : Lexer) : Option Lexer := do
  let l ← l.noteKey?
  let (text, p, keyAllowed) ← plain? l.inFlow l.inner l.place
  return { l.push (.scalar .plain text) p with keyAllowed }

def pushBlockScalar? (l : Lexer) (style : ScalarStyle) : Option Lexer := do
  let l ← l.dropKey?
  let (text, p) ← blockScalar? (style = .folded) l.inner l.place
  return { l.push (.scalar style text) p with keyAllowed := true }

/-- Reads the token that the text begins with. -/
def step? (l : Lexer) : Option Lexer :=
  let p := l.place
  let node {α : Type} (make : α → Token) (scanned : Option (α × Place)) : Option Lexer :=
    l.pushNode? (scanned.map fun (a, p) => (make a, p))
  if p.column = 0 && p.rest.head? = some '%' then do
    let (d, next) ← directive? p
    l.pushOuter? (.directive d) next
  else if p.isAtMarker '-' then l.pushOuter? .documentStart (p.advance 3)
  else if p.isAtMarker '.' then l.pushOuter? .documentEnd (p.advance 3)
  else
    match p.rest with
    | [] => none
    | c :: cs =>
      let isMark := endsWord cs
      if c = '[' then l.pushOpening? .openList
      else if c = '\x7b' then l.pushOpening? .openMap
      else if c = ']' then l.pushClosing? .closeList
      else if c = '\x7d' then l.pushClosing? .closeMap
      else if c = ',' then l.pushComma?
      else if c = '-' && isMark then l.pushMark? .listStart .dash true
      else if c = '?' && (l.inFlow || isMark) then l.pushMark? .mapStart .key !l.inFlow
      else if c = ':' && (l.inFlow || isMark) then l.pushValue?
      else if c = '*' then node .alias (name? p)
      else if c = '&' then node .anchor (name? p)
      else if c = '!' then node (fun (handle, suffix) => .tag handle suffix) (tag? l.inFlow p)
      else if c = '|' && !l.inFlow then l.pushBlockScalar? .literal
      else if c = '>' && !l.inFlow then l.pushBlockScalar? .folded
      else if c = '"' then node (.scalar .quoted) (quoted? true p)
      else if c.toNat = 39 then node (.scalar .quoted) (quoted? false p)
      else if startsPlain l.inFlow p.rest then l.pushPlain?
      else none

/-- Reads all tokens. A step uses up a character, so the length of the text bounds how many there
are. -/
def run (fuel : Nat) (l : Lexer) : Option (Array Token) :=
  match fuel with
  | 0 => none
  | fuel + 1 => do
    let p := l.place
    let (place, keyAllowed) := nextToken l.inFlow l.keyAllowed false p.line p.column p.rest
    let l ← { l with place, keyAllowed }.dropStaleKeys?
    let l := l.closeBlocks (place.column < ·)
    if place.rest.isEmpty then return (← (l.closeBlocks fun _ => true).dropKey?).tokens
    else run fuel (← l.step?)

end Lexer

/-- The tokens of a text that starts at a place. -/
def tokens? (p : Place) : Option (List Token) :=
  (Lexer.run (p.rest.length + 1) { place := p }).map Array.toList

end EntityQuery.Yaml
