import EntityQuery.Json.Reader

/-!
# YAML documents

The nodes of a document, and what plain scalars mean. A plain scalar is null, a boolean, a number or
a text; any other scalar is a text unless a tag says what it is. Readers of documents ask for the
kind they need: a text may be written as any scalar, and where a list or a mapping is asked for,
nothing at all stands for an empty one. A tag changes the kind of a node only where its reader
leaves the kind open.
-/

namespace EntityQuery

/-- How a scalar is written: as it is, between quotes, or as a block that keeps its lines or folds
them. -/
inductive ScalarStyle where
  | plain
  | quoted
  | literal
  | folded
  deriving DecidableEq, Repr, Inhabited

inductive Yaml where
  | scalar (style : ScalarStyle) (text : String)
  | seq (items : List Yaml)
  | map (entries : List (Yaml × Yaml))
  | tagged (tag : String) (node : Yaml)
  deriving Repr, Inhabited

namespace Yaml

/-- What stands where nothing is written. -/
def empty : Yaml := .scalar .plain ""

def isNullText (s : String) : Bool := ["", "~", "null", "Null", "NULL"].contains s

def boolOfText? (s : String) : Option Bool :=
  if ["true", "True", "TRUE"].contains s then some true
  else if ["false", "False", "FALSE"].contains s then some false
  else none

/-- The number that digits of a base up to sixteen stand for; there must be at least one. -/
def digits? (base : Nat) (cs : List Char) : Option Nat :=
  if cs.isEmpty then none
  else
    cs.foldlM (fun n c => do
      let d ← Json.hexValue? c
      if d < base then some (base * n + d) else none) 0

/-- Digits with a zero in front are no number, but a zero alone is one. -/
def hasExtraZero : List Char → Bool
  | '0' :: cs => !cs.isEmpty && cs.all Char.isDigit
  | _ => false

/-- An integer without a sign, in one of the four bases. -/
def magnitude? : List Char → Option Nat
  | '0' :: 'x' :: cs => digits? 16 cs
  | '0' :: 'o' :: cs => digits? 8 cs
  | '0' :: 'b' :: cs => digits? 2 cs
  | cs => if hasExtraZero cs then none else digits? 10 cs

/-- A natural number below `2 ^ 64`, possibly with a plus sign. -/
def natOfText? (s : String) : Option Nat := do
  let cs := match s.toList with
    | '+' :: cs => cs
    | cs => cs
  let n ← magnitude? cs
  if n < UInt64.size then some n else none

/-- Decimal digits around at most one point, with at least one digit among them: the digits and how
many of them stand behind the point. -/
def decimalDigits? (cs : List Char) : Option (List Char × Nat) :=
  let (whole, rest) := cs.span Char.isDigit
  let fraction? : Option (List Char) := match rest with
    | [] => some []
    | '.' :: fraction => if fraction.all Char.isDigit then some fraction else none
    | _ => none
  fraction?.bind fun fraction =>
    if (whole ++ fraction).isEmpty then none else some (whole ++ fraction, fraction.length)

/-- Whether a text without a sign writes a finite number in decimal notation. -/
def isDecimal (cs : List Char) : Bool :=
  let (coefficient, tail) := cs.span fun c => c ≠ 'e' && c ≠ 'E'
  match decimalDigits? coefficient, tail with
  | none, _ => false
  | some (digits, places), [] =>
    !(Json.floatOf false (Json.decimalNumber digits) (-(places : Int))).isInf
  | some (digits, places), _ :: exponent =>
    let (negative, exponent) := match exponent with
      | '-' :: cs => (true, cs)
      | '+' :: cs => (false, cs)
      | cs => (false, cs)
    match digits? 10 exponent with
    | none => false
    | some n =>
      let e : Int := if negative then -n else n
      !(Json.floatOf false (Json.decimalNumber digits) (e - places)).isInf

/-- Whether a text with any sign writes a number. -/
def isNumberText (s : String) : Bool :=
  let (signed, negative, cs) := match s.toList with
    | '+' :: cs => (true, false, cs)
    | '-' :: cs => (true, true, cs)
    | cs => (false, false, cs)
  let special := String.ofList cs
  (magnitude? cs).any (fun n => if negative then n ≤ Nat.pow 2 127 else n < Nat.pow 2 128) ||
    (!hasExtraZero cs && isDecimal cs) || [".inf", ".Inf", ".INF"].contains special ||
    (!signed && !negative && [".nan", ".NaN", ".NAN"].contains special)

def coreTag (name : String) : String := "tag:yaml.org,2002:" ++ name

/-- A tag that a document makes up for itself. -/
def isLocalTag (tag : String) : Bool := tag.startsWith "!"

def untagged : Yaml → Yaml
  | .tagged _ y => y
  | y => y

/-- Any scalar, as it is written. -/
def text? (y : Yaml) : Option String :=
  match y.untagged with
  | .scalar _ s => some s
  | _ => none

/-- A scalar that is a text and nothing else. -/
def pureText? : Yaml → Option String
  | .scalar .plain s =>
    if isNullText s || (boolOfText? s).isSome || isNumberText s then none else some s
  | .scalar _ s => some s
  | .tagged tag y =>
    if isLocalTag tag || (["null", "bool", "int", "float"].map coreTag).contains tag then none
    else y.text?
  | _ => none

/-- A list without a tag of its own, or with one that all lists have. -/
def pureItems? : Yaml → Option (List Yaml)
  | .seq items => some items
  | .tagged tag (.seq items) => if isLocalTag tag then none else some items
  | _ => none

/-- The text of a scalar that is not written as a text: a plain scalar, or a literal one with the
tag of the kind. -/
def valueText? (kind : String) : Yaml → Option String
  | .scalar .plain s => some s
  | .tagged _ (.scalar .plain s) => some s
  | .tagged tag (.scalar .literal s) => if tag = coreTag kind then some s else none
  | _ => none

def bool? (y : Yaml) : Option Bool := y.valueText? "bool" >>= boolOfText?

def nat? (y : Yaml) : Option Nat := y.valueText? "int" >>= natOfText?

/-- Whether a node is null. With the tag of null it has to say so. -/
def isNull : Yaml → Bool
  | .scalar .plain s => isNullText s
  | .tagged tag (.scalar .plain s) => tag = coreTag "null" && s ≠ "" && isNullText s
  | _ => false

def items? (y : Yaml) : Option (List Yaml) :=
  match y.untagged with
  | .seq items => some items
  | .scalar .plain "" => some []
  | _ => none

def listOf? {α : Type} (read : Yaml → Option α) (y : Yaml) : Option (List α) :=
  y.items? >>= (·.mapM read)

/-- The members of a mapping whose keys are scalars. -/
def members? (y : Yaml) : Option (List (String × Yaml)) :=
  match y.untagged with
  | .map entries => entries.mapM fun (key, value) => key.text?.map (·, value)
  | .scalar .plain "" => some []
  | _ => none

/-- The value of a member; none if it is missing, and an error if it is there twice. -/
def member? (members : List (String × Yaml)) (name : String) : Option (Option Yaml) :=
  match members.filter (·.1 == name) with
  | [] => some none
  | [(_, value)] => some (some value)
  | _ => none

/-- A member that must be there. -/
def required? {α : Type} (members : List (String × Yaml)) (name : String)
    (read : Yaml → Option α) : Option α := do
  read (← ← member? members name)

/-- A member with a default. -/
def withDefault? {α : Type} (members : List (String × Yaml)) (name : String)
    (read : Yaml → Option α) (default : α) : Option α := do
  match ← member? members name with
  | none => some default
  | some value => read value

/-- A member that can be null or missing. -/
def optional? {α : Type} (members : List (String × Yaml)) (name : String)
    (read : Yaml → Option α) : Option (Option α) := do
  match ← member? members name with
  | none => some none
  | some value => if value.isNull then some none else (read value).map some

end Yaml

end EntityQuery
