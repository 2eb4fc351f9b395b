/-!
# JSON values

Integers and floating numbers are kept apart, because `1` and `1.0` are different constants of a
query, and the members of an object keep their order.
-/

namespace EntityQuery

inductive Json where
  | null
  | bool (value : Bool)
  | int (value : Int)
  | float (value : Float)
  | str (value : String)
  | arr (items : List Json)
  | obj (members : List (String × Json))
  deriving Repr, Inhabited

namespace Json

mutual

/-- How many values are nested in one another, the outermost one counted. -/
def depth : Json → Nat
  | .arr items => itemsDepth items + 1
  | .obj members => membersDepth members + 1
  | _ => 1
termination_by structural j => j

def itemsDepth : List Json → Nat
  | [] => 0
  | j :: js => max j.depth (itemsDepth js)
termination_by structural js => js

def membersDepth : List (String × Json) → Nat
  | [] => 0
  | (_, j) :: js => max j.depth (membersDepth js)
termination_by structural js => js

end

/-- The member of an object, if there is exactly this one object to look in. -/
def member? (j : Json) (name : String) : Option Json :=
  match j with
  | .obj members => members.lookup name
  | _ => none

def str? : Json → Option String
  | .str s => some s
  | _ => none

def int? : Json → Option Int
  | .int n => some n
  | _ => none

def nat? : Json → Option Nat
  | .int (.ofNat n) => some n
  | _ => none

def bool? : Json → Option Bool
  | .bool b => some b
  | _ => none

/-- A number as a float; integers are converted. -/
def float? : Json → Option Float
  | .float x => some x
  | .int n => some (.ofInt n)
  | _ => none

def items? : Json → Option (List Json)
  | .arr items => some items
  | _ => none

def strings? (j : Json) : Option (List String) := j.items? >>= (·.mapM str?)

/-- The member as `read` understands it; none if it is missing. -/
def get? {α : Type} (j : Json) (name : String) (read : Json → Option α) : Option α :=
  j.member? name >>= read

/-- The member as `read` understands it, with a default for a missing one. -/
def getD {α : Type} (j : Json) (name : String) (read : Json → Option α) (default : α) :
    Option α :=
  match j.member? name with
  | none => some default
  | some v => read v

/-- A member that may be null or missing. -/
def optional? {α : Type} (j : Json) (name : String) (read : Json → Option α) :
    Option (Option α) :=
  match j.member? name with
  | none | some .null => some none
  | some v => (read v).map some

def strings (l : List String) : Json := .arr (l.map .str)

def ofOption {α : Type} (write : α → Json) : Option α → Json
  | none => .null
  | some a => write a

def nat (n : Nat) : Json := .int n

/-- A number; there is none for the infinities and for what is not a number. -/
def ofFloat (x : Float) : Json := if x.isFinite then .float x else .null

end Json

end EntityQuery
