import EntityQuery.Catalog.Basic

/-!
# Values

What queries evaluate to. `Value.same` is identity of values, in which an integer and a float are
always different; `Value.equals` is the equality of the query language, which compares numbers by
their value and tuples part by part. `Value.order?` compares scalars of one kind and numbers with
one another; other pairs are not ordered.
-/

namespace EntityQuery

inductive Value where
  | null
  | bool (b : Bool)
  | int (n : Int)
  | float (x : Float)
  | str (s : String)
  | record (fields : List (String × Value))
  | tuple (items : List Value)
  | list (items : List Value)
  deriving Repr, Inhabited

namespace Value

mutual

/-- Identity of values. The two zeros are the same float. -/
def same : Value → Value → Bool
  | null, null => true
  | bool a, bool b => a == b
  | int a, int b => a == b
  | float a, float b => a == b
  | str a, str b => a == b
  | record a, record b => sameFields a b
  | tuple a, tuple b => sameItems a b
  | list a, list b => sameItems a b
  | _, _ => false
termination_by structural v => v

def sameItems : List Value → List Value → Bool
  | [], [] => true
  | a :: as, b :: bs => same a b && sameItems as bs
  | _, _ => false
termination_by structural vs => vs

def sameFields : List (String × Value) → List (String × Value) → Bool
  | [], [] => true
  | (n, a) :: as, (m, b) :: bs => n == m && same a b && sameFields as bs
  | _, _ => false
termination_by structural vs => vs

end

mutual

/-- Equality of the query language. -/
def equals : Value → Value → Bool
  | int a, float b => .ofInt a == b
  | float a, int b => a == .ofInt b
  | tuple a, tuple b => equalItems a b
  | a, b => same a b
termination_by structural v => v

def equalItems : List Value → List Value → Bool
  | [], [] => true
  | a :: as, b :: bs => equals a b && equalItems as bs
  | _, _ => false
termination_by structural vs => vs

end

def isNull : Value → Bool
  | null => true
  | _ => false

def isTrue : Value → Bool
  | bool b => b
  | _ => false

mutual

/-- Null, or a tuple with a null somewhere in it: a key that matches nothing. -/
def hasNull : Value → Bool
  | null => true
  | tuple items => anyNull items
  | _ => false
termination_by structural v => v

def anyNull : List Value → Bool
  | [] => false
  | v :: vs => hasNull v || anyNull vs
termination_by structural vs => vs

end

/-- The first field of that name. -/
def field? (fields : List (String × Value)) (name : String) : Option Value := fields.lookup name

def floatOrder? (a b : Float) : Option Ordering :=
  if a < b then some .lt else if a == b then some .eq else if b < a then some .gt else none

/-- The order of two scalars, if there is one. -/
def order? : Value → Value → Option Ordering
  | int a, int b => some (compare a b)
  | float a, float b => floatOrder? a b
  | int a, float b => floatOrder? (.ofInt a) b
  | float a, int b => floatOrder? a (.ofInt b)
  | str a, str b => some (compare a b)
  | bool a, bool b => some (compare a b)
  | _, _ => none

/-- Whether `a` belongs before `b` when rows are sorted: nulls come first, and pairs without an
order stay as they are. -/
def sortsBefore (a b : Value) : Bool :=
  match a, b with
  | null, null => false
  | null, _ => true
  | _, null => false
  | a, b => order? a b == some .lt

end Value

end EntityQuery
