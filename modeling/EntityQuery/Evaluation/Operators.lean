import EntityQuery.Evaluation.Error
import EntityQuery.Evaluation.Sorting

/-!
# What operators do

The meaning of each operator on rows. An argument of a call is given by its two uses: as a value,
and as a function that is applied to rows. An operator asks for one of them only when it needs it,
so errors come up in the order in which the operator works.
-/

namespace EntityQuery

/-- The result of an evaluation. -/
abbrev Outcome (α : Type) := Except EvalError α

/-- What an argument of a call means. -/
structure Argument where
  value : Unit → Outcome Value
  apply : List Value → Outcome Value

namespace Argument

/-- The argument as a sequence of rows. -/
def rows (a : Argument) : Outcome (List Value) := do
  match ← a.value () with
  | .list items => return items
  | v => throw (.notASequence v)

/-- The argument as a number of rows. -/
def rowCount (a : Argument) : Outcome Nat := do
  match ← a.value () with
  | .int (.ofNat n) => return n
  | v => throw (.notACount v)

end Argument

/-- The rows that a predicate holds for. -/
def keepRows (predicate : Argument) : List Value → Outcome (List Value)
  | [] => return []
  | row :: rows => do
    let keep := (← predicate.apply [row]).isTrue
    let kept ← keepRows predicate rows
    return if keep then row :: kept else kept

/-- Each row with its image. -/
def mapRows (selector : Argument) : List Value → Outcome (List Value)
  | [] => return []
  | row :: rows => do return (← selector.apply [row]) :: (← mapRows selector rows)

/-- Each row with its key. -/
def keyRows (key : Argument) (rows : List Value) : Outcome (List (Value × Value)) := do
  return (← mapRows key rows).zip rows

/-- The rows whose key equals `key`. A key with a null in it matches nothing. -/
def matchingRows (key : Value) (keyed : List (Value × Value)) : List Value :=
  if key.hasNull then []
  else (keyed.filter fun (k, _) => key.equals k).map (·.2)

/-- One result per pair of a row and a matching inner row. -/
def joinRows (outerKey result : Argument) (inner : List (Value × Value)) :
    List Value → Outcome (List Value)
  | [] => return []
  | row :: rows => do
    let key ← outerKey.apply [row]
    let paired ← (matchingRows key inner).mapM fun m => result.apply [row, m]
    return paired ++ (← joinRows outerKey result inner rows)

/-- One result per row, made of the row and the list of its matching inner rows. -/
def groupRows (outerKey result : Argument) (inner : List (Value × Value)) :
    List Value → Outcome (List Value)
  | [] => return []
  | row :: rows => do
    let key ← outerKey.apply [row]
    let grouped ← result.apply [row, .list (matchingRows key inner)]
    return grouped :: (← groupRows outerKey result inner rows)

/-- The elements that a selector finds for each row, each combined with its row if there is a
result selector. -/
def flattenRows (selector : Argument) (result : Option Argument) :
    List Value → Outcome (List Value)
  | [] => return []
  | row :: rows => do
    let elements ← match ← selector.apply [row] with
      | .list elements => pure elements
      | v => throw (.selectorNotASequence v)
    let combined ← match result with
      | some result => elements.mapM fun element => result.apply [row, element]
      | none => pure elements
    return combined ++ (← flattenRows selector result rows)

/-- The first of each group of equal rows. -/
def distinctRows (rows : List Value) : List Value :=
  rows.foldl (fun seen row => if seen.any (·.equals row) then seen else seen ++ [row]) []

def firstRow : List Value → Outcome Value
  | [] => throw .noElements
  | row :: _ => return row

/-- The result of an operator on its arguments. -/
def evalOperator (op : Operator) (arguments : List Argument) : Outcome Value :=
  match op, arguments with
  | .filter, source :: predicate :: _ => do
    return .list (← keepRows predicate (← source.rows))
  | .select, source :: selector :: _ => do
    return .list (← mapRows selector (← source.rows))
  | .join, outer :: inner :: outerKey :: innerKey :: result :: _ => do
    let outer ← outer.rows
    let inner ← keyRows innerKey (← inner.rows)
    return .list (← joinRows outerKey result inner outer)
  | .groupJoin, outer :: inner :: outerKey :: innerKey :: result :: _ => do
    let outer ← outer.rows
    let inner ← keyRows innerKey (← inner.rows)
    return .list (← groupRows outerKey result inner outer)
  | .selectMany, source :: selector :: rest => do
    return .list (← flattenRows selector rest.head? (← source.rows))
  | .defaultIfEmpty, source :: _ => do
    match ← source.rows with
    | [] => return .list [.null]
    | rows => return .list rows
  | .orderBy, source :: key :: _ => do
    let keyed ← keyRows key (← source.rows)
    return .list ((sortAscending (fun a b => a.1.sortsBefore b.1) keyed).map (·.2))
  | .orderByDescending, source :: key :: _ => do
    let keyed ← keyRows key (← source.rows)
    return .list ((sortDescending (fun a b => a.1.sortsBefore b.1) keyed).map (·.2))
  | .asOrdered, source :: _ | .asTracking, source :: _ => source.value ()
  | .distinct, source :: _ => do return .list (distinctRows (← source.rows))
  | .take, source :: limit :: _ => do
    let rows ← source.rows
    return .list (rows.take (← limit.rowCount))
  | .skip, source :: limit :: _ => do
    let rows ← source.rows
    return .list (rows.drop (← limit.rowCount))
  | .count, source :: _ => do return .int (← source.rows).length
  | .any, source :: _ => do return .bool !(← source.rows).isEmpty
  | .contains, source :: item :: _ => do
    let rows ← source.rows
    let item ← item.value ()
    return .bool (rows.any (·.equals item))
  | .first, source :: _ | .single, source :: _ => do firstRow (← source.rows)
  | .firstOrDefault, source :: _ | .singleOrDefault, source :: _ => do
    return (← source.rows).head?.getD .null
  | .thenBy, _ | .thenByDescending, _ | .ofType, _ | .other _, _ =>
    throw (.unsupportedOperator op)
  | op, _ => throw (.missingArgument op)

end EntityQuery
