import EntityQuery.Evaluation.Value
import Mathlib.Order.Defs.LinearOrder

/-!
# Equality of values

Equality of the query language is symmetric, on floats as well.
-/

namespace EntityQuery

open Float.Model in
theorem compare_unpacked_swap (a b : UnpackedFloat) :
    b.compare a = (a.compare b).map Ordering.swap := by
  have parts (m n : Nat) (d e : Int) :
      (compare e d).then (compare n m) = ((compare d e).then (compare m n)).swap := by
    rw [Ordering.swap_then, ← Std.OrientedCmp.eq_swap, ← Std.OrientedCmp.eq_swap]
  rcases a with s | _ | s | ⟨s, m, d, _⟩ <;> rcases b with t | _ | t | ⟨t, n, e, _⟩
  all_goals first
    | rfl
    | cases s <;> rfl
    | cases t <;> rfl
    | (cases s <;> cases t <;> rfl)
    | skip
  cases s <;> cases t
  · exact congrArg (fun o : Ordering => some o.swap) (parts m n d e)
  · rfl
  · rfl
  · exact congrArg some (parts m n d e)

theorem float_beq_comm (a b : Float) : (a == b) = (b == a) := by
  change (a.toModel.unpack.compare b.toModel.unpack == some .eq) =
    (b.toModel.unpack.compare a.toModel.unpack == some .eq)
  rw [compare_unpacked_swap a.toModel.unpack]
  cases a.toModel.unpack.compare b.toModel.unpack with
  | none => rfl
  | some o => cases o <;> rfl

namespace Value

mutual

theorem same_comm (a b : Value) : a.same b = b.same a := by
  cases a with
  | null => cases b <;> rfl
  | bool x => cases b with
    | bool y => exact Bool.beq_comm
    | _ => rfl
  | int x => cases b with
    | int y => exact BEq.comm
    | _ => rfl
  | float x => cases b with
    | float y => exact float_beq_comm x y
    | _ => rfl
  | str x => cases b with
    | str y => exact BEq.comm
    | _ => rfl
  | record xs => cases b with
    | record ys => exact sameFields_comm xs ys
    | _ => rfl
  | tuple xs => cases b with
    | tuple ys => exact sameItems_comm xs ys
    | _ => rfl
  | list xs => cases b with
    | list ys => exact sameItems_comm xs ys
    | _ => rfl

theorem sameItems_comm (as bs : List Value) : sameItems as bs = sameItems bs as := by
  cases as with
  | nil => cases bs <;> rfl
  | cons a as =>
    cases bs with
    | nil => rfl
    | cons b bs => simp only [sameItems, same_comm a b, sameItems_comm as bs]

theorem sameFields_comm (as bs : List (String × Value)) : sameFields as bs = sameFields bs as := by
  cases as with
  | nil => cases bs <;> rfl
  | cons a as =>
    obtain ⟨n, a⟩ := a
    cases bs with
    | nil => rfl
    | cons b bs =>
      obtain ⟨m, b⟩ := b
      simp only [sameFields, same_comm a b, sameFields_comm as bs, BEq.comm (a := n)]

end

mutual

theorem equals_comm (a b : Value) : a.equals b = b.equals a := by
  cases a with
  | int x => cases b with
    | float y => exact float_beq_comm _ y
    | _ => exact same_comm _ _
  | float x => cases b with
    | int y => exact float_beq_comm x _
    | _ => exact same_comm _ _
  | tuple xs => cases b with
    | tuple ys => exact equalItems_comm xs ys
    | _ => exact same_comm _ _
  | _ => cases b <;> exact same_comm _ _

theorem equalItems_comm (as bs : List Value) : equalItems as bs = equalItems bs as := by
  cases as with
  | nil => cases bs <;> rfl
  | cons a as =>
    cases bs with
    | nil => rfl
    | cons b bs => simp only [equalItems, equals_comm a b, equalItems_comm as bs]

end

/-- Only null equals null. -/
theorem equals_null (v : Value) : v.equals .null = v.isNull := by
  cases v <;> rfl

end Value

end EntityQuery
