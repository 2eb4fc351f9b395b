/-!
# The shortest decimal that reads back

A binary64 number is decoded into `mantissa * 2 ^ exponent`. All reals that lie between its two
midpoints to the neighbouring numbers round to it; the midpoints themselves do so if and only if
the mantissa is even. `shortest` looks for the coarsest decimal grid that has a point in that
interval, and takes of the two grid points next to the number the nearer one that lies in it. All
arithmetic is exact, on naturals.
-/

namespace EntityQuery

/-- The decimal `coefficient * 10 ^ exponent`. -/
structure Decimal where
  coefficient : Nat
  exponent : Int
  deriving DecidableEq, Repr

namespace Decimal

/-- The parts of a finite binary64 number other than its sign: `mantissa * 2 ^ exponent`. -/
structure Magnitude where
  mantissa : Nat
  exponent : Int
  /-- The next smaller number is only half as far away as the next larger one. -/
  closeBelow : Bool
  deriving DecidableEq, Repr

/-- Which of two equally near decimals is written. -/
inductive Tie where
  | up
  | even
  deriving DecidableEq, Repr

def signBit (x : Float) : Bool := x.toBits >>> 63 == 1

def Magnitude.ofFloat (x : Float) : Magnitude :=
  let bits := x.toBits.toNat
  let hidden : Nat := Nat.pow 2 52
  let fraction := bits % hidden
  let biased : Nat := bits / hidden % Nat.pow 2 11
  if biased = 0 then ⟨fraction, -1074, false⟩
  else ⟨hidden + fraction, (biased : Int) - 1075, fraction == 0 && biased != 1⟩

/-- `n * base ^ e` as a quotient of naturals, for an exponent of either sign. -/
def scaled (n base : Nat) (e : Int) : Nat × Nat :=
  match e with
  | .ofNat k => (n * base.pow k, 1)
  | .negSucc k => (n, base.pow (k + 1))

/-- The exponent of the first decimal digit of a positive quotient. -/
def leadingExponent (num den : Nat) : Int :=
  let shift : Nat := 400
  ((Nat.toDigits 10 (num * Nat.pow 10 shift / den)).length : Int) - 1 - shift

/-- Drops the trailing zeros of the coefficient. -/
def trimZeros : Nat → Decimal → Decimal
  | 0, d => d
  | fuel + 1, d =>
    if d.coefficient ≠ 0 ∧ d.coefficient % 10 = 0 then
      trimZeros fuel ⟨d.coefficient / 10, d.exponent + 1⟩
    else d

/-- The decimal of `count` digits that stands for a magnitude, if one reads back. `num / den` is
the magnitude in quarters of its last place, `low` and `high` are the ends of its interval in the
same unit. -/
def onGrid? (tie : Tie) (m : Magnitude) (count : Nat) : Option Decimal :=
  let quarter := m.exponent - 2
  let value := 4 * m.mantissa
  let low := value - (if m.closeBelow then 1 else 2)
  let high := value + 2
  let (num, den) := scaled value 2 quarter
  let exponent := leadingExponent num den - count + 1
  let (top, bottom) := scaled den 10 exponent
  let unit := top
  let below := num * bottom / unit
  let reads (c : Nat) : Bool :=
    let (a, b) := scaled low 2 quarter
    let (a', b') := scaled high 2 quarter
    let (s, t) := scaled c 10 exponent
    if m.mantissa % 2 = 0 then a * t ≤ s * b && s * b' ≤ a' * t
    else a * t < s * b && s * b' < a' * t
  let remainder := num * bottom % unit
  let upper : Decimal := ⟨below + 1, exponent⟩
  let lower : Decimal := ⟨below, exponent⟩
  match reads below, reads (below + 1) with
  | true, true =>
    if 2 * remainder < unit then some lower
    else if unit < 2 * remainder then some upper
    else match tie with
      | .up => some upper
      | .even => if below % 2 = 0 then some lower else some upper
  | true, false => some lower
  | false, true => some upper
  | false, false => none

/-- The shortest decimal that reads back as the magnitude of `x`. Seventeen digits always do. -/
def shortest (tie : Tie) (x : Float) : Decimal :=
  let m := Magnitude.ofFloat x
  if m.mantissa = 0 then ⟨0, 0⟩
  else
    match (List.range 17).findSome? (fun i => onGrid? tie m (i + 1)) with
    | some d => trimZeros 20 d
    | none => ⟨m.mantissa, 0⟩

end Decimal

end EntityQuery
