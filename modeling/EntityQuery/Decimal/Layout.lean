import EntityQuery.Decimal.Shortest

/-!
# Writing a binary64 number

A `Layout` holds what a format decides about the text of a number: which magnitudes are written
without an exponent, whether a whole number ends in `.0`, how the exponent is signed, and which of
two equally near decimals is taken. The digits themselves come from `shortest`.
-/

namespace EntityQuery.Decimal

structure Layout where
  tie : Tie
  /-- Whole numbers without an exponent end in `.0`. -/
  wholeSuffix : Bool
  /-- Whether a number whose first digit has this exponent is written without an exponent. -/
  isPositional : Int → Bool
  /-- What stands before a positive exponent. -/
  exponentSign : String

/-- Query text: never an exponent, and a whole number looks like an integer. -/
def Layout.query : Layout := ⟨.up, false, fun _ => true, ""⟩

/-- Values in messages: positional from `0.0001` up to below `1e16`, always with a `.0` or an
exponent. -/
def Layout.message : Layout := ⟨.up, true, fun e => -5 < e && e < 16, ""⟩

/-- Values in documents: positional from `0.00001` up to below `1e+16`, exponents signed. -/
def Layout.document : Layout := ⟨.even, true, fun e => -6 < e && e < 16, "+"⟩

/-- `digits` with the point after its first `whole` digits, zeros filled in where needed. -/
def Layout.positional (l : Layout) (digits : List Char) (whole : Int) : List Char :=
  match whole with
  | .negSucc k => "0.".toList ++ List.replicate (k + 1) '0' ++ digits
  | .ofNat 0 => "0.".toList ++ digits
  | .ofNat k =>
    if k < digits.length then digits.take k ++ '.' :: digits.drop k
    else digits ++ List.replicate (k - digits.length) '0' ++
      (if l.wholeSuffix then ".0".toList else [])

/-- `digits` with the point after the first of them, then the exponent of that digit. -/
def Layout.scientific (l : Layout) (digits : List Char) (exponent : Int) : List Char :=
  let fraction := match digits with
    | d :: d' :: rest => d :: '.' :: d' :: rest
    | ds => ds
  let sign := if exponent < 0 then "-" else l.exponentSign
  fraction ++ 'e' :: sign.toList ++ Nat.toDigits 10 exponent.natAbs

/-- The text of a finite number. -/
def Layout.write (l : Layout) (x : Float) : String :=
  let d := shortest l.tie x
  let digits := Nat.toDigits 10 d.coefficient
  let leading := d.exponent + digits.length - 1
  let body :=
    if d.coefficient = 0 then (if l.wholeSuffix then "0.0".toList else ['0'])
    else if l.isPositional leading then l.positional digits (leading + 1)
    else l.scientific digits leading
  String.ofList (if signBit x then '-' :: body else body)

end EntityQuery.Decimal
