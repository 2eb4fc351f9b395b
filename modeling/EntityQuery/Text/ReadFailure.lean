import EntityQuery.Text.Quoted

/-!
# Files that give no text

What may go wrong when a whole file is read as a text.
-/

namespace EntityQuery

/-- Why a file gave no text. -/
inductive ReadFailure where
  | missing
  | directory
  | notText
  deriving DecidableEq, Repr

namespace ReadFailure

def reason : ReadFailure → String
  | missing => "No such file or directory (os error 2)"
  | directory => "Is a directory (os error 21)"
  | notText => "stream did not contain valid UTF-8"

end ReadFailure

/-- The text of a file that holds these bytes. -/
def textOfFile (bytes : List Nat) : Except ReadFailure String :=
  match Text.decode? bytes with
  | some text => .ok text
  | none => .error .notText

end EntityQuery
