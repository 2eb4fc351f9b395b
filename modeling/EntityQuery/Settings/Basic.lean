/-!
# Settings of the expansion

How deep navigations may go and which rewrites are made. Settings are valid if the depth lies
between `Settings.minDepth` and `Settings.maxDepth`.
-/

namespace EntityQuery

structure Settings where
  /-- The longest navigation chain, in edges, that one reference may go along. -/
  maxNavigationDepth : Nat := 16
  /-- Collection selectors without outer references become joins. -/
  hoistCollections : Bool := true
  /-- An equality over optional navigations is false when one of their rows is missing. -/
  nullSafeEquality : Bool := true
  deriving DecidableEq, Repr, Inhabited

namespace Settings

def minDepth : Nat := 1

def maxDepth : Nat := 64

def isValid (s : Settings) : Bool :=
  minDepth ≤ s.maxNavigationDepth && s.maxNavigationDepth ≤ maxDepth

/-- What is wrong with settings that are not valid. -/
def rangeMessage : String :=
  s!"max_navigation_depth: Max navigation depth must be between {minDepth} and {maxDepth}"

end Settings

end EntityQuery
