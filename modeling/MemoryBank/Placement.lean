/-!
# Placement

Where inside a free block an allocation goes, and which bound its address has to respect.
-/

namespace MemoryBank

/-- The end of a free block from which an allocation is taken. -/
inductive Direction
  /-- From the low end: the bank fills upwards. -/
  | bottomUp
  /-- From the high end: the bank fills downwards. -/
  | topDown
  deriving DecidableEq

/-- The name of a direction in the log. -/
def Direction.name : Direction → String
  | .bottomUp => "BottomUp"
  | .topDown => "TopDown"

/-- The caller's wishes for one allocation. -/
structure Placement where
  direction : Direction := .bottomUp
  /-- When set, an address that is not below it is a misuse. -/
  limit : Option Nat := none
  deriving DecidableEq

/-- Require an address below `limit`; zero removes the requirement. -/
def Placement.below (p : Placement) (limit : Nat) : Placement :=
  { p with limit := if limit = 0 then none else some limit }

end MemoryBank
