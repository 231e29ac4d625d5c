/-!
# Strategies

How an allocator chooses among the free blocks that are large enough.
-/

namespace MemoryBank

/-- How a walk over the free blocks chooses. -/
inductive Policy
  /-- The lowest block that fits. -/
  | first
  /-- The smallest block that fits, the lowest of those on a tie. -/
  | best
  deriving DecidableEq

/-- The name of a policy in reports. -/
def Policy.name : Policy → String
  | .first => "First"
  | .best => "Best"

/-- The allocators that can be built by name. -/
inductive Strategy
  /-- A walk that takes the lowest block that fits. -/
  | firstFit
  /-- A walk that takes the smallest block that fits. -/
  | bestFit
  /-- A search of the free blocks by size class. -/
  | segregated
  deriving DecidableEq

/-- The name of a strategy in the log. -/
def Strategy.name : Strategy → String
  | .firstFit => "FirstFit"
  | .bestFit => "BestFit"
  | .segregated => "Segregated"

end MemoryBank
