import MemoryBank.Failure

/-!
# Size classes

Sizes are divided into finitely many classes. Class 0 ends at twice the base, each class after it
is as wide as all those before together, and the last one holds everything larger.

`classOf_lt` says that the class of a size is one of the classes.
-/

namespace MemoryBank

/-- A division of sizes into classes. -/
structure SizeClasses where
  /-- The unit of the division. -/
  base : Nat
  /-- The number of classes. -/
  count : Nat
  base_pos : 0 < base
  count_pos : 0 < count
  count_lt : count < 64
  deriving DecidableEq

namespace SizeClasses

/-- The division with this base and number of classes, if there is one. -/
def ofCount (base count : Nat) : Except Failure SizeClasses :=
  if hb : 0 < base then
    if hc : 0 < count ∧ count < 64 then .ok ⟨base, count, hb, hc.1, hc.2⟩
    else .error (.breach (.classCount count))
  else .error (.breach .zeroClassBase)

/-- Twelve classes, the first of which ends at two kibibytes. -/
def standard : SizeClasses := ⟨1024, 12, by decide, by decide, by decide⟩

instance : Inhabited SizeClasses := ⟨standard⟩

/-- The class of a size: the logarithm of the number of whole bases in it, rounded down and capped
at the last class. -/
def classOf (c : SizeClasses) (size : Nat) : Nat := min (size / c.base).log2 (c.count - 1)

theorem classOf_lt (c : SizeClasses) (size : Nat) : c.classOf size < c.count := by
  have := c.count_pos
  unfold classOf
  omega

end SizeClasses

end MemoryBank
