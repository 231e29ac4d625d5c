/-!
# Latches

A latch guards a value that several parties share. Whoever acquires it has the value alone until
the latch is released. The library itself shares nothing; a program that shares an allocator keeps
it in a latch.
-/

namespace MemoryBank

/-- A value, and whether someone holds it. -/
structure Latch (α : Type) where
  value : α
  held : Bool := false
  deriving DecidableEq

namespace Latch

variable {α : Type}

/-- Hold the value, if no one does. -/
def tryAcquire (l : Latch α) : Option (Latch α) :=
  if l.held then none else some { l with held := true }

/-- Let go of the value, which may have changed. -/
def release (l : Latch α) (value : α) : Latch α := { l with value, held := false }

end Latch

end MemoryBank
