import MemoryBank.Block
import MemoryBank.Geometry

/-!
# Usage

A `Usage` sums up how a bank is used. It is built block by block: `Usage.count` takes one more
block into account.
-/

namespace MemoryBank

/-- How a bank is used. -/
structure Usage where
  /-- Bytes that can be used at present, free or allocated. -/
  allocatable : Nat
  allocated : Nat := 0
  free : Nat := 0
  /-- The size of the largest free block. -/
  largest : Nat := 0
  /-- The callers' addresses of the free blocks of that size. -/
  largestAddresses : List Nat := []
  deriving DecidableEq

namespace Usage

/-- Take a free block into account when the largest is looked for: a larger one drops what was
found so far, an equal one joins it. -/
def countLargest (g : Geometry) (u : Usage) (b : Block) : Except Failure Usage := do
  let u := if u.largest < b.size then { u with largest := b.size, largestAddresses := [] } else u
  if b.size = u.largest then
    return { u with largestAddresses := u.largestAddresses ++ [← g.toAbsolute b.address] }
  return u

/-- Take one more block into account. -/
def count (g : Geometry) (u : Usage) (b : Block) : Except Failure Usage := do
  if b.allocated then return { u with allocated := ← Address.add u.allocated b.size }
  countLargest g { u with free := ← Address.add u.free b.size } b

end Usage

end MemoryBank
