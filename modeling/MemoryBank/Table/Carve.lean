import MemoryBank.Table.Links
import MemoryBank.Traced

/-!
# Carving an allocation out of a free block

`Table.carve` allocates a range inside a free block. The block keeps its handle and shrinks to
the range; what is left over on either side becomes a free block of its own.
-/

namespace MemoryBank.Table

/-- Split `amount` bytes off the front of a block. They become a free block before it, unless
there are none. -/
def splitFront (t : Table) (i : Handle) (amount : Nat) :
    Except Failure (Option Handle × Table) := do
  if amount = 0 then return (none, t)
  let (k, t) ← t.linkBefore i (← t.address i) amount false
  let address ← Address.add (← t.address i) amount
  let t ← t.update i fun s => { s with address }
  let size ← Address.sub (← t.size i) amount
  let t ← t.update i fun s => { s with size }
  return (some k, t)

/-- Split off all but the first `size` bytes of a block. They become a free block after it,
unless there are none. -/
def splitBack (t : Table) (i : Handle) (size : Nat) :
    Except Failure (Option Handle × Table) := do
  let rest ← Address.sub (← t.size i) size
  if rest = 0 then return (none, t)
  let (k, t) ← t.linkAfter i (← Address.add (← t.address i) size) rest false
  let t ← t.update i fun s => { s with size }
  return (some k, t)

/-- Allocate the `size` bytes from `offset` on of a free block. -/
def carve (t : Table) (i : Handle) (offset size : Nat) : Traced (Carving × Table) := do
  let whole ← t.slot i
  let last ← Address.add offset size
  ensure (last ≤ whole.size) (.carveTooLarge offset size whole.size)
  ensure (whole.allocated = false) .carveOfAllocated
  let (left, t) ← t.splitFront i offset
  let (right, t) ← t.splitBack i size
  let t ← t.setAllocated i true
  let carving : Carving := ⟨left, right⟩
  Traced.note (.carved (← t.address i) size i carving)
  return (carving, t)

end MemoryBank.Table
