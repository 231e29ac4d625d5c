import MemoryBank.Table.Links
import MemoryBank.Traced

/-!
# Merging free blocks

* `Table.mergeNext` lets a block absorb the one after it.
* `Table.coalesce` frees a block and merges it with the free blocks beside it. It reports which
  blocks were absorbed, and under which sizes they were known until then.
-/

namespace MemoryBank

/-- What freeing a block led to. -/
structure Merging where
  /-- The block that now covers the freed bytes. -/
  merged : Handle
  /-- The free neighbours, each with its size before any merge, the lower one first. -/
  absorbed : List (Handle × Nat)
  deriving DecidableEq

namespace Table

/-- The block after a block that must not be the last. -/
def follower (t : Table) (i : Handle) : Except Failure Handle := do
  match ← t.next i with
  | some n => return n
  | none => .error (.breach .mergeOfLast)

/-- Let a block absorb the block after it, which must start where it ends. The answer is the
retired handle. -/
def mergeNext (t : Table) (i : Handle) : Traced (Handle × Table) := do
  let n ← t.follower i
  ensure ((← t.stop i) = (← t.address n)) .mergeApart
  let size ← Address.add (← t.size i) (← t.size n)
  let t ← t.update i fun s => { s with size }
  let t ← t.retire n
  Traced.note (.merged n i (← t.address i) (← t.size i))
  return (n, t)

/-- The handle, with the size of its block, if there is a block and it is free. -/
def freeNeighbour (t : Table) : Option Handle → Except Failure (Option (Handle × Nat))
  | none => .ok none
  | some n => do
    if ← t.isAllocated n then return none
    return some (n, ← t.size n)

/-- Merge a block into the one before it, if that is free. -/
def mergeDown (t : Table) (i : Handle) : Traced (Merging × Table) := do
  match ← t.freeNeighbour (← t.prev i) with
  | none => return (⟨i, []⟩, t)
  | some (p, size) =>
    let (_, t) ← t.mergeNext p
    return (⟨p, [(p, size)]⟩, t)

/-- Let a block absorb the one after it, if that is free. -/
def mergeUp (t : Table) (i : Handle) : Traced (List (Handle × Nat) × Table) := do
  match ← t.freeNeighbour (← t.next i) with
  | none => return ([], t)
  | some (n, size) =>
    let (_, t) ← t.mergeNext i
    return ([(n, size)], t)

/-- Free a block and merge it with its free neighbours. -/
def coalesce (t : Table) (i : Handle) : Traced (Merging × Table) := do
  let t ← t.setAllocated i false
  let (down, t) ← t.mergeDown i
  let (up, t) ← t.mergeUp down.merged
  return (⟨down.merged, down.absorbed ++ up⟩, t)

end Table

end MemoryBank
