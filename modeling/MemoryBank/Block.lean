import MemoryBank.Address

/-!
# Blocks

A bank is cut into blocks, each free or allocated. A block is known by its handle, the number
of the slot that holds it.

* `Block.stop` is the address after the block.
* `Block.relation` says how two blocks lie to each other.
* `Carving` names the free blocks left over when a part of a block is allocated.
-/

namespace MemoryBank

/-- The number of a slot. -/
abbrev Handle := Nat

/-- One block, as met on a walk through the bank. -/
structure Block where
  index : Handle
  address : Nat
  size : Nat
  allocated : Bool
  deriving DecidableEq

/-- How one block lies to another. -/
inductive Block.Relation
  | before
  | adjacentBefore
  | overlapping
  | adjacentAfter
  | after
  deriving DecidableEq

namespace Block

/-- The address after the block. -/
def stop (b : Block) : Except Failure Nat := Address.add b.address b.size

/-- How `b` lies to `c`. -/
def relation (b c : Block) : Except Failure Relation := do
  let bStop ← b.stop
  let cStop ← c.stop
  if bStop < c.address then return .before
  else if bStop = c.address then return .adjacentBefore
  else if b.address < cStop then return .overlapping
  else if b.address = cStop then return .adjacentAfter
  else return .after

end Block

/-- The free blocks left over on either side of an allocation. -/
structure Carving where
  left : Option Handle := none
  right : Option Handle := none
  deriving DecidableEq

/-- The left-over blocks, in address order. -/
def Carving.remainders (c : Carving) : List Handle := c.left.toList ++ c.right.toList

end MemoryBank
