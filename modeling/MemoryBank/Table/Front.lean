import MemoryBank.Table.Links

/-!
# The low end of the list

A bank is shrunk by cutting bytes off its lowest block, and restored by pushing a block in front.

* `Table.frontCut` says where a cut lands.
* `Table.truncateFront` makes the cut.
* `Table.pushFront` adds a lowest block.
-/

namespace MemoryBank

/-- Where a cut off the low end of the list lands. -/
inductive FrontCut
  /-- Within a free lowest block. -/
  | lands (i : Handle)
  /-- Not in free bytes alone: this address is the first obstacle. -/
  | blocked (address : Nat)
  deriving DecidableEq

namespace Table

/-- Where a cut of `amount` bytes off the low end lands. Free blocks do not touch, so whatever
follows a free lowest block is in use. -/
def frontCut (t : Table) (amount : Nat) : Except Failure FrontCut := do
  match t.head with
  | none => return .blocked 0
  | some h =>
    let lowest ← t.slot h
    if lowest.allocated then return .blocked lowest.address
    if amount ≤ lowest.size then return .lands h
    match lowest.next with
    | some n => return .blocked (← t.address n)
    | none => return .blocked (← t.stop h)

/-- Cut `amount` bytes off the front of a block. A block that is consumed is retired, and the
answer is `none`. -/
def truncateFront (t : Table) (i : Handle) (amount : Nat) :
    Except Failure (Option Handle × Table) := do
  let size ← t.size i
  ensure (amount ≤ size) (.truncateTooLarge amount size)
  if amount = size then return (none, ← t.retire i)
  let address ← Address.add (← t.address i) amount
  let t ← t.update i fun s => { s with address, size := s.size - amount }
  return (some i, t)

/-- Add a block below all others. -/
def pushFront (t : Table) (address size : Nat) (allocated : Bool) :
    Except Failure (Handle × Table) := do
  match t.head with
  | some h =>
    ensure ((← Address.add address size) ≤ (← t.address h)) .frontOverlap
    t.linkBefore h address size allocated
  | none =>
    let (k, t) ← t.store ⟨address, size, none, none, allocated⟩
    return (k, { t with head := some k })

end Table

end MemoryBank
