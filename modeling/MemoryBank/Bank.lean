import MemoryBank.Table.Audit
import MemoryBank.Table.Front
import MemoryBank.Traced
import MemoryBank.Usage

/-!
# Banks

A bank is a block table with its geometry and the account of what has been cut off its low end.
It knows nothing of how free blocks are chosen.

* `Bank.create` makes a bank of one free block, if the geometry is sound.
* `Bank.grant`, `Bank.placeIn`, `Bank.locate` and `Bank.shrinkTarget` check an operation's
  arguments before anything changes.
* `Bank.holdBack` and `Bank.giveBack` keep account of the bytes cut off.
* `Bank.candidates` are the free blocks that are large enough.
* `Bank.lowestOccupied`, `Bank.availableAddresses` and `Bank.usage` answer questions. Addresses
  in the answers are the callers'.
-/

namespace MemoryBank

/-- A bank, its blocks, and what has been cut off. -/
structure Bank where
  geometry : Geometry
  /-- Bytes that can be used at present. -/
  usable : Nat
  /-- Bytes cut off the low end. -/
  shrunk : Nat
  /-- The blocks between the cut and the end of the bank. -/
  table : Table
  deriving DecidableEq

namespace Bank

/-- One free block, nothing cut off. -/
def fresh (g : Geometry) : Bank := ⟨g, g.size, 0, .single 0 g.size⟩

/-- A fresh bank, if its geometry is sound. -/
def create (g : Geometry) : Traced Bank :=
  match g.validate with
  | .ok () => return fresh g
  | .error m => .refuse m

/-- Forget every allocation and every cut. -/
def reset (b : Bank) : Bank := fresh b.geometry

/-- The end of the range that the blocks cover; it starts after what is cut off. -/
def stop (b : Bank) : Except Failure Nat := Address.add b.shrunk b.usable

/-! ## Checks before an operation -/

/-- The number of bytes that a request receives, or `none` if not even the whole usable range
could hold them. -/
def grant (b : Bank) (request : Nat) : Traced (Option Nat) := do
  match (← b.geometry.grant request).filter (· ≤ b.usable) with
  | some n => return some n
  | none =>
    Traced.note (.neverFits request b.usable)
    return none

/-- How far into block `i` an allocation of `size` bytes begins. -/
def offsetIn (b : Bank) (i : Handle) (size : Nat) : Direction → Except Failure Nat
  | .bottomUp => return 0
  | .topDown => do Address.sub (← b.table.size i) size

/-- How far into the free block `i` an allocation of `size` bytes begins, if the caller's limit
admits it there. -/
def placeIn (b : Bank) (i : Handle) (size : Nat) (p : Placement) : Traced Nat := do
  let offset ← b.offsetIn i size p.direction
  match p.limit with
  | none => return offset
  | some limit =>
    let address ← b.geometry.toAbsolute (← Address.add (← b.table.address i) offset)
    if address < limit then return offset
    .refuse (.addressLimitExceeded limit address)

/-- The free block that contains the `size` bytes from a caller's address on, and where in the
bank they begin. -/
def locate (b : Bank) (absolute size : Nat) : Traced (Option (Block × Nat)) := do
  match b.geometry.toRelative? absolute with
  | none =>
    Traced.note (.belowOffset absolute b.geometry.offset)
    return none
  | some address =>
    if (← Address.mod address b.geometry.alignment) ≠ 0 then
      Traced.note (.misaligned absolute b.geometry.alignment)
      return none
    match ← b.table.findContaining address size with
    | none => return none
    | some found => return if found.allocated then none else some (found, address)

/-- The lowest block, if `amount` bytes can be cut off it. -/
def shrinkTarget (b : Bank) (amount : Nat) : Direction → Traced Handle
  | .topDown => .refuse .topDownShrinkUnsupported
  | .bottomUp => do
    if amount ≤ b.usable then
      match ← b.table.frontCut amount with
      | .lands i => return i
      | .blocked address =>
        .refuse (.shrinkCutsIntoAllocation amount (← b.geometry.toAbsolute address))
    else .refuse (.shrinkExceedsCapacity amount b.usable)

/-! ## The account of cuts -/

/-- Count `amount` bytes as cut off. -/
def holdBack (b : Bank) (amount : Nat) : Except Failure Bank :=
  return { b with usable := ← Address.sub b.usable amount, shrunk := ← Address.add b.shrunk amount }

/-- Count everything that was cut off as usable again. -/
def giveBack (b : Bank) : Except Failure Bank :=
  return { b with usable := ← Address.add b.usable b.shrunk, shrunk := 0 }

/-! ## Questions -/

/-- The caller's address of the lowest allocated block. -/
def lowestOccupied (b : Bank) : Except Failure (Option Nat) :=
  match b.table.blocks.find? (·.allocated) with
  | none => do
    b.table.exhaust
    return none
  | some found => return some (← b.geometry.toAbsolute found.address)

/-- A block's bytes as the caller sees them: the first address and the one after the last. -/
def range (b : Bank) (k : Block) : Except Failure (Nat × Nat) :=
  return (← b.geometry.toAbsolute k.address, ← b.geometry.toAbsolute (← k.stop))

/-- The free blocks of at least `size` bytes, in address order. -/
def candidates (b : Bank) (size : Nat) : List Block :=
  b.table.blocks.filter fun k => !k.allocated && size ≤ k.size

/-- The free ranges of at least `size` bytes, in address order. -/
def freeRanges (b : Bank) (size : Nat) : Except Failure (List (Nat × Nat)) := do
  let ranges ← (b.candidates size).mapM b.range
  b.table.exhaust
  return ranges

/-- The free ranges that could hold a request, in address order. -/
def availableAddresses (b : Bank) (request : Nat) : Traced (List (Nat × Nat)) := do
  match ← b.grant request with
  | none => return []
  | some n => b.freeRanges n

/-- How the bank is used. -/
def usage (b : Bank) : Except Failure Usage := do
  let u ← b.table.blocks.foldlM (Usage.count b.geometry) { allocatable := b.usable }
  b.table.exhaust
  return u

/-- The faults in the bank's blocks. -/
def audit (b : Bank) : Except Failure Audit := do b.table.audit b.shrunk (← b.stop)

end Bank

end MemoryBank
