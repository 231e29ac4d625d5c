import MemoryBank.Action
import MemoryBank.Bank
import MemoryBank.Table.Carve
import MemoryBank.Table.Merge
import MemoryBank.Table.Text

/-!
# The linear allocator

`Linear` keeps nothing beside its bank: each operation walks the list of blocks from the low end.
It is the plain reading of what an allocator does.

* `Linear.choose?` is the free block that the policy prefers; `Linear.search` looks for it.
* `Linear.allocate`, `Linear.allocateAt`, `Linear.deallocate`, `Linear.clear`, `Linear.shrink` and
  `Linear.restore` are the operations.
-/

namespace MemoryBank

/-- A bank whose free blocks are found by a walk. -/
structure Linear where
  bank : Bank
  policy : Policy
  deriving DecidableEq

namespace Linear

/-- An allocator for a fresh bank. -/
def create (g : Geometry) (policy : Policy) : Traced Linear :=
  return ⟨← Bank.create g, policy⟩

/-- The smallest of some blocks, the first of those on a tie. -/
def smallest? : List Block → Option Block
  | [] => none
  | b :: rest =>
    match smallest? rest with
    | none => some b
    | some c => if b.size ≤ c.size then some b else some c

/-- The free block of at least `size` bytes that the policy prefers. -/
def choose? (a : Linear) (size : Nat) : Option Block :=
  match a.policy with
  | .first => (a.bank.candidates size).head?
  | .best => smallest? (a.bank.candidates size)

/-- Look for the block that the policy prefers. Only the first that fits ends the walk early. -/
def search (a : Linear) (size : Nat) : Except Failure (Option Block) := do
  let found := a.choose? size
  if a.policy = .best ∨ found = none then a.bank.table.exhaust
  return found

/-- Put a changed block table in place. -/
def setTable (table : Table) : Action Linear Unit :=
  modify fun a => { a with bank := { a.bank with table } }

/-- Put a changed bank in place. -/
def setBank (bank : Bank) : Action Linear Unit := modify fun a => { a with bank }

/-- Allocate a request where the policy and the placement say. The answer is the caller's address
of the block, or `none` if no free block is large enough. -/
def allocate (request : Nat) (p : Placement) : Action Linear (Option Nat) := do
  let a ← get
  match ← a.bank.grant request with
  | none => return none
  | some n =>
    match ← a.search n with
    | none =>
      Action.note (.noneFits n)
      return none
    | some found =>
      let offset ← a.bank.placeIn found.index n p
      let (_, table) ← a.bank.table.carve found.index offset n
      setTable table
      let address ← a.bank.geometry.toAbsolute (← Address.add found.address offset)
      Action.note (.allocated n address p.direction)
      return some address

/-- Allocate a request at a given address. The answer is that address, or `none` if the range is
not free. -/
def allocateAt (absolute request : Nat) : Action Linear (Option Nat) := do
  let a ← get
  match ← a.bank.grant request with
  | none => return none
  | some n =>
    match ← a.bank.locate absolute n with
    | none => return none
    | some (found, address) =>
      let offset ← Address.sub address found.address
      let (_, table) ← a.bank.table.carve found.index offset n
      setTable table
      Action.note (.allocatedAt n absolute)
      return some absolute

/-- The allocated block at a caller's address. -/
def findAllocated (a : Linear) (absolute : Nat) : Except Failure (Option Block) :=
  match a.bank.geometry.toRelative? absolute with
  | none => return none
  | some address =>
    a.bank.table.findUpTo address fun b => return decide (b.address = address ∧ b.allocated)

/-- Free the block that is allocated at an address. -/
def deallocate (absolute : Nat) : Action Linear Unit := do
  let a ← get
  match ← a.findAllocated absolute with
  | none => Action.refuse (.invalidDeallocation absolute)
  | some found =>
    let (_, table) ← a.bank.table.coalesce found.index
    setTable table
    Action.note (.deallocated absolute)

/-- Forget every allocation and every cut. -/
def clear : Action Linear Unit := modify fun a => { a with bank := a.bank.reset }

/-- Cut `amount` bytes off the low end of the bank. -/
def shrink (amount : Nat) (d : Direction) : Action Linear Unit := do
  if amount = 0 then return
  let a ← get
  let i ← a.bank.shrinkTarget amount d
  let (_, table) ← a.bank.table.truncateFront i amount
  let bank ← { a.bank with table }.holdBack amount
  setBank bank
  Action.note (.shrunk amount bank.usable bank.shrunk)

/-- Give back everything that was cut off, by freeing it like a block. -/
def restore : Action Linear Unit := do
  let a ← get
  let shrunk := a.bank.shrunk
  if shrunk = 0 then return
  let (i, table) ← a.bank.table.pushFront 0 shrunk true
  let bank ← { a.bank with table }.giveBack
  let (_, table) ← bank.table.coalesce i
  setBank { bank with table }
  Action.note (.restored shrunk)

/-- The faults in the allocator. -/
def audit (a : Linear) : Except Failure Audit := a.bank.audit

/-- The allocator's blocks as text. -/
def listing (a : Linear) : String :=
  s!"FreeList allocator info ({a.policy.name} fit):\n" ++ "Block table:\n" ++ a.bank.table.listing

end Linear

end MemoryBank
