import MemoryBank.Action
import MemoryBank.Bank
import MemoryBank.FreeIndex
import MemoryBank.LiveIndex
import MemoryBank.Table.Carve
import MemoryBank.Table.Merge
import MemoryBank.Table.Text

/-!
# The indexed allocator

`Indexed` keeps two indexes beside its bank, so that no operation on a block has to walk the list:
the free blocks by size class, and the allocated blocks by address. Among equally small free
blocks the one filed first is taken, wherever it lies.

* `Indexed.unfile`, `Indexed.file`, `Indexed.allocateIn` and `Indexed.release` are the steps that
  keep the indexes and the block table together.
* `Indexed.allocate`, `Indexed.allocateAt`, `Indexed.deallocate`, `Indexed.clear`,
  `Indexed.shrink` and `Indexed.restore` are the operations.
* `Indexed.audit` checks the indexes against the blocks.
-/

namespace MemoryBank

/-- A bank with an index of its free and one of its allocated blocks. -/
structure Indexed where
  bank : Bank
  /-- The free blocks, filed by size. -/
  free : FreeIndex
  /-- The allocated blocks, by address. -/
  live : LiveIndex
  deriving DecidableEq

namespace Indexed

/-! ## Steps -/

/-- Put a changed block table in place. -/
def setTable (table : Table) : Action Indexed Unit :=
  modify fun a => { a with bank := { a.bank with table } }

/-- Put a changed bank in place. -/
def setBank (bank : Bank) : Action Indexed Unit := modify fun a => { a with bank }

/-- Put a changed index of the free blocks in place. -/
def setFree (free : FreeIndex) : Action Indexed Unit := modify fun a => { a with free }

/-- Put a changed index of the allocated blocks in place. -/
def setLive (live : LiveIndex) : Action Indexed Unit := modify fun a => { a with live }

/-- File a free block under its size. -/
def file (i : Handle) : Action Indexed Unit := do
  let a ← get
  setFree (← a.free.file i (← a.bank.table.size i))

/-- File free blocks under their sizes. -/
def fileAll : List Handle → Action Indexed Unit
  | [] => return
  | i :: rest => do
    file i
    fileAll rest

/-- Take a block out of the index of the free blocks, where it is filed under `size`. -/
def withdraw (i : Handle) (size : Nat) : Action Indexed Unit := do
  let a ← get
  setFree (← a.free.withdraw i size)

/-- Take blocks out of the index of the free blocks, each filed under the size beside it. -/
def withdrawAll : List (Handle × Nat) → Action Indexed Unit
  | [] => return
  | (i, size) :: rest => do
    withdraw i size
    withdrawAll rest

/-- Take a free block out of the index. -/
def unfile (i : Handle) : Action Indexed Unit := do
  let a ← get
  withdraw i (← a.bank.table.size i)

/-- Allocate a range of a free block that is no longer filed. The answer is where in the bank the
range begins. -/
def allocateIn (i : Handle) (offset size : Nat) : Action Indexed Nat := do
  let a ← get
  let (carving, table) ← a.bank.table.carve i offset size
  setTable table
  fileAll carving.remainders
  let address ← table.address i
  setLive (← a.live.insert address i)
  return address

/-- Free the block that is allocated at an address of the bank. -/
def release (address : Nat) : Action Indexed Unit := do
  let a ← get
  match a.live.remove? address with
  | none => Action.refuse (.invalidDeallocation (← a.bank.geometry.toAbsolute address))
  | some (i, live) =>
    setLive live
    let (merging, table) ← a.bank.table.coalesce i
    setTable table
    withdrawAll merging.absorbed
    file merging.merged

/-! ## Operations -/

/-- Forget every allocation and every cut. -/
def clear : Action Indexed Unit := do
  modify fun a => ⟨a.bank.reset, a.free.clear, a.live.clear⟩
  fileAll (← get).bank.table.head.toList

/-- An allocator for a fresh bank, with size classes of this base and number. -/
def create (g : Geometry) (base count : Nat) : Traced Indexed := do
  let bank ← Bank.create g
  let classes ← SizeClasses.ofCount base count
  clear.exec ⟨bank, .empty classes, .empty⟩

/-- Allocate a request in a block that the size classes offer. The answer is the caller's address
of the allocation, or `none` if no free block is large enough. -/
def allocate (request : Nat) (p : Placement) : Action Indexed (Option Nat) := do
  let a ← get
  match ← a.bank.grant request with
  | none => return none
  | some n =>
    match ← a.free.findFit n a.bank.table.size with
    | none =>
      Action.note (.noneFits n)
      return none
    | some (sizeClass, pos) =>
      let i ← a.free.entry sizeClass pos
      ensure ((← a.bank.table.isAllocated i) = false) (.blockTaken i)
      let offset ← a.bank.placeIn i n p
      let (_, free) ← a.free.take sizeClass pos
      setFree free
      let address ← a.bank.geometry.toAbsolute (← allocateIn i offset n)
      Action.note (.allocated n address p.direction)
      return some address

/-- Allocate a request at a given address. The answer is that address, or `none` if the range is
not free. -/
def allocateAt (absolute request : Nat) : Action Indexed (Option Nat) := do
  let a ← get
  match ← a.bank.grant request with
  | none => return none
  | some n =>
    match ← a.bank.locate absolute n with
    | none => return none
    | some (found, address) =>
      unfile found.index
      let offset ← Address.sub address found.address
      let address ← allocateIn found.index offset n
      Action.note (.allocatedAt n absolute)
      return some (← a.bank.geometry.toAbsolute address)

/-- Free the block that is allocated at a caller's address. -/
def deallocate (absolute : Nat) : Action Indexed Unit := do
  let a ← get
  match a.bank.geometry.toRelative? absolute with
  | none => Action.refuse (.invalidDeallocation absolute)
  | some address =>
    release address
    Action.note (.deallocated absolute)

/-- Cut `amount` bytes off the low end of the bank. -/
def shrink (amount : Nat) (d : Direction) : Action Indexed Unit := do
  if amount = 0 then return
  let a ← get
  let i ← a.bank.shrinkTarget amount d
  unfile i
  let (rest, table) ← a.bank.table.truncateFront i amount
  setTable table
  fileAll rest.toList
  let bank ← { a.bank with table }.holdBack amount
  setBank bank
  Action.note (.shrunk amount bank.usable bank.shrunk)

/-- Give back everything that was cut off: it becomes an allocated block, which is then freed. -/
def restore : Action Indexed Unit := do
  let a ← get
  let shrunk := a.bank.shrunk
  if shrunk = 0 then return
  let (i, table) ← a.bank.table.pushFront 0 shrunk true
  setTable table
  setLive (← a.live.insert 0 i)
  setBank (← { a.bank with table }.giveBack)
  release 0
  Action.note (.restored shrunk)

/-! ## Questions -/

/-- The fault of one filed entry, if the handle does not name a free block of that class. -/
def auditEntry (a : Indexed) (entry : Nat × Handle) : Audit :=
  let sound := ∃ b ∈ a.bank.table.blocks,
    b.index = entry.2 ∧ b.allocated = false ∧ a.free.classes.classOf b.size = entry.1
  .when (¬sound) { misfiled := 1 }

/-- The faults of handles that are filed again later. -/
def auditRepeats : List Handle → Audit
  | [] => {}
  | i :: rest => .when (i ∈ rest) { misfiled := 1 } + auditRepeats rest

/-- The fault of one block, if it cannot be found through the indexes. -/
def auditBlock (a : Indexed) (filed : List Handle) (b : Block) : Audit :=
  if b.allocated then .when (a.live.get? b.address ≠ some b.index) { unindexed := 1 }
  else .when (b.index ∉ filed) { misfiled := 1 }

/-- The faults in the indexes. -/
def auditIndexes (a : Indexed) : Audit :=
  let blocks := a.bank.table.blocks
  let filed := a.free.entries.map (·.2)
  let surplus := a.live.length - (blocks.filter (·.allocated)).length
  Audit.sum (a.free.entries.map a.auditEntry) + auditRepeats filed
    + Audit.sum (blocks.map (a.auditBlock filed)) + { unindexed := surplus }

/-- The faults in the allocator. -/
def audit (a : Indexed) : Except Failure Audit := return (← a.bank.audit) + a.auditIndexes

/-- The allocator's blocks as text. -/
def listing (a : Indexed) : String :=
  "FreeListOpt allocator info:\n" ++ "segregated free blocks by size:\n" ++ a.free.listing
    ++ s!"Free slots in block table:{FreeIndex.handlesText a.bank.table.pool.reverse}\n"
    ++ "Block table:\n" ++ a.bank.table.listing

end Indexed

end MemoryBank
