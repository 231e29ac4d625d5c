import MemoryBank.Block

/-!
# The block table

The blocks of a bank form a doubly linked list in address order. The list lives in an array of
slots, and a block's handle is the number of its slot. Slots whose block was merged away wait in
a pool, and are used again before the array grows.

* `Table.slot` and `Table.update` read and change one slot; a handle that names no slot fails
  (`slot_eq_ok_iff`, `slot_update_self`).
* `Table.blocks` is the walk from the lowest block upwards. It visits no more blocks than there
  are slots, so it ends on every table. `Table.exhaust` goes on where it ends, which fails at a link
  to no slot.
* `Table.findUpTo` looks for a block on the walk and stops above an address.
  `Table.findContaining` finds the block that holds a whole range.
-/

namespace MemoryBank

/-- What the table keeps for one block. -/
structure Slot where
  address : Nat
  size : Nat
  /-- The block before this one. -/
  prev : Option Handle := none
  /-- The block after this one. -/
  next : Option Handle := none
  allocated : Bool := false
  deriving DecidableEq

/-- The block that a slot holds. -/
def Slot.block (s : Slot) (i : Handle) : Block := ⟨i, s.address, s.size, s.allocated⟩

/-- Blocks in slots, linked in address order. -/
structure Table where
  slots : Array Slot := #[]
  /-- The slots that hold no block, the most recently emptied first. -/
  pool : List Handle := []
  /-- The lowest block. -/
  head : Option Handle := none
  deriving DecidableEq

namespace Table

/-- A table that holds one free block, or none if the block would be empty. -/
def single (address size : Nat) : Table :=
  if size = 0 then {}
  else ⟨#[⟨address, size, none, none, false⟩], [], some 0⟩

/-! ## Reading a slot -/

/-- The content of a slot. -/
def slot (t : Table) (i : Handle) : Except Failure Slot :=
  match t.slots[i]? with
  | some s => .ok s
  | none => .error .outOfRange

theorem slot_eq_ok_iff {t : Table} {i : Handle} {s : Slot} :
    t.slot i = .ok s ↔ t.slots[i]? = some s := by
  unfold slot
  cases t.slots[i]? <;> simp

/-- The address at which a block starts. -/
def address (t : Table) (i : Handle) : Except Failure Nat := return (← t.slot i).address

/-- The size of a block. -/
def size (t : Table) (i : Handle) : Except Failure Nat := return (← t.slot i).size

/-- The handle before a block. -/
def prev (t : Table) (i : Handle) : Except Failure (Option Handle) := return (← t.slot i).prev

/-- The handle after a block. -/
def next (t : Table) (i : Handle) : Except Failure (Option Handle) := return (← t.slot i).next

/-- Whether a block is allocated. -/
def isAllocated (t : Table) (i : Handle) : Except Failure Bool := return (← t.slot i).allocated

/-- The block that a handle names. -/
def block (t : Table) (i : Handle) : Except Failure Block := return (← t.slot i).block i

/-- The address after a block. -/
def stop (t : Table) (i : Handle) : Except Failure Nat := do (← t.block i).stop

theorem address_of_slot {t : Table} {i : Handle} {s : Slot} (h : t.slot i = .ok s) :
    t.address i = .ok s.address := by
  rw [address, h]; rfl

theorem size_of_slot {t : Table} {i : Handle} {s : Slot} (h : t.slot i = .ok s) :
    t.size i = .ok s.size := by
  rw [size, h]; rfl

theorem prev_of_slot {t : Table} {i : Handle} {s : Slot} (h : t.slot i = .ok s) :
    t.prev i = .ok s.prev := by
  rw [prev, h]; rfl

theorem next_of_slot {t : Table} {i : Handle} {s : Slot} (h : t.slot i = .ok s) :
    t.next i = .ok s.next := by
  rw [next, h]; rfl

theorem isAllocated_of_slot {t : Table} {i : Handle} {s : Slot} (h : t.slot i = .ok s) :
    t.isAllocated i = .ok s.allocated := by
  rw [isAllocated, h]; rfl

theorem block_of_slot {t : Table} {i : Handle} {s : Slot} (h : t.slot i = .ok s) :
    t.block i = .ok (s.block i) := by
  rw [block, h]; rfl

/-! ## Changing a slot -/

/-- Change the content of a slot. -/
def update (t : Table) (i : Handle) (f : Slot → Slot) : Except Failure Table := do
  let s ← t.slot i
  return { t with slots := t.slots.setIfInBounds i (f s) }

theorem update_eq_ok {t : Table} {i : Handle} {s : Slot} (h : t.slot i = .ok s)
    (f : Slot → Slot) :
    t.update i f = .ok { t with slots := t.slots.setIfInBounds i (f s) } := by
  rw [update, h]; rfl

theorem slot_update_self {t : Table} {i : Handle} {s : Slot} (h : t.slot i = .ok s)
    (f : Slot → Slot) :
    slot { t with slots := t.slots.setIfInBounds i (f s) } i = .ok (f s) := by
  rw [slot_eq_ok_iff] at h ⊢
  have := (Array.getElem?_eq_some_iff.1 h).1
  simp [this]

/-- Mark a block as free or allocated. -/
def setAllocated (t : Table) (i : Handle) (allocated : Bool) : Except Failure Table :=
  t.update i fun s => { s with allocated }

/-! ## The walk -/

/-- At most `fuel` blocks from `start` on, following the links upwards. -/
def walk (t : Table) : Nat → Option Handle → List Block
  | 0, _ => []
  | _, none => []
  | fuel + 1, some i =>
    match t.slots[i]? with
    | none => []
    | some s => s.block i :: t.walk fuel s.next

/-- The blocks of the list, the lowest first. -/
def blocks (t : Table) : List Block := t.walk t.slots.size t.head

/-- Follow at most `fuel` links upwards. A link to a handle that names no slot fails. -/
def walkOn (t : Table) : Nat → Option Handle → Except Failure Unit
  | 0, _ => return
  | _, none => return
  | fuel + 1, some i => do t.walkOn fuel (← t.slot i).next

/-- Walk to the end of the list, past all blocks. Whoever has not stopped at one of them does. -/
def exhaust (t : Table) : Except Failure Unit := t.walkOn (t.slots.size + 1) t.head

@[simp] theorem walk_none (t : Table) (fuel : Nat) : t.walk fuel none = [] := by
  cases fuel <;> rfl

theorem walk_some {t : Table} {i : Handle} {s : Slot} (h : t.slot i = .ok s) (fuel : Nat) :
    t.walk (fuel + 1) (some i) = s.block i :: t.walk fuel s.next := by
  rw [slot_eq_ok_iff] at h
  simp [walk, h]

/-- The number of blocks: the slots that do not wait in the pool. -/
def length (t : Table) : Except Failure Nat := Address.sub t.slots.size t.pool.length

/-- Whether the table holds no block. -/
def isEmpty (t : Table) : Bool := t.head.isNone

/-- The first block that passes the test. The walk stops at a block that starts above `address`,
which is not looked at. -/
def findUpTo (t : Table) (address : Nat) (test : Block → Except Failure Bool) :
    Except Failure (Option Block) := do
  match ← (t.blocks.takeWhile fun b => b.address ≤ address).findM? test with
  | some b => return some b
  | none =>
    if ∀ b ∈ t.blocks, b.address ≤ address then t.exhaust
    return none

/-- The block that contains the whole range of `size` bytes from `address` on. -/
def findContaining (t : Table) (address size : Nat) : Except Failure (Option Block) :=
  match Address.add? address size with
  | none => .ok none
  | some stop => t.findUpTo address fun b => return decide (stop ≤ (← b.stop))

end Table

end MemoryBank
