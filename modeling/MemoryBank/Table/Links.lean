import MemoryBank.Table.Basic

/-!
# Linking and unlinking blocks

* `Table.store` gives a new block a slot, preferring the slot emptied last.
* `Table.linkBefore` and `Table.linkAfter` insert a block beside another one.
* `Table.retire` takes a block out of the list and hands its slot to the pool.

Each step reads the slots as the step before has left them.
-/

namespace MemoryBank.Table

/-- Put a block into the slot emptied last, or into a new slot if none waits. -/
def store (t : Table) (s : Slot) : Except Failure (Handle × Table) :=
  match t.pool with
  | [] => .ok (t.slots.size, { t with slots := t.slots.push s })
  | i :: pool => return (i, ← { t with pool }.update i fun _ => s)

/-- Let `next` follow `prev`; what follows nothing is the head. -/
def setNext (t : Table) (prev next : Option Handle) : Except Failure Table :=
  match prev with
  | some p => t.update p fun s => { s with next }
  | none => .ok { t with head := next }

/-- Let `prev` precede `next`, if there is such a block. -/
def setPrev (t : Table) (next prev : Option Handle) : Except Failure Table :=
  match next with
  | some n => t.update n fun s => { s with prev }
  | none => .ok t

/-- Insert a block directly before `i`. -/
def linkBefore (t : Table) (i : Handle) (address size : Nat) (allocated : Bool) :
    Except Failure (Handle × Table) := do
  let prev ← t.prev i
  let (k, t) ← t.store ⟨address, size, prev, some i, allocated⟩
  let t ← t.setNext prev (some k)
  let t ← t.setPrev (some i) (some k)
  return (k, t)

/-- Insert a block directly after `i`. -/
def linkAfter (t : Table) (i : Handle) (address size : Nat) (allocated : Bool) :
    Except Failure (Handle × Table) := do
  let next ← t.next i
  let (k, t) ← t.store ⟨address, size, some i, next, allocated⟩
  let t ← t.setPrev next (some k)
  let t ← t.setNext (some i) (some k)
  return (k, t)

/-- Take a block out of the list. Its slot joins the pool; only the address stays in it. -/
def retire (t : Table) (i : Handle) : Except Failure Table := do
  let s ← t.slot i
  let t ← t.setNext s.prev s.next
  let t ← t.setPrev s.next s.prev
  let t ← t.update i fun s => { address := s.address, size := 0 }
  return { t with pool := i :: t.pool }

theorem store_of_pool_nil {t : Table} (h : t.pool = []) (s : Slot) :
    t.store s = .ok (t.slots.size, { t with slots := t.slots.push s }) := by
  simp [store, h]

end MemoryBank.Table
