import MemoryBank.Table.Basic

/-!
# The block table as text

* `Table.listing` has one row for each slot in use, in slot order, below a heading.
* `Table.summary` shows the blocks on one line, in address order.
-/

namespace MemoryBank

open Text

/-- One line of a listing: cells of equal width, aligned on the right. -/
def Table.row (cells : List String) : String :=
  " ".intercalate (cells.map (alignRight 10)) ++ "\n"

/-- A link as a listing shows it. -/
def Table.linkText : Option Handle → String
  | none => "none"
  | some i => toString i

/-- The row of the block in slot `i`. -/
def Slot.row (s : Slot) (i : Handle) : String :=
  Table.row [toString i, toString s.address, toString s.size, Table.linkText s.prev,
    Table.linkText s.next, if s.allocated then "yes" else "no"]

/-- A block on one line. -/
def Block.summary (b : Block) : String :=
  let use := if b.allocated then "used" else "free"
  s!"Block({hex b.address}, {b.size}, {use})"

namespace Table

/-- The heading of a listing. -/
def heading : String := row ["Block", "Address", "Size", "PrevID", "NextID", "Allocated"]

/-- One row for each slot that does not wait in the pool. -/
def listing (t : Table) : String :=
  heading ++ String.join
    ((t.slots.toList.zipIdx.filter fun e => e.2 ∉ t.pool).map fun e => e.1.row e.2)

/-- The blocks on one line, as far as the walk comes. -/
def summary (t : Table) : String :=
  "BlockTable(" ++ ", ".intercalate (t.blocks.map Block.summary) ++ ")"

end Table

end MemoryBank
