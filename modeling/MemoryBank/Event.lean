import MemoryBank.Block
import MemoryBank.Geometry
import MemoryBank.Placement
import MemoryBank.Strategy

/-!
# The log

What the allocators report while they work. Each event has a level and a text of one line.
-/

namespace MemoryBank

open Text

/-- How much an event matters. -/
inductive Level
  | error
  | warn
  | debug
  | trace
  deriving DecidableEq

/-- The name of a level. -/
def Level.name : Level → String
  | .error => "ERROR"
  | .warn => "WARN"
  | .debug => "DEBUG"
  | .trace => "TRACE"

/-- The occasions that are logged. -/
inductive Event
  /-- An allocator is about to be built. -/
  | building (strategy : Strategy) (geometry : Geometry)
  /-- The caller broke the contract. -/
  | refused (misuse : Misuse)
  /-- A request is larger than the whole usable range. -/
  | neverFits (request usable : Nat)
  /-- No free block is large enough. -/
  | noneFits (size : Nat)
  /-- A block was allocated. -/
  | allocated (size address : Nat) (direction : Direction)
  /-- A block was allocated at the address that the caller named. -/
  | allocatedAt (size address : Nat)
  /-- A block was freed. -/
  | deallocated (address : Nat)
  /-- Bytes were cut off the low end. -/
  | shrunk (amount usable held : Nat)
  /-- The bytes cut off are back. -/
  | restored (amount : Nat)
  /-- A named address lies below the bank. -/
  | belowOffset (address offset : Nat)
  /-- A named address lies between multiples of the alignment. -/
  | misaligned (address alignment : Nat)
  /-- A range of a block was allocated. -/
  | carved (address size : Nat) (block : Handle) (carving : Carving)
  /-- A block was merged into the one before it. -/
  | merged (absorbed block : Handle) (address size : Nat)
  /-- A free block was filed under its size. -/
  | filed (block : Handle) (size sizeClass : Nat)
  deriving DecidableEq

/-- A left-over block as the log shows it. -/
def Carving.sideText : Option Handle → String
  | none => "None"
  | some i => s!"Some(BlockIndex({i}))"

/-- The left-over blocks as the log shows them. -/
def Carving.text (c : Carving) : String :=
  s!"Carve \x7b left: {sideText c.left}, right: {sideText c.right} \x7d"

/-- A geometry as the log shows it. -/
def Geometry.text (g : Geometry) : String :=
  s!"BankConfig \x7b max_size_bytes: {g.size}, offset_bytes: {g.offset}, "
    ++ s!"min_allocation_size: {g.minimum}, alignment: {g.alignment} \x7d"

namespace Event

/-- The level of an event. -/
def level : Event → Level
  | .refused .. => .error
  | .belowOffset .. | .misaligned .. => .warn
  | .carved .. | .merged .. | .filed .. => .trace
  | .building .. | .neverFits .. | .noneFits .. | .allocated .. | .allocatedAt ..
  | .deallocated .. | .shrunk .. | .restored .. => .debug

/-- The text of an event. -/
def text : Event → String
  | .building strategy geometry => s!"Building {strategy.name} allocator for {geometry.text}"
  | .refused misuse => misuse.message
  | .neverFits request usable =>
    s!"Request for {request} bytes can never fit in {usable} usable bytes"
  | .noneFits size => s!"No free block can hold {size} bytes"
  | .allocated size address direction =>
    s!"Allocated {size} bytes at {hex address} ({direction.name})"
  | .allocatedAt size address => s!"Allocated {size} bytes at requested {hex address}"
  | .deallocated address => s!"Deallocated {hex address}"
  | .shrunk amount usable held =>
    s!"Shrunk by {hex amount}: {hex usable} bytes usable, {hex held} held back"
  | .restored amount => s!"Restored {hex amount} shrunk bytes"
  | .belowOffset address offset => s!"Address {hex address} is below the bank offset {hex offset}"
  | .misaligned address alignment => s!"Address {hex address} is not {alignment} B aligned"
  | .carved address size block carving =>
    s!"Carved {hex address}+{size} from block {block}, leaving {carving.text}"
  | .merged absorbed block address size =>
    s!"Merged block {absorbed} into {block}: now {hex address}+{size}"
  | .filed block size sizeClass => s!"Filing block {block} ({size} bytes) in class {sizeClass}"

/-- An event as one line of the log. -/
def line (e : Event) : String := s!"{e.level.name} {e.text}"

end Event

end MemoryBank
