import MemoryBank.Text

/-!
# Failures

Running out of space is an answer, not a failure. What remains falls into two kinds.

* `Misuse`: the caller broke the contract, or described a bank that cannot be managed. The
  operation is refused and nothing changes.
* `Breach` and the other constructors of `Failure`: an internal condition did not hold. These
  guard the allocators' own bookkeeping.
-/

namespace MemoryBank

open Text

/-- The ways in which a caller breaks the contract. -/
inductive Misuse
  /-- No block is allocated at the freed address. -/
  | invalidDeallocation (address : Nat)
  /-- A cut off the low end of the bank reaches an allocated block. -/
  | shrinkCutsIntoAllocation (amount address : Nat)
  /-- A cut is larger than what is usable. -/
  | shrinkExceedsCapacity (amount usable : Nat)
  /-- A cut off the high end of the bank. -/
  | topDownShrinkUnsupported
  /-- The alignment is not a power of two. -/
  | invalidAlignment (alignment : Nat)
  /-- The bank starts between multiples of the alignment. -/
  | misalignedOffset (offset alignment : Nat)
  /-- The bank's size is not a multiple of the alignment. -/
  | misalignedSize (size alignment : Nat)
  /-- The bank does not end within the address space. -/
  | bankOutOfRange (offset size : Nat)
  /-- The chosen address is not below the limit that the caller set. -/
  | addressLimitExceeded (limit address : Nat)
  deriving DecidableEq

/-- The text of a misuse: addresses and byte counts in base sixteen, alignments in base ten. -/
def Misuse.message : Misuse → String
  | .invalidDeallocation address =>
    s!"invalid deallocation at {hex address}: block is not allocated (bad address or double free)"
  | .shrinkCutsIntoAllocation amount address =>
    s!"shrink size {hex amount} cuts into allocated block at {hex address}"
  | .shrinkExceedsCapacity amount usable =>
    s!"shrink size {hex amount} exceeds usable size {hex usable}"
  | .topDownShrinkUnsupported => "shrinking from the top is not supported"
  | .invalidAlignment alignment => s!"alignment {hex alignment} must be a non-zero power of two"
  | .misalignedOffset offset alignment => s!"offset {hex offset} should be {alignment} B aligned"
  | .misalignedSize size alignment => s!"bank size {hex size} should be {alignment} B aligned"
  | .bankOutOfRange offset size =>
    s!"bank at {hex offset} with size {hex size} runs past the end of the address space"
  | .addressLimitExceeded limit address =>
    s!"out of memory: cannot allocate below {hex limit}, allocation would start at {hex address}"

/-- The internal conditions that the bookkeeping checks as it goes. -/
inductive Breach
  /-- The carved range lies within the block. -/
  | carveTooLarge (offset size blockSize : Nat)
  /-- Only free blocks are carved. -/
  | carveOfAllocated
  /-- A merge needs a block that follows. -/
  | mergeOfLast
  /-- Merged blocks touch. -/
  | mergeApart
  /-- A cut lies within the block. -/
  | truncateTooLarge (amount blockSize : Nat)
  /-- A new lowest block ends before the old one starts. -/
  | frontOverlap
  /-- An address is recorded once. -/
  | addressTaken (address : Nat)
  /-- A free block is filed under its size. -/
  | notFiled (block size : Nat)
  /-- The smallest size class holds something. -/
  | zeroClassBase
  /-- There is a first size class, and fewer classes than bits in an address. -/
  | classCount (count : Nat)
  /-- A filed block is free. -/
  | blockTaken (block : Nat)
  deriving DecidableEq

/-- The text of a breach. -/
def Breach.message : Breach → String
  | .carveTooLarge offset size blockSize =>
    s!"Can't carve {offset}+{size} out of a block of size {blockSize}"
  | .carveOfAllocated => "carving an allocated block"
  | .mergeOfLast => "merge_next called on the last block"
  | .mergeApart => "merging non-adjacent blocks"
  | .truncateTooLarge amount blockSize =>
    s!"Can't truncate {amount} bytes off a block of size {blockSize}"
  | .frontOverlap => "push_front overlaps the head"
  | .addressTaken address => s!"Block at {hex address} already allocated"
  | .notFiled block size => s!"Free block {block} ({size} bytes) missing from its size class"
  | .zeroClassBase => "size class base must be non-zero"
  | .classCount count => s!"size class count {count} out of range"
  | .blockTaken block => s!"Block {block} is already allocated"

/-- Why an operation did not come to an end. -/
inductive Failure
  /-- The caller broke the contract. -/
  | misuse (m : Misuse)
  /-- An internal condition did not hold. -/
  | breach (b : Breach)
  /-- A sum or difference left the address space. -/
  | overflow
  /-- A division by zero. -/
  | divideByZero
  /-- A handle or position that names nothing. -/
  | outOfRange
  deriving DecidableEq

/-- Whether a failure is the allocator's own. The state that it leaves is not to be used again;
after the caller's fault, it is. -/
def Failure.isInternal : Failure → Bool
  | .misuse _ => false
  | .breach _ | .overflow | .divideByZero | .outOfRange => true

/-- A sequence answers exactly when its steps do. -/
theorem bind_eq_ok_iff {α β : Type} {x : Except Failure α} {f : α → Except Failure β} {b : β} :
    (x >>= f) = .ok b ↔ ∃ a, x = .ok a ∧ f a = .ok b := by
  cases x with
  | error e => exact ⟨(nomatch ·), fun ⟨_, h, _⟩ => nomatch h⟩
  | ok a => exact ⟨fun h => ⟨a, rfl, h⟩, fun ⟨_, h, h'⟩ => by cases h; exact h'⟩

/-- What answers with a pair answers with one pair. -/
theorem ok_pair_unique {α β : Type} {x : Except Failure (α × β)} {a a' : α} {b b' : β}
    (h : x = .ok (a, b)) (h' : x = .ok (a', b')) : a = a' ∧ b = b' :=
  Prod.ext_iff.1 (Except.ok.inj (h.symm.trans h'))

@[simp] theorem ok_bind {α β : Type} (a : α) (f : α → Except Failure β) :
    (Except.ok a >>= f) = f a := rfl

@[simp] theorem error_bind {α β : Type} (e : Failure) (f : α → Except Failure β) :
    (Except.error e >>= f) = .error e := rfl

/-- Continue only if `p` holds. -/
def ensure (p : Prop) [Decidable p] (b : Breach) : Except Failure Unit :=
  if p then .ok () else .error (.breach b)

theorem ensure_of {p : Prop} [Decidable p] (h : p) (b : Breach) : ensure p b = .ok () := if_pos h

theorem ensure_of_not {p : Prop} [Decidable p] (h : ¬p) (b : Breach) :
    ensure p b = .error (.breach b) := if_neg h

theorem ensure_eq_ok_iff {p : Prop} [Decidable p] {b : Breach} {u : Unit} :
    ensure p b = .ok u ↔ p := by
  by_cases h : p <;> simp [ensure, h]

end MemoryBank
