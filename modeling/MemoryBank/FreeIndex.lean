import MemoryBank.SizeClasses
import MemoryBank.Traced

/-!
# Free blocks by size class

A `FreeIndex` has one bucket of handles for each size class, in the order in which they were
filed. It does not know sizes; who files, withdraws or searches brings them along.

* `FreeIndex.file` and `FreeIndex.withdraw?` add and remove a handle.
* `FreeIndex.findFit` searches from the class of the wanted size upwards, and takes the smallest
  block that is large enough from the first bucket that has one.
* `FreeIndex.entries` lists what is filed.
-/

namespace MemoryBank

/-- Handles of free blocks, filed by size class. -/
structure FreeIndex where
  classes : SizeClasses
  buckets : List (List Handle)
  length_buckets : buckets.length = classes.count
  deriving DecidableEq

namespace FreeIndex

/-- Nothing is filed. -/
def empty (classes : SizeClasses) : FreeIndex :=
  ⟨classes, List.replicate classes.count [], List.length_replicate⟩

/-- Change one bucket. -/
def modify (f : FreeIndex) (sizeClass : Nat) (g : List Handle → List Handle) : FreeIndex where
  classes := f.classes
  buckets := f.buckets.modify sizeClass g
  length_buckets := by rw [List.length_modify, f.length_buckets]

/-- The handles filed in a class, the earliest first. -/
def bucket (f : FreeIndex) (sizeClass : Nat) : Except Failure (List Handle) :=
  match f.buckets[sizeClass]? with
  | some b => .ok b
  | none => .error .outOfRange

/-- The handles filed under a size's class. -/
def bucketOf (f : FreeIndex) (size : Nat) : List Handle :=
  f.buckets[f.classes.classOf size]?.getD []

theorem bucket_classOf (f : FreeIndex) (size : Nat) :
    f.bucket (f.classes.classOf size) = .ok (f.bucketOf size) := by
  have h : f.classes.classOf size < f.buckets.length := by
    rw [f.length_buckets]
    exact f.classes.classOf_lt size
  simp [bucket, bucketOf, h]

/-- File a handle under a size. -/
def file (f : FreeIndex) (i : Handle) (size : Nat) : Traced FreeIndex := do
  let sizeClass := f.classes.classOf size
  Traced.note (.filed i size sizeClass)
  return f.modify sizeClass (· ++ [i])

/-- Remove a handle that is filed under a size. -/
def withdraw? (f : FreeIndex) (i : Handle) (size : Nat) : Option FreeIndex :=
  if i ∈ f.bucketOf size then some (f.modify (f.classes.classOf size) (·.erase i)) else none

/-- Remove a handle that has to be filed under a size. -/
def withdraw (f : FreeIndex) (i : Handle) (size : Nat) : Except Failure FreeIndex :=
  match f.withdraw? i size with
  | some f => .ok f
  | none => .error (.breach (.notFiled i size))

/-- The handle at a position of a bucket. -/
def entry (f : FreeIndex) (sizeClass pos : Nat) : Except Failure Handle := do
  match (← f.bucket sizeClass)[pos]? with
  | some i => return i
  | none => .error .outOfRange

/-- Remove the handle at a position of a bucket. -/
def take (f : FreeIndex) (sizeClass pos : Nat) : Except Failure (Handle × FreeIndex) := do
  let i ← f.entry sizeClass pos
  return (i, f.modify sizeClass (·.eraseIdx pos))

/-- Remove everything. -/
def clear (f : FreeIndex) : FreeIndex := empty f.classes

/-- What is filed, class by class. -/
def entries (f : FreeIndex) : List (Nat × Handle) :=
  f.buckets.zipIdx.flatMap fun (b, sizeClass) => b.map (sizeClass, ·)

/-! ## The search -/

/-- The position of the best block in the rest of a bucket, which begins at position `pos`. `best`
is the best so far, with its size. A block of the very size ends the search; else a smaller one
wins, and of equals the earlier. -/
def scan (size : Nat) (sizeOf : Handle → Except Failure Nat) (pos : Nat)
    (best : Option (Nat × Nat)) : List Handle → Except Failure (Option Nat)
  | [] => return best.map (·.1)
  | i :: rest => do
    let candidate ← sizeOf i
    if candidate = size then return some pos
    let better := size < candidate ∧ ∀ b ∈ best, candidate < b.2
    scan size sizeOf (pos + 1) (if better then some (pos, candidate) else best) rest

/-- The class and position of the block that is taken from the buckets from `sizeClass` on. -/
def search (size : Nat) (sizeOf : Handle → Except Failure Nat) (sizeClass : Nat) :
    List (List Handle) → Except Failure (Option (Nat × Nat))
  | [] => return none
  | b :: rest => do
    match ← scan size sizeOf 0 none b with
    | some pos => return some (sizeClass, pos)
    | none => search size sizeOf (sizeClass + 1) rest

/-- The class and position of a block of at least `size` bytes. -/
def findFit (f : FreeIndex) (size : Nat) (sizeOf : Handle → Except Failure Nat) :
    Except Failure (Option (Nat × Nat)) :=
  let lowest := f.classes.classOf size
  search size sizeOf lowest (f.buckets.drop lowest)

/-! ## The index as text -/

/-- The bounds of a class. They are shown modulo the number of addresses. -/
def boundsText (classes : SizeClasses) (sizeClass : Nat) : String :=
  let low := classes.base <<< sizeClass % Address.limit
  let high := if sizeClass + 1 = classes.count then "inf" else toString (low <<< 1 % Address.limit)
  s!"({low} - {high})"

/-- Handles on a line, each after a blank. -/
def handlesText (handles : List Handle) : String := String.join (handles.map fun i => s!" {i}")

/-- One line for each class. -/
def listing (f : FreeIndex) : String :=
  String.join <| f.buckets.zipIdx.map fun (b, sizeClass) =>
    s!"  Size class {sizeClass}: {boundsText f.classes sizeClass} blocks:{handlesText b}\n"

end FreeIndex

end MemoryBank
