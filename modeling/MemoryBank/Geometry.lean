import MemoryBank.Address

/-!
# The geometry of a bank

A bank is the range of `size` bytes from `offset` on in a larger address space. Inside the bank
addresses count from zero; `toAbsolute` and `toRelative?` convert.

* `validate` names the first condition that a geometry breaks; `validate_eq_ok_iff` says that
  it accepts exactly the geometries that are `Sound`.
* `align` rounds up to the alignment; `grant` is the number of bytes that a request receives.
-/

namespace MemoryBank

/-- The fixed parameters of a bank. -/
structure Geometry where
  /-- Bytes in the bank. -/
  size : Nat
  /-- Where the bank starts. -/
  offset : Nat
  /-- No allocation receives fewer bytes than this. -/
  minimum : Nat
  /-- The granularity of allocations. -/
  alignment : Nat
  deriving DecidableEq

/-- The least multiple of `increment` that is not below `value`, if it is an address. Nothing is
divided when there is nothing to round. -/
def roundUp (value increment : Nat) : Except Failure (Option Nat) := do
  if value = 0 then return some 0
  if increment = 0 then .error .divideByZero
  else
    let count ← Address.add ((value - 1) / increment) 1
    return Address.mul? count increment

namespace Geometry

/-- The conditions under which a bank can be managed. -/
structure Sound (g : Geometry) : Prop where
  alignment : g.alignment.isPowerOfTwo
  offset : g.offset % g.alignment = 0
  size : g.size % g.alignment = 0
  stop : g.offset + g.size < Address.limit

/-- Refuse a bank that cannot be managed, naming the first condition that it breaks. -/
def validate (g : Geometry) : Except Misuse Unit :=
  if ¬g.alignment.isPowerOfTwo then .error (.invalidAlignment g.alignment)
  else if g.offset % g.alignment ≠ 0 then .error (.misalignedOffset g.offset g.alignment)
  else if g.size % g.alignment ≠ 0 then .error (.misalignedSize g.size g.alignment)
  else if (Address.add? g.offset g.size).isNone then .error (.bankOutOfRange g.offset g.size)
  else .ok ()

theorem validate_eq_ok_iff {g : Geometry} {u : Unit} : g.validate = .ok u ↔ g.Sound := by
  have stop : (Address.add? g.offset g.size).isNone = true ↔
      ¬g.offset + g.size < Address.limit := by
    unfold Address.add?
    split <;> simp [*]
  unfold validate
  split <;> rename_i ha
  · exact ⟨(nomatch ·), fun h => absurd h.alignment ha⟩
  split <;> rename_i ho
  · exact ⟨(nomatch ·), fun h => absurd h.offset ho⟩
  split <;> rename_i hs
  · exact ⟨(nomatch ·), fun h => absurd h.size hs⟩
  split <;> rename_i ht
  · exact ⟨(nomatch ·), fun h => absurd h.stop (stop.1 ht)⟩
  · exact ⟨fun _ => ⟨Decidable.not_not.1 ha, Decidable.not_not.1 ho, Decidable.not_not.1 hs,
      Decidable.not_not.1 (mt stop.2 ht)⟩, fun _ => rfl⟩

/-- Round an address or a byte count up to the alignment. -/
def align (g : Geometry) (value : Nat) : Except Failure (Option Nat) := roundUp value g.alignment

/-- The number of bytes that a request for `request` bytes receives, or `none` if no bank could
hold them. -/
def grant (g : Geometry) (request : Nat) : Except Failure (Option Nat) := do
  let size ← g.align (max request g.minimum)
  return size.map fun n => if n = 0 then g.alignment else n

/-- An address of the bank as the caller sees it. -/
def toAbsolute (g : Geometry) (address : Nat) : Except Failure Nat := Address.add address g.offset

/-- A caller's address as the bank sees it, unless it lies below the bank. -/
def toRelative? (g : Geometry) (absolute : Nat) : Option Nat := Address.sub? absolute g.offset

end Geometry

end MemoryBank
