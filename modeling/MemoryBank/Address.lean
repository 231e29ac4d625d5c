import MemoryBank.Failure

/-!
# Addresses

Addresses and byte counts are natural numbers below `Address.limit`. Arithmetic that could leave
this range is checked where it happens: `add` and `sub` fail, `add?`, `sub?` and `mul?` answer
`none`. `mod` fails where nothing is divided by.
-/

namespace MemoryBank.Address

/-- The number of addresses: two to the power of 64, one more than the highest. -/
def limit : Nat := 0x10000000000000000

/-- The sum, which must be an address. -/
def add (a b : Nat) : Except Failure Nat :=
  if a + b < limit then .ok (a + b) else .error .overflow

/-- The difference, which must not be negative. -/
def sub (a b : Nat) : Except Failure Nat :=
  if b ≤ a then .ok (a - b) else .error .overflow

/-- The remainder, which a division by zero does not have. -/
def mod (a b : Nat) : Except Failure Nat :=
  if b = 0 then .error .divideByZero else .ok (a % b)

/-- The sum, if it is an address. -/
def add? (a b : Nat) : Option Nat := if a + b < limit then some (a + b) else none

/-- The difference, if it is not negative. -/
def sub? (a b : Nat) : Option Nat := if b ≤ a then some (a - b) else none

/-- The product, if it is an address. -/
def mul? (a b : Nat) : Option Nat := if a * b < limit then some (a * b) else none

theorem add_of_lt {a b : Nat} (h : a + b < limit) : add a b = .ok (a + b) := if_pos h

theorem sub_of_le {a b : Nat} (h : b ≤ a) : sub a b = .ok (a - b) := if_pos h

theorem mod_of_pos {a b : Nat} (h : 0 < b) : mod a b = .ok (a % b) := if_neg (Nat.ne_of_gt h)

theorem add_eq_ok_iff {a b c : Nat} : add a b = .ok c ↔ a + b = c ∧ c < limit := by
  unfold add
  split <;> simp <;> omega

theorem add?_eq_some_iff {a b c : Nat} : add? a b = some c ↔ a + b = c ∧ c < limit := by
  unfold add?
  split <;> simp <;> omega

theorem sub?_eq_some_iff {a b c : Nat} : sub? a b = some c ↔ b + c = a := by
  unfold sub?
  split <;> simp <;> omega

theorem sub?_eq_none_iff {a b : Nat} : sub? a b = none ↔ a < b := by
  unfold sub?
  split <;> simp <;> omega

theorem mul?_eq_some_iff {a b c : Nat} : mul? a b = some c ↔ a * b = c ∧ c < limit := by
  unfold mul?
  split <;> simp
  · rintro rfl; assumption
  · rintro rfl; omega

end MemoryBank.Address
