import MemoryBank.Table.Basic

/-!
# Auditing the block table

An `Audit` counts what is wrong with an allocator, one count for each kind of fault. Audits add
up count by count. `Table.audit` walks the list once and checks that it tiles a given range with
properly linked blocks, no two free ones side by side.
-/

namespace MemoryBank

/-- The faults found in an allocator. -/
structure Audit where
  /-- Blocks that overlap the one before. -/
  overlaps : Nat := 0
  /-- Holes in the cover of the usable range, at either end too. -/
  gaps : Nat := 0
  /-- Blocks that do not lie above the one before. -/
  outOfOrder : Nat := 0
  /-- Blocks whose link down does not lead to the block whose link up led to them. -/
  brokenLinks : Nat := 0
  /-- Neighbours that are both free. -/
  adjacentFree : Nat := 0
  /-- Free blocks that are not filed exactly once under their size, and filed blocks that are
  not free. -/
  misfiled : Nat := 0
  /-- Allocated blocks that cannot be found by address, and recorded addresses beyond those. -/
  unindexed : Nat := 0
  deriving DecidableEq

namespace Audit

/-- Nothing is wrong. -/
def isClean (a : Audit) : Bool := a = {}

/-- All faults of two audits together. -/
def add (a b : Audit) : Audit where
  overlaps := a.overlaps + b.overlaps
  gaps := a.gaps + b.gaps
  outOfOrder := a.outOfOrder + b.outOfOrder
  brokenLinks := a.brokenLinks + b.brokenLinks
  adjacentFree := a.adjacentFree + b.adjacentFree
  misfiled := a.misfiled + b.misfiled
  unindexed := a.unindexed + b.unindexed

instance : Add Audit := ⟨add⟩

/-- All faults of some audits together. -/
def sum : List Audit → Audit
  | [] => {}
  | a :: rest => a + sum rest

/-- An audit that finds `fault` where `p` holds, and nothing elsewhere. -/
def when (p : Prop) [Decidable p] (fault : Audit) : Audit := if p then fault else {}

theorem isClean_iff {a : Audit} : a.isClean = true ↔ a = {} := by simp [isClean]

theorem add_eq_clean_iff {a b : Audit} : a + b = {} ↔ a = {} ∧ b = {} := by
  cases a; cases b
  change add _ _ = _ ↔ _
  simp only [add, Audit.mk.injEq]
  omega

theorem sum_eq_clean_iff {audits : List Audit} : sum audits = {} ↔ ∀ a ∈ audits, a = {} := by
  induction audits with
  | nil => simp [sum]
  | cons a rest ih => simp [sum, add_eq_clean_iff, ih]

theorem when_eq_clean_iff {p : Prop} [Decidable p] {fault : Audit} (h : fault ≠ {}) :
    Audit.when p fault = {} ↔ ¬p := by
  by_cases hp : p <;> simp [Audit.when, hp, h]

end Audit

/-- The fault in the order of two consecutive blocks that lie like this. -/
def Block.Relation.fault : Block.Relation → Audit
  | .before => { gaps := 1 }
  | .adjacentBefore => {}
  | .overlapping => { overlaps := 1 }
  | .adjacentAfter | .after => { outOfOrder := 1 }

namespace Table

/-- The faults where `b` follows `before` on the walk, or where it is the first block of a range
that should begin at `start`. -/
def auditStep (t : Table) (start : Nat) (before : Option Block) (b : Block) :
    Except Failure Audit := do
  let link := Audit.when ((← t.prev b.index) ≠ before.map (·.index)) { brokenLinks := 1 }
  match before with
  | none => return link + Audit.when (b.address ≠ start) { gaps := 1 }
  | some a =>
    let order := (← a.relation b).fault
    return link + order +
      Audit.when (a.allocated = false ∧ b.allocated = false) { adjacentFree := 1 }

/-- The faults at the end of a walk that should have covered the range up to `stop`. -/
def auditEnd (start stop : Nat) : Option Block → Except Failure Audit
  | some last => return Audit.when ((← last.stop) ≠ stop) { gaps := 1 }
  | none => return Audit.when (start < stop) { gaps := 1 }

/-- The faults on the rest of a walk that has come from `before`. -/
def auditFrom (t : Table) (start stop : Nat) (before : Option Block) :
    List Block → Except Failure Audit
  | [] => do
    t.exhaust
    auditEnd start stop before
  | b :: rest => return (← t.auditStep start before b) + (← t.auditFrom start stop (some b) rest)

/-- The faults of the list, which should tile the range from `start` to `stop`. -/
def audit (t : Table) (start stop : Nat) : Except Failure Audit :=
  t.auditFrom start stop none t.blocks

end Table

end MemoryBank
