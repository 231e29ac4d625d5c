import MemoryBank.Allocator.Indexed
import MemoryBank.Allocator.Linear

/-!
# Allocators

An `Allocator` is a linear or an indexed one. Both serve the same requests:
`Allocator.perform` takes a `Request` to a `Reply`. `Strategy.build` makes the allocator that a
strategy names.
-/

namespace MemoryBank

/-- What is asked of an allocator. All addresses are the callers'. -/
inductive Request
  /-- Allocate bytes wherever there is room. -/
  | allocate (size : Nat) (placement : Placement)
  /-- Allocate bytes at an address. -/
  | allocateAt (address size : Nat)
  /-- Free the block at an address. -/
  | deallocate (address : Nat)
  /-- Forget every allocation and every cut. -/
  | clear
  /-- Cut bytes off one end of the bank. -/
  | shrink (amount : Nat) (direction : Direction)
  /-- Give back everything that was cut off. -/
  | restore
  deriving DecidableEq

/-- What an allocator answers. -/
inductive Reply
  /-- The address of a new allocation. -/
  | placed (address : Nat)
  /-- There is no room for the allocation. -/
  | noRoom
  /-- A request that has no other answer is done. -/
  | done
  deriving DecidableEq

/-- The reply to a request for memory. -/
def Reply.ofAddress? : Option Nat → Reply
  | some address => .placed address
  | none => .noRoom

/-- Serve a request. -/
def Linear.perform : Request → Action Linear Reply
  | .allocate size placement => do return .ofAddress? (← allocate size placement)
  | .allocateAt address size => do return .ofAddress? (← allocateAt address size)
  | .deallocate address => do deallocate address; return .done
  | .clear => do clear; return .done
  | .shrink amount direction => do shrink amount direction; return .done
  | .restore => do restore; return .done

/-- Serve a request. -/
def Indexed.perform : Request → Action Indexed Reply
  | .allocate size placement => do return .ofAddress? (← allocate size placement)
  | .allocateAt address size => do return .ofAddress? (← allocateAt address size)
  | .deallocate address => do deallocate address; return .done
  | .clear => do clear; return .done
  | .shrink amount direction => do shrink amount direction; return .done
  | .restore => do restore; return .done

/-- An allocator for one bank. -/
inductive Allocator
  | linear (a : Linear)
  | indexed (a : Indexed)
  deriving DecidableEq

namespace Allocator

/-- The allocator's bank. -/
def bank : Allocator → Bank
  | .linear a => a.bank
  | .indexed a => a.bank

/-- Serve a request. -/
def perform (r : Request) : Action Allocator Reply where
  run
    | .linear a => ((Linear.perform r).run a).mapState .linear
    | .indexed a => ((Indexed.perform r).run a).mapState .indexed

/-- The faults in the allocator. -/
def audit : Allocator → Except Failure Audit
  | .linear a => a.audit
  | .indexed a => a.audit

/-- The allocator's blocks as text. -/
def listing : Allocator → String
  | .linear a => a.listing
  | .indexed a => a.listing

end Allocator

/-- The allocator that a strategy names, for a fresh bank. -/
def Strategy.build (s : Strategy) (g : Geometry) : Traced Allocator := do
  Traced.note (.building s g)
  match s with
  | .firstFit => return .linear (← Linear.create g .first)
  | .bestFit => return .linear (← Linear.create g .best)
  | .segregated =>
    return .indexed (← Indexed.create g SizeClasses.standard.base SizeClasses.standard.count)

end MemoryBank
