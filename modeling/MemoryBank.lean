import MemoryBank.Allocator
import MemoryBank.Latch
import MemoryBank.Proofs.Layout
import MemoryBank.Proofs.Walks
import MemoryBank.Proofs.Linked
import MemoryBank.Proofs.Auditing
import MemoryBank.Proofs.TableSteps
import MemoryBank.Proofs.TableRuns
import MemoryBank.Proofs.Effect
import MemoryBank.Proofs.Tracking
import MemoryBank.Proofs.ClassBounds
import MemoryBank.Proofs.Filing
import MemoryBank.Proofs.BestFitStore
import MemoryBank.Proofs.Recorded
import MemoryBank.Proofs.FiniteMap
import MemoryBank.Proofs.Verdict
import MemoryBank.Proofs.Contract
import MemoryBank.Proofs.BankSteps
import MemoryBank.Proofs.LinearSteps
import MemoryBank.Proofs.Arrival
import MemoryBank.Proofs.Ledger
import MemoryBank.Proofs.IndexedSteps
import MemoryBank.Proofs.Runs
import MemoryBank.Proofs.Clearing
import MemoryBank.Proofs.Consistency
import MemoryBank.Proofs.History
import MemoryBank.Proofs.Agreement
import MemoryBank.Proofs.Grouping
import MemoryBank.Proofs.Rounding
import MemoryBank.Proofs.Reached
import MemoryBank.Proofs.Placing
import MemoryBank.Proofs.Questions
import MemoryBank.Proofs.Moved
import MemoryBank.Proofs.Safety
import MemoryBank.Proofs.Refusals
import MemoryBank.Proofs.Canonical
import MemoryBank.Proofs.Peak
import MemoryBank.Proofs.FreeBytes
import MemoryBank.Proofs.Coalescing
import MemoryBank.Proofs.Choosing
import MemoryBank.Proofs.Reserving
import MemoryBank.Proofs.Cutting
import MemoryBank.Proofs.Retired
import MemoryBank.Proofs.RetiredSteps
import MemoryBank.Proofs.Accumulation
import MemoryBank.Proofs.Gaps
import MemoryBank.Proofs.Reporting
import MemoryBank.Proofs.Alignment
import MemoryBank.Proofs.MovedSteps
import MemoryBank.Proofs.Translation
